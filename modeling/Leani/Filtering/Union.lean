import Leani.Filtering.Scope
import Mathlib.Order.Defs.LinearOrder
import Mathlib.Order.MinMax

/-!
# Combined scopes

One request serves several processors, so their scopes are widened into one that covers them all.
What the combined scope matches is a union field by field, except at a topic position that its
first scope constrains more than once.
-/

namespace Leani.Filtering

open List FilterScope

section Lists

variable {α : Type} [DecidableEq α]

def extendUnique (retained incoming : List α) : List α :=
  incoming.foldl (fun list value => if list.contains value then list else list ++ [value]) retained

/-- `union_values`: a wildcard on either side stays one. -/
def unionValues (retained incoming : List α) : List α :=
  if incoming.isEmpty then [] else if retained.isEmpty then [] else extendUnique retained incoming

theorem mem_extendUnique {incoming : List α} {value : α} : ∀ {ret : List α},
    value ∈ extendUnique ret incoming ↔ value ∈ ret ∨ value ∈ incoming := by
  induction incoming with
  | nil => intro ret; exact (or_iff_left not_mem_nil).symm
  | cons head incoming ih =>
    intro ret
    have hstep : extendUnique ret (head :: incoming) =
        extendUnique (if ret.contains head then ret else ret ++ [head]) incoming :=
      rfl
    rw [hstep, ih, mem_cons, ← or_assoc]
    refine or_congr_left ?_
    split
    · rename_i hin
      rw [contains_iff_mem] at hin; exact (or_iff_left_of_imp fun h => h ▸ hin).symm
    · rw [mem_append, mem_singleton]

theorem listMatches_unionValues {ret inc : List α} {value : Option α} :
    listMatches (unionValues ret inc) value = true ↔
      listMatches ret value = true ∨ listMatches inc value = true := by
  simp only [listMatches_iff, unionValues, List.isEmpty_iff]
  by_cases hi : inc = []
  · simp [hi]
  by_cases hr : ret = []
  · simp [hi, hr]
  rw [if_neg hi, if_neg hr]
  have hne : extendUnique ret inc ≠ [] := by
    obtain ⟨head, _, rfl⟩ := List.exists_cons_of_ne_nil hr
    exact List.ne_nil_of_mem (mem_extendUnique.2 (.inl (List.mem_cons_self (a := head))))
  simp only [hi, hr, hne, false_or, mem_extendUnique, or_and_right, exists_or]

variable [Ord α] [Std.TransOrd α] [Std.LawfulEqOrd α]

theorem unionValues_covers (ret inc : List α) : listCovers (unionValues ret inc)
    ret = true ∧ listCovers (unionValues ret inc) inc = true := by
  simp only [listCovers_iff, unionValues, List.isEmpty_iff]
  by_cases hi : inc = []
  · simp [hi]
  by_cases hr : ret = []
  · simp [hi, hr]
  rw [if_neg hi, if_neg hr]
  exact ⟨.inr ⟨hr, fun v hv => mem_extendUnique.2 (.inl hv)⟩,
    .inr ⟨hi, fun v hv => mem_extendUnique.2 (.inr hv)⟩⟩

end Lists

def OfferedAt (filters : List TopicFilter) (position : UInt8) (value : Topic) : Prop :=
  ∃ topic ∈ filters, topic.position = position ∧ value ∈ topic.alternatives

def unionTopics (retained incoming : List TopicFilter) : List TopicFilter :=
  (retained.filter fun topic => incoming.any (·.position = topic.position)).map fun topic =>
    { topic with
      alternatives := (incoming.filter (·.position = topic.position)).foldl (fun alternatives other =>
        extendUnique alternatives other.alternatives) topic.alternatives }

variable {value : Topic}

theorem mem_foldl_extendUnique {others : List TopicFilter} : ∀ {alternatives : List Topic},
      value ∈ others.foldl (fun list other => extendUnique list other.alternatives) alternatives ↔
        value ∈ alternatives ∨ ∃ other ∈ others, value ∈ other.alternatives := by
  induction others with
  | nil => intro alternatives; simp
  | cons other others ih =>
    intro alternatives; rw [foldl_cons, ih, mem_extendUnique, or_assoc, exists_mem_cons_iff]

variable {retained incoming : List TopicFilter}

theorem mem_unionTopics {topic : TopicFilter} :
    topic ∈ unionTopics retained incoming → ∃ src ∈ retained, topic.position =
    src.position ∧ ConstrainsAt incoming src.position ∧ ∀ value, value ∈ topic.alternatives ↔
    value ∈ src.alternatives ∨ OfferedAt incoming src.position value := by
  rw [unionTopics, mem_map]
  rintro ⟨src, hsrc, rfl⟩
  rw [mem_filter, any_eq_true] at hsrc
  obtain ⟨hmem, other, hother, hpos⟩ := hsrc
  refine ⟨src, hmem, rfl, ⟨other, hother, of_decide_eq_true hpos⟩, fun value => ?_⟩
  rw [mem_foldl_extendUnique]; simp only [mem_filter, decide_eq_true_iff, and_assoc, OfferedAt]

theorem exists_mem_unionTopics {src : TopicFilter} (h : src ∈ retained)
    (hc : ConstrainsAt incoming src.position) : ∃ topic ∈ unionTopics retained incoming,
    topic.position = src.position ∧ ∀ value, value ∈ topic.alternatives ↔
    value ∈ src.alternatives ∨ OfferedAt incoming src.position value := by
  obtain ⟨other, hother, hpos⟩ := hc
  refine ⟨_, mem_map_of_mem (mem_filter.2 ⟨h, ?_⟩), rfl, fun value => ?_⟩
  · exact any_eq_true.2 ⟨other, hother, decide_eq_true hpos⟩
  · rw [mem_foldl_extendUnique]; simp only [mem_filter, decide_eq_true_iff, and_assoc, OfferedAt]

variable {position : UInt8}

theorem constrainsAt_unionTopics : ConstrainsAt (unionTopics retained incoming) position ↔
      ConstrainsAt retained position ∧ ConstrainsAt incoming position := by
  constructor
  · rintro ⟨topic, htopic, rfl⟩
    obtain ⟨src, hsrc, hpos, hconstr, -⟩ := mem_unionTopics htopic
    rw [hpos]; exact ⟨⟨src, hsrc, rfl⟩, hconstr⟩
  · rintro ⟨⟨src, hsrc, rfl⟩, hconstr⟩
    obtain ⟨topic, htopic, hpos, -⟩ := exists_mem_unionTopics hsrc hconstr
    exact ⟨topic, htopic, hpos⟩

theorem allowedAt_unionTopics (hc : ConstrainsAt incoming position) :
    AllowedAt (unionTopics retained incoming) position value ↔
      AllowedAt retained position value ∨ OfferedAt incoming position value := by
  constructor
  · intro h
    by_cases hoffered : OfferedAt incoming position value
    · exact .inr hoffered
    · refine .inl fun src hsrc hpos => ?_
      rw [← hpos] at hc hoffered
      obtain ⟨topic, htopic, hat, hmem⟩ := exists_mem_unionTopics hsrc hc
      have hin := (hmem value).1 (h topic htopic (hat.trans hpos)); exact hin.resolve_right hoffered
  · intro h topic htopic hpos
    obtain ⟨src, hsrc, hat, -, hmem⟩ := mem_unionTopics htopic
    rw [hmem, ← hat, hpos]
    exact h.imp_left fun hallowed => hallowed src hsrc (hat.symm.trans hpos)

theorem unionTopics_covers (ret inc : List TopicFilter) : topicsCover (unionTopics ret inc)
    ret = true ∧ topicsCover (unionTopics ret inc) inc = true := by
  simp only [topicsCover_iff]
  constructor
  · intro topic htopic
    obtain ⟨src, hsrc, hpos, -, hmem⟩ := mem_unionTopics htopic
    refine ⟨⟨src, hsrc, hpos.symm⟩, fun value hallowed => ?_⟩
    exact (hmem value).2 (.inl (hallowed src hsrc hpos.symm))
  · intro topic htopic
    obtain ⟨src, hsrc, hpos, ⟨other, hother, hat⟩, hmem⟩ := mem_unionTopics htopic
    rw [hpos]
    refine ⟨⟨other, hother, hat⟩, fun value hallowed => ?_⟩
    exact (hmem value).2 (.inr ⟨other, hother, hat, hallowed other hother hat⟩)

def unionRange (retained incoming : Option BlockRange) : Option BlockRange :=
  match retained, incoming with
  | some retained, some incoming =>
    BlockRange.new? (min retained.start incoming.start) (max retained.last incoming.last)
  | _, _ => none

theorem unionRange_some (ret inc : BlockRange) :
    ∃ hull, unionRange (some ret) (some inc) = some hull ∧
    hull.start = min ret.start inc.start ∧ hull.last = max ret.last inc.last := by
  have hbounds : min ret.start inc.start ≤ max ret.last inc.last ∧
      max ret.last inc.last ≤ u64Max :=
    ⟨(Nat.min_le_left _ _).trans (ret.start_le_last.trans (Nat.le_max_left _ _)),
      Nat.max_le.2 ⟨ret.last_le, inc.last_le⟩⟩
  exact ⟨_, dif_pos hbounds, rfl, rfl⟩

def ReachesDown (range : Option BlockRange) (block : Nat) : Prop :=
  ∀ r, range = some r → r.start ≤ block

def ReachesUp (range : Option BlockRange) (block : Nat) : Prop :=
  ∀ r, range = some r → block ≤ r.last

variable {block : Nat}

theorem reachesDown_unionRange {ret inc : Option BlockRange} :
    ReachesDown (unionRange ret inc) block ↔ ReachesDown ret block ∨ ReachesDown inc block := by
  cases ret with
  | none => simp [ReachesDown, unionRange]
  | some r =>
    cases inc with
    | none => simp [ReachesDown, unionRange]
    | some i =>
      obtain ⟨_, hhull, hstart, -⟩ := unionRange_some r i; simp [ReachesDown, hhull, hstart]

theorem reachesUp_unionRange {ret inc : Option BlockRange} :
    ReachesUp (unionRange ret inc) block ↔ ReachesUp ret block ∨ ReachesUp inc block := by
  cases ret with
  | none => simp [ReachesUp, unionRange]
  | some r =>
    cases inc with
    | none => simp [ReachesUp, unionRange]
    | some i =>
      obtain ⟨_, hhull, -, hlast⟩ := unionRange_some r i; simp [ReachesUp, hhull, hlast]

/-- `union_filter_scope`: widen `retained` so it also covers what `incoming` matches. -/
def unionFilterScope (retained incoming : FilterScope) : FilterScope where
  blockRange := unionRange retained.blockRange incoming.blockRange
  addresses := unionValues retained.addresses incoming.addresses
  topics := unionTopics retained.topics incoming.topics
  transactionHashes := unionValues retained.transactionHashes incoming.transactionHashes
  transactionTypes := unionValues retained.transactionTypes incoming.transactionTypes
  senders := unionValues retained.senders incoming.senders
  recipients := unionValues retained.recipients incoming.recipients

def coveringFilterScope : List FilterScope → FilterScope
  | [] => .wildcard
  | first :: filters => filters.foldl unionFilterScope first

theorem unionFilterScope_covers (ret inc : FilterScope) :
    (unionFilterScope ret inc).covers ret = true ∧
      (unionFilterScope ret inc).covers inc = true := by
  have hrng : ∀ range, (unionFilterScope ret inc).blockRange = some range →
      ∃ r i, ret.blockRange = some r ∧ inc.blockRange = some i ∧
        range.start = min r.start i.start ∧ range.last = max r.last i.last := by
    intro range h
    rw [unionFilterScope] at h
    cases hr : ret.blockRange with
    | none => rw [hr] at h; cases h
    | some r =>
      cases hi : inc.blockRange with
      | none => rw [hr, hi] at h; cases h
      | some i =>
        obtain ⟨_, hhull, hstart, hlast⟩ := unionRange_some r i
        rw [hr, hi, hhull, Option.some.injEq] at h; exact ⟨r, i, rfl, rfl, h ▸ hstart, h ▸ hlast⟩
  simp only [covers_iff, coversValues_iff]
  constructor
  · refine ⟨fun range h => ?_, (unionValues_covers _ _).1, (unionTopics_covers _ _).1,
      (unionValues_covers _ _).1, (unionValues_covers _ _).1, (unionValues_covers _ _).1,
      (unionValues_covers _ _).1⟩
    obtain ⟨r, i, hr, -, hstart, hlast⟩ := hrng range h
    exact ⟨r, hr, hstart ▸ Nat.min_le_left _ _, hlast ▸ Nat.le_max_left _ _⟩
  · refine ⟨fun range h => ?_, (unionValues_covers _ _).2, (unionTopics_covers _ _).2,
      (unionValues_covers _ _).2, (unionValues_covers _ _).2, (unionValues_covers _ _).2,
      (unionValues_covers _ _).2⟩
    obtain ⟨r, i, -, hi, hstart, hlast⟩ := hrng range h
    exact ⟨i, hi, hstart ▸ Nat.min_le_right _ _, hlast ▸ Nat.le_max_right _ _⟩

variable {filters : List FilterScope}

theorem foldl_unionFilterScope_covers :
    ∀ {first : FilterScope}, (filters.foldl unionFilterScope first).covers first = true ∧
      ∀ member ∈ filters, (filters.foldl unionFilterScope first).covers member = true := by
  induction filters with
  | nil => intro first; exact ⟨first.covers_refl, nofun⟩
  | cons filter filters ih =>
    intro first
    obtain ⟨hfst, hrest⟩ := @ih (unionFilterScope first filter)
    obtain ⟨hret, hincoming⟩ := unionFilterScope_covers first filter
    refine ⟨covers_trans hfst hret, fun member hmember => ?_⟩
    rcases mem_cons.1 hmember with rfl | hmember
    · exact covers_trans hfst hincoming
    · exact hrest member hmember

theorem coveringFilterScope_covers {scopes : List FilterScope} {member : FilterScope}
    (h : member ∈ scopes) : (coveringFilterScope scopes).covers member = true := by
  cases scopes with
  | nil => cases h
  | cons first filters =>
    rcases mem_cons.1 h with rfl | h
    · exact foldl_unionFilterScope_covers.1
    · exact foldl_unionFilterScope_covers.2 member h

theorem coveringFilterScope_iff {P : FilterScope → Prop}
    (hP : ∀ retained incoming, P (unionFilterScope retained incoming) ↔ P retained ∨ P incoming)
    {filters : List FilterScope} : ∀ {first : FilterScope},
      P (coveringFilterScope (first :: filters)) ↔ ∃ member ∈ first :: filters, P member := by
  induction filters with
  | nil => intro first; simp [coveringFilterScope]
  | cons filter filters ih =>
    intro first
    have hfold : coveringFilterScope (first :: filter :: filters) =
        coveringFilterScope (unionFilterScope first filter :: filters) := rfl
    rw [hfold, ih, exists_mem_cons_iff, hP, exists_mem_cons_iff, exists_mem_cons_iff, or_assoc]

variable {first first' : FilterScope} {filters' : List FilterScope}

theorem coveringFilterScope_perm {P : FilterScope → Prop}
    (hP : ∀ retained incoming, P (unionFilterScope retained incoming) ↔ P retained ∨ P incoming)
    (hperm : (first :: filters).Perm (first' :: filters')) :
    P (coveringFilterScope (first :: filters)) ↔ P (coveringFilterScope (first' :: filters')) := by
  rw [coveringFilterScope_iff hP, coveringFilterScope_iff hP]
  exact exists_congr fun _ => and_congr_left' hperm.mem_iff

theorem constrainsAt_coveringFilterScope :
    ConstrainsAt (coveringFilterScope (first :: filters)).topics position ↔
      ∀ member ∈ first :: filters, ConstrainsAt member.topics position := by
  have hopen := @coveringFilterScope_iff (fun scope => ¬ ConstrainsAt scope.topics position)
    (fun _ _ => by rw [unionFilterScope, constrainsAt_unionTopics, not_and_or]) filters first
  rw [← not_iff_not, hopen]; simp only [not_forall, exists_prop]

theorem allowedAt_coveringFilterScope : ∀ {first : FilterScope},
      (∀ member ∈ filters, ConstrainsAt member.topics position) →
      (AllowedAt (coveringFilterScope (first :: filters)).topics position value ↔
        AllowedAt first.topics position value ∨
          ∃ member ∈ filters, OfferedAt member.topics position value) := by
  induction filters with
  | nil => intro first _; simp [coveringFilterScope]
  | cons filter filters ih =>
    intro first hconstr
    rw [forall_mem_cons] at hconstr
    have hfold : coveringFilterScope (first :: filter :: filters) =
        coveringFilterScope (unionFilterScope first filter :: filters) := rfl
    have hunion : AllowedAt (unionFilterScope first filter).topics position value ↔ _ :=
      allowedAt_unionTopics hconstr.1
    rw [hfold, ih hconstr.2, hunion, exists_mem_cons_iff, or_assoc]

def UniformAt (filters : List TopicFilter) (position : UInt8) : Prop :=
  ∀ value, OfferedAt filters position value → AllowedAt filters position value

theorem allowedAt_coveringFilterScope_of_uniform (hconstr : ∀ member ∈ first :: filters,
    ConstrainsAt member.topics position) (huniform : UniformAt first.topics position) :
    AllowedAt (coveringFilterScope (first :: filters)).topics position value ↔
    ∃ member ∈ first :: filters, OfferedAt member.topics position value := by
  rw [forall_mem_cons] at hconstr
  rw [allowedAt_coveringFilterScope hconstr.2, exists_mem_cons_iff]
  refine or_congr_left ⟨fun hallowed => ?_, huniform value⟩
  obtain ⟨topic, htopic, hpos⟩ := hconstr.1; exact ⟨topic, htopic, hpos, hallowed topic htopic hpos⟩

structure SameMatches (scope scope' : FilterScope) : Prop where
  block : ∀ block, scope.matchesBlock block = true ↔ scope'.matchesBlock block = true
  item : ∀ item, scope.matchesItem item = true ↔ scope'.matchesItem item = true

theorem matchesBlock_iff_reaches {scope : FilterScope} : scope.matchesBlock block = true ↔
      ReachesDown scope.blockRange block ∧ ReachesUp scope.blockRange block := by
  rw [matchesBlock_iff]
  exact ⟨fun h => ⟨fun r hr => (h r hr).1, fun r hr => (h r hr).2⟩,
    fun h r hr => ⟨h.1 r hr, h.2 r hr⟩⟩

theorem sameMatches_of_perm (hperm : (first :: filters).Perm (first' :: filters'))
    (htopics : ∀ position value, (∀ member ∈ first :: filters, ConstrainsAt member.topics position) →
      (AllowedAt (coveringFilterScope (first :: filters)).topics position value ↔
        AllowedAt (coveringFilterScope (first' :: filters')).topics position value)) :
    SameMatches (coveringFilterScope (first :: filters))
      (coveringFilterScope (first' :: filters')) := by
  constructor
  · intro block
    rw [matchesBlock_iff_reaches, matchesBlock_iff_reaches]
    refine and_congr ?_ ?_
    · exact coveringFilterScope_perm (P := fun scope => ReachesDown scope.blockRange block)
        (fun _ _ => reachesDown_unionRange) hperm
    · exact coveringFilterScope_perm (P := fun scope => ReachesUp scope.blockRange block)
        (fun _ _ => reachesUp_unionRange) hperm
  · have haddrs (value : Option Address) := coveringFilterScope_perm (P := fun scope =>
      listMatches scope.addresses value = true) (fun _ _ => listMatches_unionValues) hperm
    have hhashes (value : Option TransactionHash) := coveringFilterScope_perm (P := fun scope =>
      listMatches scope.transactionHashes value = true) (fun _ _ => listMatches_unionValues) hperm
    have htypes (value : Option UInt8) := coveringFilterScope_perm (P := fun scope =>
      listMatches scope.transactionTypes value = true) (fun _ _ => listMatches_unionValues) hperm
    have hsenders (value : Option Address) := coveringFilterScope_perm (P :=
      fun scope => listMatches scope.senders value = true) (fun _ _ => listMatches_unionValues) hperm
    have hrecips (value : Option Address) := coveringFilterScope_perm (P := fun scope =>
      listMatches scope.recipients value = true) (fun _ _ => listMatches_unionValues) hperm
    intro item
    cases item with
    | transaction transactionType recipient hash =>
      simp only [matchesItem, matchesTransaction_iff]
      exact and_congr (htypes _) (and_congr (hrecips _) (hhashes _))
    | transactionHash hash => exact hhashes _
    | sender sender => exact hsenders _
    | log address topics =>
      simp only [matchesItem, matchesLog_iff]
      refine and_congr (haddrs _) (forall_congr' fun position => ?_)
      rw [constrainsAt_coveringFilterScope, constrainsAt_coveringFilterScope]
      have hall : (∀ member ∈ first' :: filters', ConstrainsAt member.topics position) ↔
          ∀ member ∈ first :: filters, ConstrainsAt member.topics position :=
        forall_congr' fun member => imp_congr_left hperm.mem_iff.symm
      rw [hall]
      exact forall_congr' fun hconstr =>
        exists_congr fun value => and_congr_right fun _ => htopics position value hconstr
    | logAddress address => exact haddrs _

def SharedAt (scopes : List FilterScope) (position : UInt8) : Prop :=
  ∀ scope ∈ scopes, ConstrainsAt scope.topics position

/-- A combined scope covers its members, and matches what some member matches; which items it
matches depends on the order only through the first member, and through it only at a position that
all members constrain and the first one by filters with different topics. -/
structure CombinedScope : Prop where
  covers : ∀ (scopes : List FilterScope), ∀ member ∈ scopes,
    (coveringFilterScope scopes).covers member = true
  matchesAt : ∀ (scopes : List FilterScope), ∀ member ∈ scopes, ∀ (block : Nat) (item : Item),
    member.matchesAt block item = true → (coveringFilterScope scopes).matchesAt block item = true
  order : ∀ (first first' : FilterScope) (filters filters' : List FilterScope),
    (first :: filters).Perm (first' :: filters') →
    (first = first' ∨ ∀ position, SharedAt (first :: filters) position →
      UniformAt first.topics position ∧ UniformAt first'.topics position) →
    SameMatches (coveringFilterScope (first :: filters)) (coveringFilterScope (first' :: filters'))

theorem combined_scope : CombinedScope where
  covers _ _ h := coveringFilterScope_covers h
  matchesAt _ _ h _ _ hm := matchesAt_of_covers (coveringFilterScope_covers h) hm
  order first first' filters filters' hperm hfirst := by
    refine sameMatches_of_perm hperm fun position _ hshared => ?_
    have hshared' : SharedAt (first' :: filters') position :=
      fun member hmember => hshared member (hperm.mem_iff.2 hmember)
    rcases hfirst with rfl | huniform
    · rw [allowedAt_coveringFilterScope (forall_mem_cons.1 hshared).2,
        allowedAt_coveringFilterScope (forall_mem_cons.1 hshared').2]
      exact or_congr_right (exists_congr fun _ => and_congr_left' (List.Perm.cons_inv hperm).mem_iff)
    · obtain ⟨h, h'⟩ := huniform position hshared
      rw [allowedAt_coveringFilterScope_of_uniform hshared h,
        allowedAt_coveringFilterScope_of_uniform hshared' h']
      exact exists_congr fun _ => and_congr_left' hperm.mem_iff

def twiceAtZero : FilterScope :=
  { FilterScope.wildcard with
    topics := [⟨0, [.replicate 32 1, .replicate 32 2]⟩, ⟨0, [.replicate 32 1, .replicate 32 3]⟩] }

def onceAtZero : FilterScope :=
  { FilterScope.wildcard with topics := [⟨0, [.replicate 32 4]⟩] }

/-- A log with a topic that only one of the two filters allows matches the combined scope in one
order of the members and not in the other. -/
theorem coveringFilterScope_order_matters :
    [twiceAtZero, onceAtZero].Perm [onceAtZero, twiceAtZero] ∧
    ¬ SameMatches (coveringFilterScope [twiceAtZero, onceAtZero])
      (coveringFilterScope [onceAtZero, twiceAtZero]) := by
  refine ⟨List.Perm.swap _ _ _, fun h => ?_⟩
  have hitem := h.item (.log (.replicate 20 0) [replicate 32 2])
  revert hitem
  decide +kernel

end Leani.Filtering
