import Leani.Historical.Buffer
import Leani.Library.Tiling

/-!
# Opening a historical request

A request opens one physical chunk: it joins acquisitions that already read a part of it and starts
its own for the rest, from the front of the range to its end. The map of acquisitions is locked
while it does, but the acquisitions themselves are not: each look at one sees it in some state.
-/

namespace Leani.Historical

open Library List

variable {μ χ : Type}

structure SourceChunk (χ : Type) where
  range : BlockRange
  rest : χ

def intersectRanges (first second : BlockRange) : Option BlockRange :=
  BlockRange.new? (max first.start second.start) (min first.last second.last)

/-- Where a request that is not served at `cursor` could join later. -/
def Acquisition.joinableStartAfter (a : Acquisition μ) (cursor requestedEnd : Nat) : Option Nat :=
  if a.range.start ≤ cursor ∨ requestedEnd < a.range.start then none
  else if a.state.baseSequence = 0 ∧ !a.state.subscribers.isEmpty then some a.range.start
  else none

def Acquisition.hasJoinableOverlap (a : Acquisition μ) (requested : BlockRange) : Bool :=
  let start := max a.range.start requested.start
  if min a.range.last requested.last < start then false
  else a.state.baseSequence ≤ start - a.range.start && !a.state.subscribers.isEmpty

structure Subscription (μ : Type) where
  acquisition : Acquisition μ
  subscriberId : Nat
  first : Nat
  last : Nat

/-- What a turn of the loop finds: its numbers, the acquisitions in the states it tries to join
them in, and the ones it looks for a later start in. -/
structure Turn (μ : Type) where
  subscriberId : Nat
  acquisitionId : Nat
  candidates : List (Acquisition μ)
  later : List (Acquisition μ)

structure Opening (μ χ : Type) where
  subscriptions : List (Subscription μ)
  starts : List (Acquisition μ × SourceChunk χ)

def registerBest (subscriberId cursor requestedEnd : Nat) : Option (Acquisition μ × Nat) →
    List (Acquisition μ) → Option (Acquisition μ × Nat) × List (Acquisition μ)
  | joined, [] => (joined, [])
  | joined, a :: candidates =>
    match a.tryRegister subscriberId cursor requestedEnd with
    | none => registerBest subscriberId cursor requestedEnd joined candidates
    | some (a', last) =>
      if joined.all fun previous => previous.2 < last then
        let (best, left) :=
          registerBest subscriberId cursor requestedEnd (some (a', last)) candidates
        (best, (joined.map fun previous => previous.1.unregister subscriberId).toList ++ left)
      else
        let (best, left) := registerBest subscriberId cursor requestedEnd joined candidates
        (best, a'.unregister subscriberId :: left)

def nextJoinableStart (later : List (Acquisition μ)) (cursor requestedEnd : Nat) : Option Nat :=
  (later.filterMap fun a => a.joinableStartAfter cursor requestedEnd).min?

def rejected (reason : String) : SourceError := .source s!"invalid source plan: {reason}"

section Open

variable (maximumBufferedFrames : Nat)
  (sliceChunk : SourceChunk χ → BlockRange → Except SourceError (SourceChunk χ))
  (chunk : SourceChunk χ) (turns : Nat → Turn μ)

def openLoop (requestedEnd : Nat) : Nat → Nat → Nat → Option (Except SourceError (Opening μ χ))
  | 0, _, _ => none
  | fuel + 1, turn, cursor =>
    if requestedEnd < cursor then some (.ok ⟨[], []⟩)
    else
      let seen := turns turn
      match (registerBest seen.subscriberId cursor requestedEnd none seen.candidates).1 with
      | some (acquisition, last) =>
        let subscription := ⟨acquisition, seen.subscriberId, cursor, last⟩
        if last = u64Max then some (.ok ⟨[subscription], []⟩)
        else (openLoop requestedEnd fuel (turn + 1) (satAdd last 1)).map fun rest =>
          rest.map fun opening => { opening with
            subscriptions := subscription :: opening.subscriptions }
      | none =>
        let last := (nextJoinableStart seen.later cursor requestedEnd).elim requestedEnd (· - 1)
        match BlockRange.new? cursor last with
        | none => some (.error (rejected
            s!"invalid block range {cursor}..={last}: end precedes start"))
        | some range =>
          match sliceChunk chunk range with
          | .error e => some (.error e)
          | .ok physicalChunk =>
            let acquisition :=
              .new seen.acquisitionId maximumBufferedFrames range range seen.subscriberId
            let subscription := ⟨acquisition, seen.subscriberId, cursor, last⟩
            if last = u64Max then some (.ok ⟨[subscription], [(acquisition, physicalChunk)]⟩)
            else (openLoop requestedEnd fuel (turn + 1) (satAdd last 1)).map fun rest =>
              rest.map fun opening =>
                ⟨subscription :: opening.subscriptions,
                  (acquisition, physicalChunk) :: opening.starts⟩

def openAlone (turn : Turn μ) (logical : BlockRange) : Opening μ χ :=
  let acquisition :=
    .new turn.acquisitionId maximumBufferedFrames chunk.range logical turn.subscriberId
  ⟨[⟨acquisition, turn.subscriberId, logical.start, logical.last⟩], [(acquisition, chunk)]⟩

/-- `open_inner`, with what it sees of the acquisitions under its key. -/
def openInner (observe : Bool) (request : BlockRange) (entries : List (Acquisition μ))
    (fuel : Nat) : Option (Except SourceError (Opening μ χ)) :=
  match intersectRanges request chunk.range with
  | none => some (.error (rejected "physical source chunk does not intersect its logical demand"))
  | some logical =>
    if observe || !entries.any fun a => a.hasJoinableOverlap chunk.range then
      some (.ok (openAlone maximumBufferedFrames chunk (turns 0) logical))
    else
      openLoop maximumBufferedFrames sliceChunk chunk turns logical.last fuel 0 logical.start

end Open

section Turn

variable {subscriberId cursor requestedEnd : Nat}

theorem registerBest_mem {cands : List (Acquisition μ)} :
    ∀ {joined : Option (Acquisition μ × Nat)} {best : Acquisition μ × Nat},
    (registerBest subscriberId cursor requestedEnd joined cands).1 = some best →
    joined = some best ∨ ∃ a ∈ cands, a.tryRegister subscriberId cursor requestedEnd = some best := by
  induction cands with
  | nil => exact fun h => .inl h
  | cons a cands ih =>
    intro joined best h
    rw [registerBest] at h
    split at h
    · exact (ih h).imp_right fun ⟨b, hb, hr⟩ => ⟨b, mem_cons_of_mem _ hb, hr⟩
    · rename_i a' last hregister
      split at h
      · rcases ih h with hbest | ⟨b, hb, hr⟩
        · exact .inr ⟨a, mem_cons_self, hregister.trans hbest⟩
        · exact .inr ⟨b, mem_cons_of_mem _ hb, hr⟩
      · exact (ih h).imp_right fun ⟨b, hb, hr⟩ => ⟨b, mem_cons_of_mem _ hb, hr⟩

theorem nextJoinableStart_bounds {later : List (Acquisition μ)} {start : Nat}
    (h : nextJoinableStart later cursor requestedEnd = some start) :
    cursor < start ∧ start ≤ requestedEnd := by
  have hmem := (min?_eq_some_iff.1 h).1
  obtain ⟨_, -, ha⟩ := mem_filterMap.1 hmem
  unfold Acquisition.joinableStartAfter at ha
  split at ha
  · cases ha
  · split at ha
    · cases ha; omega
    · cases ha

theorem nextEnd_bounds (later : List (Acquisition μ)) (hcur : cursor ≤ requestedEnd) :
    cursor ≤ (nextJoinableStart later cursor requestedEnd).elim requestedEnd (· - 1) ∧
      (nextJoinableStart later cursor requestedEnd).elim requestedEnd (· - 1) ≤ requestedEnd := by
  cases hnext : nextJoinableStart later cursor requestedEnd with
  | none => exact ⟨hcur, le_rfl⟩
  | some start =>
    obtain ⟨_, _⟩ := nextJoinableStart_bounds hnext; simp only [Option.elim_some]; omega

end Turn

structure Subscription.Served (s : Subscription μ) : Prop where
  start_le : s.acquisition.range.start ≤ s.first
  le_last : s.last ≤ s.acquisition.range.last
  registered : s.acquisition.state.subscribers[s.subscriberId]? = some
    (.new (sequenceRange s.acquisition.range s.first s.last).1
      (sequenceRange s.acquisition.range s.first s.last).2)

structure Opening.Partitions (o : Opening μ χ) (chunk : SourceChunk χ) (first last : Nat) : Prop where
  ascending : o.subscriptions.Pairwise fun s s' => s.last < s'.first
  adjacent : o.subscriptions.IsChain fun s s' => s.last + 1 = s'.first
  covers : ∀ n, (∃ s ∈ o.subscriptions, s.first ≤ n ∧ n ≤ s.last) ↔ first ≤ n ∧ n ≤ last
  served : ∀ s ∈ o.subscriptions, s.first ≤ s.last ∧ s.Served
  started : ∀ entry ∈ o.starts, chunk.range.start ≤ entry.1.range.start ∧
    entry.1.range.last ≤ chunk.range.last ∧ ∃ s ∈ o.subscriptions, s.acquisition = entry.1 ∧
      entry.1.range.start ≤ s.first ∧ s.last ≤ entry.1.range.last

structure Opening.Opened (o : Opening μ χ) (chunk : SourceChunk χ) (cursor last : Nat) : Prop where
  tiles : Library.Tiling.Up Subscription.first Subscription.last cursor o.subscriptions (last + 1)
  served : ∀ s ∈ o.subscriptions, s.first ≤ s.last ∧ s.Served
  started : ∀ entry ∈ o.starts, chunk.range.start ≤ entry.1.range.start ∧
    entry.1.range.last ≤ chunk.range.last ∧ ∃ s ∈ o.subscriptions, s.acquisition = entry.1 ∧
      entry.1.range.start ≤ s.first ∧ s.last ≤ entry.1.range.last

theorem Opening.Opened.partitions {o : Opening μ χ} {chunk : SourceChunk χ} {first last : Nat}
    (h : o.Opened chunk first last) : o.Partitions chunk first last where
  ascending := h.tiles.pairwise
  adjacent := h.tiles.adjacent
  covers n := (h.tiles.mem_iff n).trans (and_congr_right fun _ => Nat.lt_succ_iff)
  served := h.served
  started := h.started

theorem served_new (id maximumBufferedFrames subrId : Nat) {range logical : BlockRange}
    (hstart : range.start ≤ logical.start) (hle : logical.last ≤ range.last) :
    (Subscription.mk (μ := μ) (.new id maximumBufferedFrames range logical subrId)
      subrId logical.start logical.last).Served :=
  ⟨hstart, hle, Table.getElem?_insert_self _ _ _⟩

theorem served_tryRegister {a a' : Acquisition μ} {subrId cursor reqEnd last : Nat}
    (h : a.tryRegister subrId cursor reqEnd = some (a', last)) (hcur : cursor ≤ reqEnd) :
    cursor ≤ last ∧ last ≤ reqEnd ∧ (Subscription.mk a' subrId cursor last).Served := by
  obtain ⟨hstart, _, rfl, -, rfl⟩ := tryRegister_eq_some h
  exact ⟨by omega, Nat.min_le_left _ _, hstart, Nat.min_le_right _ _,
    Table.getElem?_insert_self _ _ _⟩

section Loop

variable {maximumBufferedFrames : Nat}
  {sliceChunk : SourceChunk χ → BlockRange → Except SourceError (SourceChunk χ)}
  {chunk : SourceChunk χ} {turns : Nat → Turn μ} {requestedEnd : Nat}

variable {subscription : Subscription μ} {starts : List (Acquisition μ × SourceChunk χ)}

theorem opened_cons {o : Opening μ χ} {cursor : Nat} (hfst : subscription.first = cursor)
    (hle : cursor ≤ subscription.last) (hserv : subscription.Served)
    (hrest : o.Opened chunk (subscription.last + 1) requestedEnd) (hstarts : ∀ entry ∈ starts,
    chunk.range.start ≤ entry.1.range.start ∧ entry.1.range.last ≤ chunk.range.last ∧
    subscription.acquisition = entry.1 ∧ entry.1.range.start ≤ subscription.first ∧
    subscription.last ≤ entry.1.range.last) : Opening.Opened ⟨subscription :: o.subscriptions,
    starts ++ o.starts⟩ chunk cursor requestedEnd where
  tiles := ⟨hfst, hfst ▸ hle, hrest.tiles⟩
  served s hs := by
    rcases mem_cons.1 hs with rfl | hs
    · exact ⟨hfst ▸ hle, hserv⟩
    · exact hrest.served s hs
  started entry hentry := by
    rcases mem_append.1 hentry with hentry | hentry
    · obtain ⟨hstart, hlast, hs⟩ := hstarts entry hentry
      exact ⟨hstart, hlast, subscription, mem_cons_self, hs⟩
    · obtain ⟨hstart, hlast, s, hs, hrest⟩ := hrest.started entry hentry
      exact ⟨hstart, hlast, s, mem_cons_of_mem _ hs, hrest⟩

def Ends (sliceChunk : SourceChunk χ → BlockRange → Except SourceError (SourceChunk χ))
    (chunk : SourceChunk χ) (cursor requestedEnd : Nat) : Except SourceError (Opening μ χ) → Prop
  | .ok o => o.Opened chunk cursor requestedEnd
  | .error e => ∃ range : BlockRange, cursor ≤ range.start ∧ range.last ≤ requestedEnd ∧
    sliceChunk chunk range = .error e

theorem ends_cons {rest : Option (Except SourceError (Opening μ χ))} {cursor : Nat}
    (hfst : subscription.first = cursor) (hle : cursor ≤ subscription.last)
    (hend : subscription.last ≤ requestedEnd) (hmax : requestedEnd ≤ u64Max)
    (hserv : subscription.Served)
    (hstarts : ∀ entry ∈ starts, chunk.range.start ≤ entry.1.range.start ∧
      entry.1.range.last ≤ chunk.range.last ∧ subscription.acquisition = entry.1 ∧
        entry.1.range.start ≤ subscription.first ∧ subscription.last ≤ entry.1.range.last)
    (hrest : subscription.last ≠ u64Max → ∃ res, rest = some res ∧
      Ends sliceChunk chunk (subscription.last + 1) requestedEnd res) :
    ∃ res, (if subscription.last = u64Max then some (.ok ⟨[subscription], starts⟩)
      else rest.map fun rest => rest.map fun opening =>
        (⟨subscription :: opening.subscriptions, starts ++ opening.starts⟩ : Opening μ χ)) =
      some res ∧ Ends sliceChunk chunk cursor requestedEnd res := by
  split
  · rename_i hlast
    refine ⟨_, rfl, ?_⟩
    have hnil : Opening.Opened (⟨[], []⟩ : Opening μ χ) chunk (subscription.last + 1)
        requestedEnd :=
      ⟨by rw [Library.Tiling.Up]; omega, nofun, nofun⟩
    have hopened := opened_cons hfst hle hserv hnil hstarts; rwa [append_nil] at hopened
  · rename_i hlast
    obtain ⟨res, rfl, hends⟩ := hrest hlast
    refine ⟨_, rfl, ?_⟩
    cases res with
    | error e =>
      obtain ⟨range, _, hlast, hslice⟩ := hends; exact ⟨range, by omega, hlast, hslice⟩
    | ok o => exact opened_cons hfst hle hserv hends hstarts

theorem openLoop_ends (hchunk : requestedEnd ≤ chunk.range.last) (fuel : Nat) : ∀ {turn cursor : Nat},
    chunk.range.start ≤ cursor → cursor ≤ requestedEnd + 1 → requestedEnd + 1 - cursor < fuel →
    ∃ result, openLoop maximumBufferedFrames sliceChunk chunk turns requestedEnd fuel turn cursor =
    some result ∧ Ends sliceChunk chunk cursor requestedEnd result := by
  have hmax := hchunk.trans chunk.range.last_le
  induction fuel with
  | zero => exact fun _ _ h => absurd h (Nat.not_lt_zero _)
  | succ fuel ih =>
    intro turn cursor hstart _ _
    rw [openLoop]
    split
    · exact ⟨_, rfl, by rw [Library.Tiling.Up]; omega, nofun, nofun⟩
    · rename_i hleft
      simp only
      split
      · rename_i acquisition last hbest
        rcases registerBest_mem hbest with hnone | ⟨a, -, hregister⟩
        · cases hnone
        · obtain ⟨hle, hend, hserv⟩ := served_tryRegister hregister (Nat.not_lt.1 hleft)
          refine ends_cons rfl hle hend hmax hserv (nofun : ∀ entry ∈ [], _) fun hlast => ?_
          have hne : last ≠ u64Max := hlast
          have hsat : satAdd last 1 = last + 1 := satAdd_eq (by omega)
          rw [hsat]; exact ih (by omega) (by omega) (by omega)
      · -- Nobody serves the cursor: a new acquisition reads up to the next one that could.
        obtain ⟨hle, hend⟩ := nextEnd_bounds (turns turn).later (Nat.not_lt.1 hleft)
        generalize (nextJoinableStart (turns turn).later cursor requestedEnd).elim requestedEnd
          (· - 1) = last at hle hend ⊢
        have hrng : BlockRange.new? cursor last = some ⟨cursor, last, hle, hend.trans hmax⟩ :=
          dif_pos ⟨hle, hend.trans hmax⟩
        rw [hrng]
        dsimp only
        split
        · rename_i e hslice
          exact ⟨_, rfl, ⟨cursor, last, hle, hend.trans hmax⟩, le_rfl, hend, hslice⟩
        · rename_i physicalChunk hslice
          let range : BlockRange := ⟨cursor, last, hle, hend.trans hmax⟩
          have hserv := served_new (μ := μ) (turns turn).acquisitionId maximumBufferedFrames
            (turns turn).subscriberId (Nat.le_refl range.start) (Nat.le_refl range.last)
          refine ends_cons rfl hle hend hmax hserv (fun entry hentry => ?_) fun hlast => ?_
          · obtain rfl := mem_singleton.1 hentry
            exact ⟨hstart, hend.trans hchunk, rfl, le_rfl, le_rfl⟩
          · have hne : last ≠ u64Max := hlast
            have hsat : satAdd last 1 = last + 1 := satAdd_eq (by omega)
            rw [hsat]; exact ih (by omega) (by omega) (by omega)

end Loop

theorem intersectRanges_bounds {first second range : BlockRange} (h : intersectRanges first second =
    some range) : second.start ≤ range.start ∧ range.last ≤ second.last := by
  unfold intersectRanges BlockRange.new? at h
  split at h
  · cases h; exact ⟨Nat.le_max_right _ _, Nat.min_le_right _ _⟩
  · cases h

/-- Whatever else happens to the acquisitions while it is opened, a request within its chunk ends
with a partition of its range, unless the source refuses to slice the chunk. -/
theorem openInner_partitions (maximumBufferedFrames : Nat)
    (sliceChunk : SourceChunk χ → BlockRange → Except SourceError (SourceChunk χ))
    (chunk : SourceChunk χ) (turns : Nat → Turn μ) (observe : Bool) (request : BlockRange)
    (entries : List (Acquisition μ)) :
    (intersectRanges request chunk.range = none ∧ ∀ fuel, ∃ e,
      openInner maximumBufferedFrames sliceChunk chunk turns observe request entries fuel =
        some (.error e)) ∨
    ∃ logical, intersectRanges request chunk.range = some logical ∧ ∃ enough, ∀ fuel ≥ enough,
      (∃ o, openInner maximumBufferedFrames sliceChunk chunk turns observe request entries fuel =
        some (.ok o) ∧ o.Partitions chunk logical.start logical.last) ∨
      ∃ e, openInner maximumBufferedFrames sliceChunk chunk turns observe request entries fuel =
        some (.error e) ∧ ∃ range : BlockRange, logical.start ≤ range.start ∧
          range.last ≤ logical.last ∧ sliceChunk chunk range = .error e := by
  unfold openInner
  cases hlogical : intersectRanges request chunk.range with
  | none => exact .inl ⟨rfl, fun _ => ⟨_, rfl⟩⟩
  | some logical =>
    refine .inr ⟨logical, rfl, logical.last + 1 - logical.start + 1, fun fuel hfuel => ?_⟩
    obtain ⟨hstart, hlast⟩ := intersectRanges_bounds hlogical
    dsimp only
    split
    · refine .inl ⟨_, rfl, Opening.Opened.partitions ⟨?_, ?_, ?_⟩⟩
      · exact ⟨rfl, logical.start_le_last, rfl⟩
      · intro _ hs
        obtain rfl := mem_singleton.1 hs
        exact ⟨logical.start_le_last, served_new _ _ _ hstart hlast⟩
      · intro _ hentry
        obtain rfl := mem_singleton.1 hentry
        exact ⟨le_rfl, le_rfl, _, mem_singleton_self _, rfl, hstart, hlast⟩
    · have hle := logical.start_le_last
      obtain ⟨result, hresult, hends⟩ := openLoop_ends hlast fuel hstart (by omega) hfuel
      rw [hresult]
      cases result with
      | ok o => exact .inl ⟨o, rfl, hends.partitions⟩
      | error e => exact .inr ⟨e, rfl, hends⟩

end Leani.Historical
