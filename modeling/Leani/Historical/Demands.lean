import Leani.Primitives
import Mathlib.Logic.Relation

/-!
# From demands to one physical read

Demands that touch are read as one range, and a range is grown to what its source reads efficiently.
The overfetch bound, the result of a floating-point product, is a parameter, and a request is its
range: its other fields are handed on.
-/

namespace Leani.Historical

def touches (range target : BlockRange) : Bool :=
  range.start ≤ satAdd target.last 1 && target.start ≤ satAdd range.last 1

def hull (a b : BlockRange) : BlockRange where
  start := min a.start b.start
  last := max a.last b.last
  start_le_last := (Nat.min_le_left ..).trans (a.start_le_last.trans (Nat.le_max_left ..))
  last_le := Nat.max_le.2 ⟨a.last_le, b.last_le⟩

def absorb (target range : BlockRange) : BlockRange :=
  if touches range target then hull target range else target

variable {ranges : List BlockRange} {target range b : BlockRange}

def room (range : BlockRange) : Nat := range.start + (u64Max - range.last)

theorem absorb_room (tgt range : BlockRange) :
    absorb tgt range = tgt ∨ room (absorb tgt range) < room tgt := by
  have := range.last_le
  unfold absorb
  split
  · rw [BlockRange.ext_iff]; simp only [hull, room]; omega
  · exact .inl rfl

theorem foldl_absorb_room : ∀ {tgt : BlockRange}, ranges.foldl absorb tgt = tgt ∨
    room (ranges.foldl absorb tgt) < room tgt := by
  induction ranges with
  | nil => exact .inl rfl
  | cons range ranges ih =>
    intro tgt
    rw [List.foldl_cons]
    rcases absorb_room tgt range with h | h
    · rw [h]; exact ih
    · rcases @ih (absorb tgt range) with h' | h'
      · rw [h']; exact .inr h
      · exact .inr (h'.trans h)

def pass (ranges : List BlockRange) (target : BlockRange) : BlockRange := ranges.foldl absorb target

def connectedDemandRange (ranges : List BlockRange) (target : BlockRange) : BlockRange :=
  -- A pass only grows the range, so it changed nothing when it ends where it began.
  if pass ranges target = target then target else connectedDemandRange ranges (pass ranges target)
termination_by room target
decreasing_by exact foldl_absorb_room.resolve_left ‹_›

def Touching (a b : BlockRange) : Prop := b.start ≤ a.last + 1 ∧ a.start ≤ b.last + 1

/-- A chain of overlapping or adjacent demands leads from the target to the range. -/
def Connected (ranges : List BlockRange) : BlockRange → BlockRange → Prop :=
  Relation.ReflTransGen fun a b => b ∈ ranges ∧ Touching a b

theorem touches_iff : touches b range = true ↔ Touching range b := by
  have := range.last_le
  have := range.start_le_last
  have := b.last_le
  have := b.start_le_last
  rw [touches, Bool.and_eq_true, decide_eq_true_iff, decide_eq_true_iff]
  simp only [Touching, satAdd]; omega

/-- What the target has grown to ends where connected demands end, and what touches it touches one. -/
structure Grown (ranges : List BlockRange) (target range : BlockRange) : Prop where
  start : ∃ r, Connected ranges target r ∧ r.start = range.start
  last : ∃ r, Connected ranges target r ∧ r.last = range.last
  target_le : range.start ≤ target.start ∧ target.last ≤ range.last
  touching : ∀ b, Touching range b → ∃ r, Connected ranges target r ∧ Touching r b

theorem Grown.absorb (h : Grown ranges target range) (hb : b ∈ ranges) :
    Grown ranges target (absorb range b) := by
  unfold Historical.absorb
  split
  · rename_i htouch
    have htouch := touches_iff.1 htouch
    obtain ⟨_, hc, hcb⟩ := h.touching b htouch
    have hconnected := hc.tail ⟨hb, hcb⟩
    obtain ⟨s, hs, _⟩ := h.start
    obtain ⟨l, hl, _⟩ := h.last
    have hle := h.target_le
    refine ⟨?_, ?_, by simp only [hull]; omega, fun a _ => ?_⟩
    · rcases Nat.le_total range.start b.start with hle | hle
      · exact ⟨s, hs, by simp only [hull]; omega⟩
      · exact ⟨b, hconnected, by simp only [hull]; omega⟩
    · rcases Nat.le_total range.last b.last with hle | hle
      · exact ⟨b, hconnected, by simp only [hull]; omega⟩
      · exact ⟨l, hl, by simp only [hull]; omega⟩
    · by_cases hrng : Touching range a
      · exact h.touching a hrng
      · refine ⟨b, hconnected, ?_⟩
        have := a.start_le_last
        have := b.start_le_last; simp only [Touching, hull] at *; omega
  · exact h

theorem Grown.foldl {rest : List BlockRange} (hsub : rest ⊆ ranges) :
    ∀ {range : BlockRange}, Grown ranges target range →
      Grown ranges target (rest.foldl Historical.absorb range) := by
  induction rest with
  | nil => exact id
  | cons b rest ih =>
    intro range h
    obtain ⟨hb, hrest⟩ := List.cons_subset.1 hsub; exact ih hrest (h.absorb hb)

theorem absorb_of_foldl (h : ranges.foldl absorb target = target) :
    ∀ b ∈ ranges, absorb target b = target := by
  induction ranges with
  | nil => exact nofun
  | cons range ranges ih =>
    rw [List.foldl_cons] at h
    have hfst : absorb target range = target := by
      refine (absorb_room target range).resolve_right fun hlt => ?_
      rcases @foldl_absorb_room ranges (absorb target range) with h' | h'
      · rw [← h', h] at hlt; exact Nat.lt_irrefl _ hlt
      · rw [h] at h'; exact Nat.lt_asymm h' hlt
    rw [hfst] at h; exact List.forall_mem_cons.2 ⟨hfst, ih h⟩

theorem grown_connectedDemandRange : ∀ {range : BlockRange}, Grown ranges target range →
    Grown ranges target (connectedDemandRange ranges range) ∧
      ∀ b ∈ ranges, absorb (connectedDemandRange ranges range) b = connectedDemandRange ranges range := by
  intro range h
  induction range using connectedDemandRange.induct ranges with
  | case1 range hsame =>
    rw [connectedDemandRange, if_pos hsame]; exact ⟨h, absorb_of_foldl hsame⟩
  | case2 range hchanged ih =>
    rw [connectedDemandRange, if_neg hchanged]
    exact ih (h.foldl (List.Subset.refl _))

/-- The result is the hull of the demands that are connected to the target. -/
def IsHull (ranges : List BlockRange) (target range : BlockRange) : Prop :=
  (∀ r, Connected ranges target r → range.start ≤ r.start ∧ r.last ≤ range.last) ∧
    (∃ r, Connected ranges target r ∧ r.start = range.start) ∧
      ∃ r, Connected ranges target r ∧ r.last = range.last

theorem connectedDemandRange_isHull : IsHull ranges target (connectedDemandRange ranges target) := by
  obtain ⟨hgrown, hclosed⟩ := @grown_connectedDemandRange ranges target target
    ⟨⟨_, .refl, rfl⟩, ⟨_, .refl, rfl⟩, ⟨le_rfl, le_rfl⟩, fun b hb => ⟨_, .refl, hb⟩⟩
  refine ⟨fun _ hr => ?_, hgrown.start, hgrown.last⟩
  induction hr with
  | refl => exact hgrown.target_le
  | @tail a b _ hstep ih =>
    -- What touches a range inside the result touches the result, which absorbed it.
    obtain ⟨hb, htouch⟩ := hstep
    have hsame := hclosed b hb
    rw [absorb, if_pos (touches_iff.2 ⟨htouch.1.trans (Nat.add_le_add_right ih.2 1),
      ih.1.trans htouch.2⟩), BlockRange.ext_iff] at hsame
    simp only [hull] at hsame; omega

theorem IsHull.unique {ranges' : List BlockRange} {target' range' : BlockRange}
    (h : IsHull ranges target range) (h' : IsHull ranges' target' range')
    (hsame : ∀ r, Connected ranges target r ↔ Connected ranges' target' r) : range = range' := by
  obtain ⟨hle, ⟨s, hs, _⟩, l, hl, _⟩ := h
  obtain ⟨hle', ⟨s', hs', _⟩, l', hl', _⟩ := h'
  have := hle' s ((hsame s).1 hs)
  have := hle' l ((hsame l).1 hl)
  have := hle s' ((hsame s').2 hs')
  have := hle l' ((hsame l').2 hl'); exact BlockRange.ext_iff.2 (by omega)

theorem Connected.reverse (htarget : target ∈ ranges) (h : Connected ranges target b) :
    b ∈ ranges ∧ Connected ranges b target := by
  induction h with
  | refl => exact ⟨htarget, .refl⟩
  | tail _ hstep ih => exact ⟨hstep.1, .head ⟨ih.1, hstep.2.2, hstep.2.1⟩ ih.2⟩

/-- The loop ends with the hull of the demands connected to the target, in whatever order the demands
are, and two demands that are connected get the same range. -/
theorem connected_demands (ranges : List BlockRange) (target : BlockRange) :
    IsHull ranges target (connectedDemandRange ranges target) ∧
    (∀ ranges', ranges.Perm ranges' →
      connectedDemandRange ranges' target = connectedDemandRange ranges target) ∧
    ∀ target', target ∈ ranges → Connected ranges target target' →
      connectedDemandRange ranges target' = connectedDemandRange ranges target := by
  refine ⟨connectedDemandRange_isHull, fun ranges' hperm => ?_, fun target' htarget h => ?_⟩
  · refine connectedDemandRange_isHull.unique connectedDemandRange_isHull fun r => ?_
    simp only [Connected, hperm.mem_iff]
  · exact connectedDemandRange_isHull.unique connectedDemandRange_isHull fun r =>
      ⟨h.trans, (h.reverse htarget).2.trans⟩

inductive CoordinatorMode where
  | observe
  | enabled
  deriving DecidableEq

structure CoordinatorConfig where
  mode : CoordinatorMode
  minimumPhysicalChunkBlocks : Nat
  -- The floor of the number of blocks times the configured ratio.
  ratioBound : Nat → Nat

structure HistorySource where
  range : Option BlockRange
  minimumEfficientBlocks : Option Nat

def rangeLen (range : BlockRange) : Nat := satAdd (range.last - range.start) 1

section

variable (config : CoordinatorConfig) (source : HistorySource) (request : BlockRange) (maxFrames : Nat)

def frameBound : Nat :=
  min (config.ratioBound (rangeLen request)) (max maxFrames (rangeLen request))

def targetBlocks : Nat :=
  min (max (source.minimumEfficientBlocks.getD 1) config.minimumPhysicalChunkBlocks)
    (frameBound config request maxFrames)

def alignedStart (target : Nat) : Nat := satMul (request.start / target) target

def alignedEnd (target : Nat) : Nat := satMul (satAdd (request.last / target) 1) target - 1

def alignedRange (available : BlockRange) (target : Nat) : Option BlockRange :=
  let start := alignedStart request target
  let last := alignedEnd request target
  if available.start ≤ start ∧ last ≤ available.last ∧
      satAdd (last - start) 1 ≤ frameBound config request maxFrames then
    BlockRange.new? start last
  else
    none

def grownRange (available : BlockRange) (target : Nat) : BlockRange :=
  let extra := target - rangeLen request
  let forward := min (available.last - request.last) extra
  let backward := min (request.start - available.start) (extra - forward)
  (BlockRange.new? (request.start - backward) (satAdd request.last forward)).getD request

def physicalRequest : BlockRange :=
  if config.mode = .observe then request
  else
    match source.range with
    | none => request
    | some available =>
      let target := targetBlocks config source request maxFrames
      if target ≤ rangeLen request then request
      else
        (alignedRange config request maxFrames available target).getD
          (grownRange request available target)

/-- What a physical range promises its logical range. -/
structure Serves (physical : BlockRange) : Prop where
  contained : physical.start ≤ request.start ∧ request.last ≤ physical.last
  inside : ∀ b, physical.contains b → request.contains b ∨ ∃ a ∈ source.range, a.contains b
  bounded : physical.last - physical.start + 1 ≤ max (request.last - request.start + 1)
    (min (config.ratioBound (rangeLen request)) maxFrames)

/-- The last block is requested and the aligned range is taken, which ends one block before it. -/
def MissesTop (available : BlockRange) (start : Nat) : Prop :=
  request.last = u64Max ∧ available.start ≤ start ∧ u64Max ≤ available.last + 1 ∧
    start < u64Max ∧ u64Max - start ≤ frameBound config request maxFrames

/-- A request that grows touches what is available, and the growth keeps its last block. -/
def GrowsSafely : Prop :=
  config.mode = .enabled → ∀ available ∈ source.range,
    let target := targetBlocks config source request maxFrames
    rangeLen request < target → Touching available request ∧
      ¬ MissesTop config request maxFrames available (request.start / target * target)

end

variable {config : CoordinatorConfig} {source : HistorySource} {request available : BlockRange}
  {maxFrames target : Nat}

theorem serves_refl : Serves config source request maxFrames request :=
  ⟨⟨le_rfl, le_rfl⟩, fun _ => .inl, le_max_left ..⟩

theorem alignedStart_eq : alignedStart request target = request.start / target * target :=
  Nat.min_eq_left ((Nat.div_mul_le_self ..).trans (request.start_le_last.trans request.last_le))

theorem alignedEnd_eq (h : 1 < target) : alignedEnd request target < u64Max ∧
    (request.last < u64Max ∧ request.last ≤ alignedEnd request target ∨
      request.last = u64Max ∧ alignedEnd request target + 1 = u64Max) := by
  have hle := request.last_le
  have hpos : 0 < u64Max := by decide
  have hfloor := Nat.lt_div_mul_add (Nat.zero_lt_of_lt h) (a := request.last)
  have hquot : request.last / target * 2 ≤ request.last :=
    (Nat.mul_le_mul_left _ h).trans (Nat.div_mul_le_self ..)
  rw [← Nat.succ_mul] at hfloor
  rw [alignedEnd, satAdd_eq (by omega), satMul]
  generalize (request.last / target + 1) * target = up at *; omega

theorem grownRange_eq : ∃ forward backward,
    (grownRange request available target).start = request.start - backward ∧
    (grownRange request available target).last = request.last + forward ∧
    forward = min (available.last - request.last) (target - rangeLen request) ∧
    backward = min (request.start - available.start) (target - rangeLen request - forward) := by
  have := available.last_le
  have := request.last_le
  have := request.start_le_last
  rw [grownRange, satAdd_eq (by omega), BlockRange.new?, dif_pos (by omega)]
  exact ⟨_, _, rfl, rfl, rfl, rfl⟩

theorem serves_grownRange (hsrc : source.range = some available)
    (hlt : rangeLen request < target) (hle : target ≤ frameBound config request maxFrames) :
    Serves config source request maxFrames (grownRange request available target) ↔
      Touching available request := by
  obtain ⟨_, _, hstart, hlast, _, _⟩ :=
    @grownRange_eq request available target
  have := available.start_le_last
  have := available.last_le
  have := request.start_le_last
  have := request.last_le
  constructor
  · intro h
    by_contra hapart
    -- A block of the gap next to the request is read, and is available in no range.
    have hbeside (b : Nat) (hb : b = request.last + 1 ∨ b = request.start - 1) := h.inside b
    simp only [BlockRange.contains_iff, hstart, hlast, hsrc, Option.mem_def, Option.some.injEq,
      exists_eq_left'] at hbeside
    have := hbeside _ (.inl rfl)
    have := hbeside _ (.inr rfl)
    unfold Touching at hapart; omega
  · rintro ⟨_, _⟩
    refine ⟨⟨by omega, by omega⟩, fun b hb => ?_, ?_⟩
    · simp only [BlockRange.contains_iff, hstart, hlast, hsrc, Option.mem_def,
        Option.some.injEq, exists_eq_left'] at hb ⊢
      omega
    · simp only [frameBound, rangeLen, satAdd] at *; omega

theorem alignedRange_eq_some {physical : BlockRange} :
    alignedRange config request maxFrames available target = some physical ↔
      physical.start = request.start / target * target ∧ physical.last = alignedEnd request target ∧
      available.start ≤ physical.start ∧ physical.last ≤ available.last ∧
      satAdd (physical.last - physical.start) 1 ≤ frameBound config request maxFrames := by
  rw [alignedRange, alignedStart_eq]
  constructor
  · intro h
    split at h
    · rename_i hguard
      rw [BlockRange.new?] at h
      split at h
      · cases h; exact ⟨rfl, rfl, hguard⟩
      · cases h
    · cases h
  · rintro ⟨hstart, hlast, hguard⟩
    rw [hstart, hlast] at hguard
    rw [if_pos hguard, BlockRange.new?, dif_pos (by
      rw [← hstart, ← hlast]
      exact ⟨physical.start_le_last, physical.last_le⟩), Option.some.injEq, BlockRange.ext_iff]
    exact ⟨hstart.symm, hlast.symm⟩

theorem serves_alignedRange {physical : BlockRange} (hsrc : source.range = some available)
    (htarget : 1 < target)
    (h : alignedRange config request maxFrames available target = some physical) :
    Touching available request ∧ (Serves config source request maxFrames physical ∧
        request.last < u64Max ∨ ¬ Serves config source request maxFrames physical ∧
        MissesTop config request maxFrames available (request.start / target * target)) := by
  have hfloor := Nat.div_mul_le_self request.start target
  have := request.start_le_last
  have := physical.start_le_last
  obtain ⟨hstart, _, hbelow, habove, hlen⟩ := alignedRange_eq_some.1 h
  rw [← hstart] at hfloor ⊢
  obtain ⟨_, ⟨hend, _⟩ | ⟨hend, _⟩⟩ := @alignedEnd_eq request target htarget
  · refine ⟨⟨by omega, by omega⟩, .inl ⟨⟨⟨hfloor, by omega⟩, fun _ hb => ?_, ?_⟩, hend⟩⟩
    · rw [BlockRange.contains_iff] at hb
      exact .inr ⟨available, hsrc, BlockRange.contains_iff.2 ⟨hbelow.trans hb.1, hb.2.trans habove⟩⟩
    · have hexact : rangeLen request ≤ request.last - request.start + 1 := satAdd_le ..
      rw [satAdd_eq (by omega), frameBound] at hlen; omega
  · refine ⟨⟨by omega, by omega⟩, .inr ⟨fun hserves => ?_, hend, hbelow, by omega, by omega, ?_⟩⟩
    · have := hserves.contained.2; omega
    · rw [satAdd_eq (by omega)] at hlen; omega

theorem alignedRange_of_missesTop (htarget : 1 < target)
    (h : MissesTop config request maxFrames available (request.start / target * target)) :
    alignedRange config request maxFrames available target ≠ none := by
  obtain ⟨_, hstart, _, _, _⟩ := h
  obtain ⟨_, ⟨_, -⟩ | ⟨-, _⟩⟩ := @alignedEnd_eq request target htarget
  · omega
  · have hsome := (@alignedRange_eq_some config request available maxFrames target
      ⟨request.start / target * target, alignedEnd request target, by omega, by omega⟩).2
        ⟨rfl, rfl, hstart, by dsimp only; omega, by rw [satAdd_eq (by dsimp only; omega)]; dsimp only; omega⟩
    rw [hsome]; exact nofun

/-- The physical range keeps its promises exactly for the requests whose growth is safe. -/
theorem physicalRequest_serves_iff (config : CoordinatorConfig) (source : HistorySource)
    (req : BlockRange) (maxFrames : Nat) :
    Serves config source req maxFrames (physicalRequest config source req maxFrames) ↔
      GrowsSafely config source req maxFrames := by
  unfold physicalRequest GrowsSafely
  cases hmode : config.mode with
  | observe => simp [serves_refl]
  | enabled =>
    cases hsrc : source.range with
    | none => simp [serves_refl]
    | some available =>
      simp only [reduceCtorEq, if_false, Option.mem_def, Option.some.injEq, forall_const, forall_eq']
      split
      · rename_i hle; simp [serves_refl, Nat.not_lt.2 hle]
      · rename_i hgrows
        rw [Nat.not_le] at hgrows
        have hone : 1 ≤ rangeLen req := by
          unfold rangeLen satAdd; exact le_min (by omega) (by decide)
        simp only [hgrows, forall_const]
        cases haligned : alignedRange config req maxFrames available
            (targetBlocks config source req maxFrames) with
        | some physical =>
          obtain ⟨htouch, ⟨hserves, hlast⟩ | ⟨hserves, hmiss⟩⟩ :=
            serves_alignedRange hsrc (hone.trans_lt hgrows) haligned
          · exact iff_of_true hserves ⟨htouch, fun hmiss => hlast.ne hmiss.1⟩
          · exact iff_of_false hserves fun h => h.2 hmiss
        | none =>
          rw [Option.getD_none, serves_grownRange hsrc hgrows (Nat.min_le_right ..)]
          refine ⟨fun h => ⟨h, fun hmiss => ?_⟩, And.left⟩
          exact alignedRange_of_missesTop (hone.trans_lt hgrows) hmiss haligned

/-- With a target of eight blocks the range for the very last block ends before it, and the range for
block 20 of a source that ends at block 9 takes in blocks the source does not have. -/
theorem physicalRequest_misses :
    let config : CoordinatorConfig := ⟨.enabled, 8, fun blocks => 8 * blocks⟩
    (physicalRequest config ⟨some ⟨0, u64Max, by decide, by decide⟩, none⟩
      ⟨u64Max, u64Max, by decide, by decide⟩ 8).last < u64Max ∧
    (physicalRequest config ⟨some ⟨0, 9, by decide, by decide⟩, none⟩
      ⟨20, 20, by decide, by decide⟩ 8).contains 13 = true := by
  decide

end Leani.Historical
