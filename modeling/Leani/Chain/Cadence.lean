import Leani.Primitives
import Mathlib.Order.Monotone.Basic

/-!
# When blocks are due

A cadence has a slot every `seconds`, and from `fastFrom` on one every 200 ms. Its times saturate at
the top of the number range; below it they are sums of slot lengths.
-/

namespace Leani.Chain

structure Cadence where
  genesisTime : Nat
  seconds : Nat
  firstBlock : Option Nat
  fastFrom : Option Nat
  seconds_pos : 0 < seconds
  first_le_fast : ∀ fast ∈ fastFrom, firstBlock.getD 0 ≤ fast

namespace Cadence

variable (cadence : Cadence)

def fastSlotMs : Nat := 200

def first : Nat := cadence.firstBlock.getD 0

def legacyMs (slot : Nat) : Nat :=
  satMul (satAdd cadence.genesisTime (satMul (slot - cadence.first) cadence.seconds)) 1000

def slotStartMs (slot : Nat) : Nat :=
  match cadence.fastFrom with
  | some fast =>
    if fast < slot then satAdd (cadence.legacyMs fast) (satMul (slot - fast) fastSlotMs)
    else cadence.legacyMs slot
  | none => cadence.legacyMs slot

def slotStart (slot : Nat) : Nat := cadence.slotStartMs slot / 1000

def slotMs (slot : Nat) : Nat :=
  match cadence.fastFrom with
  | some fast => if fast ≤ slot then fastSlotMs else satMul cadence.seconds 1000
  | none => satMul cadence.seconds 1000

def legacySlotAt (timestamp : Nat) : Nat :=
  cadence.first + (timestamp - cadence.genesisTime) / cadence.seconds

def slotStartingAt (timestamp : Nat) : Option Nat :=
  if cadence.fastFrom.any (cadence.slotStart · ≤ timestamp) then none
  else if timestamp < cadence.genesisTime then none
  else if (timestamp - cadence.genesisTime) % cadence.seconds = 0 then
    some (cadence.legacySlotAt timestamp)
  else none

def slotAt (timestamp : Nat) : Nat :=
  match cadence.fastFrom with
  | some fast =>
    let start := cadence.slotStartMs fast
    let now := satMul timestamp 1000
    if start ≤ now then fast + (now - start) / fastSlotMs else cadence.legacySlotAt timestamp
  | none => cadence.legacySlotAt timestamp

def headerSlot (number timestamp : Nat) : Option Nat :=
  match cadence.firstBlock with
  | some first =>
    if first ≤ number ∧ cadence.slotStart number = timestamp then some number else none
  | none => cadence.slotStartingAt timestamp

/-- The sum of the slot lengths before a slot, counted from the first one. -/
def startMs (slot : Nat) : Nat :=
  let legacy := min slot (cadence.fastFrom.getD slot)
  (cadence.genesisTime + (legacy - cadence.first) * cadence.seconds) * 1000 +
    (slot - legacy) * fastSlotMs

theorem slotStartMs_eq_min (slot : Nat) :
    cadence.slotStartMs slot = min (cadence.startMs slot) u64Max := by
  have hlegacy (s : Nat) : cadence.legacyMs s =
      min ((cadence.genesisTime + (s - cadence.first) * cadence.seconds) * 1000) u64Max := by
    unfold legacyMs satMul satAdd; omega
  rw [slotStartMs, startMs]
  cases cadence.fastFrom with
  | none => simp [hlegacy]
  | some fast =>
    rcases Nat.lt_or_ge fast slot with hlt | hle
    · simp only [if_pos hlt, Option.getD_some, Nat.min_eq_right hlt.le, hlegacy]
      unfold satMul satAdd; omega
    · simp [if_neg hle.not_gt, hle, hlegacy]

variable {cadence} {slot timestamp : Nat}

/-- Slots follow each other without a gap, also where the interval changes. -/
theorem startMs_succ (h : cadence.first ≤ slot) : ∃ ms, 0 < ms ∧ cadence.slotMs slot = min ms u64Max ∧
    cadence.startMs (slot + 1) = cadence.startMs slot + ms := by
  have hseconds := cadence.seconds_pos
  have hfast := cadence.first_le_fast
  have hsucc : (slot + 1 - cadence.first) * cadence.seconds =
      (slot - cadence.first) * cadence.seconds + cadence.seconds := by
    rw [Nat.succ_sub h, Nat.succ_mul]
  unfold slotMs startMs
  cases hswitch : cadence.fastFrom with
  | none =>
    refine ⟨cadence.seconds * 1000, by omega, rfl, ?_⟩
    simp only [Option.getD_none, Nat.min_self, Nat.sub_self, hsucc]; omega
  | some fast =>
    rcases Nat.lt_or_ge slot fast with hlt | hle
    · refine ⟨cadence.seconds * 1000, by omega, if_neg hlt.not_ge, ?_⟩
      have hnext := Nat.min_eq_left hlt
      simp only [Option.getD_some, Nat.min_eq_left hlt.le, hnext, Nat.sub_self, hsucc]
      omega
    · refine ⟨fastSlotMs, by decide, (if_pos hle).trans (by decide), ?_⟩
      simp only [Option.getD_some, Nat.min_eq_right hle, Nat.min_eq_right (Nat.le_succ_of_le hle)]
      unfold fastSlotMs; omega

theorem startMs_lt {a b : Nat} (ha : cadence.first ≤ a) (h : a < b) :
    cadence.startMs a < cadence.startMs b := by
  induction b, h using Nat.le_induction with
  | base =>
    obtain ⟨ms, hpos, -, hsucc⟩ := startMs_succ ha
    exact (Nat.lt_add_of_pos_right hpos).trans_eq hsucc.symm
  | succ b hle ih =>
    obtain ⟨ms, hpos, -, hsucc⟩ := startMs_succ (ha.trans (Nat.le_of_lt hle))
    omega

theorem startMs_lt_iff {a b : Nat} (ha : cadence.first ≤ a) (hb : cadence.first ≤ b) :
    cadence.startMs a < cadence.startMs b ↔ a < b := by
  refine ⟨fun h => ?_, startMs_lt ha⟩
  by_contra hle
  rcases Nat.eq_or_lt_of_not_lt hle with rfl | hlt
  · exact Nat.lt_irrefl _ h
  · exact Nat.lt_asymm h (startMs_lt hb hlt)

/-- The slot starts at or before the switch, so on a whole second. -/
def ToSwitch (cadence : Cadence) (slot : Nat) : Prop := ∀ fast ∈ cadence.fastFrom, slot ≤ fast

theorem ToSwitch.startMs_eq (h : cadence.ToSwitch slot) : cadence.startMs slot =
    (cadence.genesisTime + (slot - cadence.first) * cadence.seconds) * 1000 := by
  unfold ToSwitch at h
  unfold startMs
  cases hswitch : cadence.fastFrom with
  | none => simp
  | some fast => simp [h fast hswitch]

theorem startMs_fast {fast ahead : Nat} (h : fast ∈ cadence.fastFrom) :
    cadence.startMs (fast + ahead) = cadence.startMs fast + ahead * fastSlotMs := by
  simp [startMs, Option.mem_def.1 h]

/-- Before the switch's second the legacy slot is before the switch, and its interval contains the time. -/
theorem legacySlotAt_bounds (h : ∀ fast ∈ cadence.fastFrom, 1000 * timestamp < cadence.startMs fast)
    (hgenesis : cadence.genesisTime ≤ timestamp) :
    (∀ fast ∈ cadence.fastFrom, cadence.legacySlotAt timestamp < fast) ∧
      cadence.startMs (cadence.legacySlotAt timestamp) ≤ 1000 * timestamp ∧
      1000 * timestamp < cadence.startMs (cadence.legacySlotAt timestamp + 1) := by
  have hfloor := Nat.div_mul_le_self (timestamp - cadence.genesisTime) cadence.seconds
  have hceil := Nat.lt_div_mul_add cadence.seconds_pos (a := timestamp - cadence.genesisTime)
  have hbef : ∀ fast ∈ cadence.fastFrom, cadence.legacySlotAt timestamp < fast := by
    intro fast hfast
    have hlt := h fast hfast
    have hle := cadence.first_le_fast fast hfast
    rw [ToSwitch.startMs_eq (by simp_all [ToSwitch])] at hlt
    have := (Nat.div_lt_iff_lt_mul cadence.seconds_pos).2
      (show timestamp - cadence.genesisTime < (fast - cadence.first) * cadence.seconds by
        have := Nat.mul_pos cadence.seconds_pos cadence.seconds_pos; omega)
    unfold first at *
    unfold legacySlotAt first; omega
  refine ⟨hbef, ?_⟩
  rw [ToSwitch.startMs_eq fun fast hfast => (hbef fast hfast).le,
    @ToSwitch.startMs_eq cadence (_ + 1) fun fast hfast => hbef fast hfast, legacySlotAt]
  generalize (timestamp - cadence.genesisTime) / cadence.seconds = ahead at *
  rw [Nat.add_assoc, Nat.add_sub_cancel_left, Nat.add_sub_cancel_left, Nat.add_one_mul ahead]
  omega

theorem le_slotAt : cadence.first ≤ cadence.slotAt timestamp := by
  unfold slotAt
  cases hswitch : cadence.fastFrom with
  | none => exact Nat.le_add_right ..
  | some fast =>
    dsimp only
    split
    · exact Nat.le_add_right_of_le (cadence.first_le_fast fast hswitch)
    · exact Nat.le_add_right ..

theorem slotAt_bounds (htime : 1000 * timestamp < u64Max) (hgenesis : cadence.genesisTime ≤ timestamp) :
    cadence.startMs (cadence.slotAt timestamp) ≤ 1000 * timestamp ∧
      1000 * timestamp < cadence.startMs (cadence.slotAt timestamp + 1) := by
  have hnow : satMul timestamp 1000 = 1000 * timestamp := by unfold satMul; omega
  unfold slotAt
  cases hswitch : cadence.fastFrom with
  | none => exact (legacySlotAt_bounds (by simp [hswitch]) hgenesis).2
  | some fast =>
    simp only [hnow, slotStartMs_eq_min]
    split
    · have hfloor := Nat.div_mul_le_self (1000 * timestamp - cadence.startMs fast) fastSlotMs
      have hceil := Nat.lt_div_mul_add (show 0 < fastSlotMs by decide)
        (a := 1000 * timestamp - cadence.startMs fast)
      rw [Nat.min_eq_left (by omega)]
      generalize (1000 * timestamp - cadence.startMs fast) / fastSlotMs = ahead at *
      rw [Nat.add_assoc, startMs_fast hswitch, startMs_fast hswitch, Nat.add_one_mul ahead]
      omega
    · refine (legacySlotAt_bounds (fun _ h => ?_) hgenesis).2
      cases hswitch.symm.trans h; omega

/-- The slot in progress is the one whose interval contains the time. -/
theorem slotAt_eq_iff (htime : 1000 * timestamp < u64Max) (hgenesis : cadence.genesisTime ≤ timestamp)
    (hfst : cadence.first ≤ slot) : cadence.slotAt timestamp = slot ↔
      cadence.startMs slot ≤ 1000 * timestamp ∧ 1000 * timestamp < cadence.startMs (slot + 1) := by
  obtain ⟨hle, hlt⟩ := slotAt_bounds htime hgenesis
  constructor
  · rintro rfl; exact ⟨hle, hlt⟩
  · rintro ⟨hle', hlt'⟩
    have := (startMs_lt_iff le_slotAt (Nat.le_succ_of_le hfst)).1 (hle.trans_lt hlt')
    have := (startMs_lt_iff hfst (Nat.le_succ_of_le le_slotAt)).1 (hle'.trans_lt hlt)
    omega

theorem slotAt_before_genesis (htime : 1000 * timestamp < u64Max)
    (h : timestamp < cadence.genesisTime) : cadence.slotAt timestamp = cadence.first := by
  have hlegacy : cadence.legacySlotAt timestamp = cadence.first := by
    rw [legacySlotAt, Nat.sub_eq_zero_of_le h.le, Nat.zero_div, Nat.add_zero]
  unfold slotAt
  cases hswitch : cadence.fastFrom with
  | none => exact hlegacy
  | some fast =>
    refine (if_neg fun hle => ?_).trans hlegacy
    rw [slotStartMs_eq_min, ToSwitch.startMs_eq (by simp [ToSwitch, hswitch])] at hle
    unfold satMul at hle; omega

theorem slotAt_mono {prior : Nat} (htime : 1000 * timestamp < u64Max) (h : prior ≤ timestamp) :
    cadence.slotAt prior ≤ cadence.slotAt timestamp := by
  rcases Nat.lt_or_ge prior cadence.genesisTime with hbef | hgenesis
  · rw [slotAt_before_genesis (by omega) hbef]; exact le_slotAt
  · have hle := (slotAt_bounds (by omega) hgenesis).1
    have hlt := (slotAt_bounds htime (hgenesis.trans h)).2
    exact Nat.le_of_lt_add_one ((startMs_lt_iff le_slotAt (Nat.le_succ_of_le le_slotAt)).1
      ((hle.trans (Nat.mul_le_mul_left 1000 h)).trans_lt hlt))

theorem slotStartingAt_eq_some (htime : 1000 * (timestamp + 1) ≤ u64Max) :
    cadence.slotStartingAt timestamp = some slot ↔ cadence.first ≤ slot ∧
      (∀ fast ∈ cadence.fastFrom, slot < fast) ∧ cadence.startMs slot = 1000 * timestamp := by
  have hnone : cadence.fastFrom.any (cadence.slotStart · ≤ timestamp) = true ↔
      ¬ ∀ fast ∈ cadence.fastFrom, 1000 * timestamp < cadence.startMs fast := by
    cases hswitch : cadence.fastFrom with
    | none => simp
    | some fast =>
      simp only [Option.any_some, decide_eq_true_eq, Option.mem_def, Option.some.injEq, forall_eq',
        slotStart, slotStartMs_eq_min, @ToSwitch.startMs_eq cadence fast (by simp [ToSwitch, hswitch])]
      omega
  constructor
  · intro h
    unfold slotStartingAt at h
    split at h
    · cases h
    · rename_i hbef
      rw [hnone, not_not] at hbef
      split at h
      · cases h
      · rename_i hgenesis
        split at h
        · rename_i hwhole
          cases h
          obtain ⟨hswitch, -, -⟩ := legacySlotAt_bounds hbef (Nat.not_lt.1 hgenesis)
          refine ⟨Nat.le_add_right .., hswitch, ?_⟩
          have := Nat.div_mul_cancel (Nat.dvd_of_mod_eq_zero hwhole)
          rw [ToSwitch.startMs_eq fun fast hfast => (hswitch fast hfast).le, legacySlotAt,
            Nat.add_sub_cancel_left]
          omega
        · cases h
  · rintro ⟨hfst, hswitch, hstart⟩
    have hbef : ∀ fast ∈ cadence.fastFrom, 1000 * timestamp < cadence.startMs fast :=
      fun fast hfast => hstart ▸ startMs_lt hfst (hswitch fast hfast)
    rw [ToSwitch.startMs_eq fun fast hfast => (hswitch fast hfast).le] at hstart
    have hsince : timestamp - cadence.genesisTime = (slot - cadence.first) * cadence.seconds := by
      omega
    rw [slotStartingAt, if_neg (mt hnone.1 (not_not_intro hbef)), if_neg (by omega), legacySlotAt,
      hsince, if_pos (Nat.mul_mod_left ..), Nat.mul_div_cancel _ cadence.seconds_pos,
      Nat.add_sub_cancel' hfst]

/-- Below the top of the number range slots follow each other without a gap, the slot in progress is
the one whose interval contains the time, a slot up to the switch is in progress at its start, which
determines it before the switch only, and a header's slot starts in the header's second. -/
theorem slots_consistent (cadence : Cadence) (slot timestamp : Nat) (hfst : cadence.first ≤ slot)
    (hslot : cadence.slotStartMs (slot + 1) < u64Max) (htime : 1000 * (timestamp + 1) ≤ u64Max) :
    cadence.slotStartMs (slot + 1) = cadence.slotStartMs slot + cadence.slotMs slot ∧
    (cadence.genesisTime ≤ timestamp → (cadence.slotAt timestamp = slot ↔
      cadence.slotStartMs slot ≤ 1000 * timestamp ∧
        1000 * timestamp < cadence.slotStartMs (slot + 1))) ∧
    (∀ prior ≤ timestamp, cadence.slotAt prior ≤ cadence.slotAt timestamp) ∧
    (cadence.ToSwitch slot → cadence.slotAt (cadence.slotStart slot) = slot) ∧
    (cadence.slotStartingAt timestamp = some slot ↔
      (∀ fast ∈ cadence.fastFrom, slot < fast) ∧ cadence.slotStart slot = timestamp) ∧
    ∀ number, cadence.headerSlot number timestamp = some slot →
      cadence.slotStart slot = timestamp := by
  obtain ⟨_, _, _, _⟩ := startMs_succ hfst
  rw [slotStartMs_eq_min] at hslot
  have hnext : cadence.slotStartMs (slot + 1) = cadence.startMs (slot + 1) := by
    rw [slotStartMs_eq_min]; omega
  have hstart : cadence.slotStartMs slot = cadence.startMs slot := by
    rw [slotStartMs_eq_min]; omega
  have hstarting : cadence.slotStartingAt timestamp = some slot ↔
      (∀ fast ∈ cadence.fastFrom, slot < fast) ∧ cadence.slotStart slot = timestamp := by
    rw [slotStartingAt_eq_some htime, slotStart, hstart, and_iff_right hfst]
    refine and_congr_right fun hswitch => ?_
    rw [ToSwitch.startMs_eq fun fast hfast => (hswitch fast hfast).le]
    omega
  refine ⟨by omega, fun hgenesis => ?_, fun prior => slotAt_mono (by omega), fun hswitch => ?_,
    hstarting, fun number h => ?_⟩
  · rw [hnext, hstart, slotAt_eq_iff (by omega) hgenesis hfst]
  · have hstart' := ToSwitch.startMs_eq hswitch
    rw [slotStart, hstart, slotAt_eq_iff (by omega) (by omega) hfst]; omega
  · unfold headerSlot at h
    split at h
    · split at h
      · cases h; exact (‹_ ∧ _› : _).2
      · cases h
    · exact (hstarting.1 h).2

end Cadence

structure OpStackNetwork where
  blockTime : Nat
  firstBlock : Nat
  firstBlockTime : Nat
  forks : List (String × Nat)
  blockTime_pos : 0 < blockTime

namespace OpStackNetwork

variable (network : OpStackNetwork)

def activation (fork : String) : Option Nat := (network.forks.find? (·.1 = fork)).map (·.2)

def divCeil (a b : Nat) : Nat := if a % b = 0 then a / b else a / b + 1

def denimBlock : Option Nat :=
  (network.activation "denim").map fun denim =>
    network.firstBlock + divCeil (denim - network.firstBlockTime) network.blockTime

def cadence : Cadence where
  genesisTime := network.firstBlockTime
  seconds := network.blockTime
  firstBlock := some network.firstBlock
  fastFrom := network.denimBlock
  seconds_pos := network.blockTime_pos
  first_le_fast fast h := by
    obtain ⟨denim, -, rfl⟩ := Option.map_eq_some_iff.1 h
    exact Nat.le_add_right ..

/-- One block every two seconds from block 5 on, and fast slots from block 8 on. -/
def denimNetwork : OpStackNetwork := ⟨2, 5, 10, [("denim", 16)], by decide⟩

theorem slots_consistent_denim : denimNetwork.cadence.slotStartMs 8 = 16000 ∧
    denimNetwork.cadence.slotAt 15 = 7 :=
  let h := Cadence.slots_consistent denimNetwork.cadence 7 15 (by decide) (by decide) (by decide)
  ⟨h.1.trans (by decide), (h.2.1 (by decide)).2 (by decide)⟩

/-- Block 9 shares its second with block 8: no slot is known to start then, block 8 is in progress,
and block 9's header has a timestamp before its slot. -/
theorem fast_slot_shares_second :
    let cadence := denimNetwork.cadence
    cadence.slotStartingAt (cadence.slotStart 9) = none ∧
    cadence.slotAt (cadence.slotStart 9) = 8 ∧
    cadence.headerSlot 9 16 = some 9 ∧ 1000 * 16 < cadence.slotStartMs 9 := by
  decide

end OpStackNetwork

end Leani.Chain
