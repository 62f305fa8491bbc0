import Leani.Primitives

/-!
# Room in the ring

Byte ranges are kept around one file: each takes room at the head, wraps to the start where it does not
fit, and the entries it overlaps are forgotten. Entries stay apart, within the capacity, and are named
by where they start (`Ring.Laid`).
-/

namespace Leani.Aws

open Library Std List Option Table

theorem takeWhile_eq_filter {α : Type} {p : α → Bool} {as : List α}
    (h : as.Pairwise fun a b => p b = true → p a = true) : as.takeWhile p = as.filter p := by
  induction as with
  | nil => rfl
  | cons a as ih =>
    obtain ⟨hhead, htail⟩ := pairwise_cons.1 h
    by_cases ha : p a = true
    · rw [takeWhile_cons_of_pos ha, filter_cons_of_pos ha, ih htail]
    · rw [takeWhile_cons_of_neg ha, filter_cons_of_neg ha]
      refine (filter_eq_nil_iff.2 fun b hb hpb => ha (hhead b hb hpb)).symm

abbrev Key := String × Nat × Nat × Nat

instance transOrdKey : Std.TransOrd Key := inferInstance

structure Entry where
  id : Nat
  offset : Nat
  len : Nat
  written : Bool
  deriving DecidableEq, Repr

structure Ring where
  head : Nat
  claimed : Nat
  entries : Table Key Entry
  offsets : Table Nat Key

namespace Ring

def empty : Ring := ⟨0, 0, ∅, ∅⟩

variable (ring : Ring)

def forget (key : Key) : Ring :=
  match ring.entries[key]? with
  | none => ring
  | some entry =>
    { ring with entries := ring.entries.erase key, offsets := ring.offsets.erase entry.offset }

def endOf (row : Nat × Key) : Nat := row.1 + (ring.entries[row.2]?.map Entry.len).getD 0

/-- The entries that reach into `start..stop`, from the last one that starts before `stop` down. -/
def overlapping (start stop : Nat) : List Key :=
  ((Table.rowsWhere ring.offsets fun offset _ => offset < stop).reverse.takeWhile fun row =>
    start < ring.endOf row).map Prod.snd

/-- Where `len` bytes go: at the head, or at the start of the file. -/
def startOf (len capacity : Nat) : Nat := if capacity < satAdd ring.head len then 0 else ring.head

/-- Room for `len` bytes at the head, the entries there forgotten. -/
def claim (key : Key) (len capacity : Nat) : Ring × Entry :=
  let start := ring.startOf len capacity
  let freed := ((ring.overlapping start (start + len)).foldl forget ring).forget key
  let entry : Entry := ⟨ring.claimed + 1, start, len, false⟩
  (⟨start + len, ring.claimed + 1, freed.entries.insert key entry, freed.offsets.insert start key⟩,
    entry)

def mark (key : Key) (id : Nat) (written : Bool) : Ring :=
  match ring.entries[key]? with
  | none => ring
  | some entry =>
    if entry.id = id then
      if written then { ring with entries := ring.entries.insert key { entry with written := true } }
      else ring.forget key
    else ring

end Ring

def Entry.Apart (a b : Entry) : Prop := a.offset + a.len ≤ b.offset ∨ b.offset + b.len ≤ a.offset

theorem Entry.Apart.symm {a b : Entry} (h : a.Apart b) : b.Apart a := h.elim .inr .inl

structure Ring.Laid (capacity : Nat) (ring : Ring) : Prop where
  head_le : ring.head ≤ capacity
  named : ∀ (offset : Nat) (key : Key), ring.offsets[offset]? = some key ↔
    ∃ entry : Entry, ring.entries[key]? = some entry ∧ entry.offset = offset
  within : ∀ (key : Key) (entry : Entry), ring.entries[key]? = some entry →
    0 < entry.len ∧ entry.offset + entry.len ≤ capacity
  apart : ∀ (key key' : Key) (entry entry' : Entry), ring.entries[key]? = some entry →
    ring.entries[key']? = some entry' → key ≠ key' → entry.Apart entry'
  claimed : ∀ (key : Key) (entry : Entry), ring.entries[key]? = some entry → entry.id ≤ ring.claimed
  unique : ∀ (key key' : Key) (entry entry' : Entry), ring.entries[key]? = some entry →
    ring.entries[key']? = some entry' → entry.id = entry'.id → key = key'

namespace Ring

theorem laid_empty (capacity : Nat) : Laid capacity .empty where
  head_le := Nat.zero_le _
  named offset key := by
    constructor
    · exact fun h => (not_mem_empty h).elim
    · rintro ⟨_, h, -⟩; exact (not_mem_empty h).elim
  within _ _ h := (not_mem_empty h).elim
  apart _ _ _ _ h := (not_mem_empty h).elim
  claimed _ _ h := (not_mem_empty h).elim
  unique _ _ _ _ h := (not_mem_empty h).elim

variable {ring : Ring} {capacity : Nat}

theorem entries_forget (ring : Ring) (key k : Key) :
    (ring.forget key).entries[k]? = if k = key then none else ring.entries[k]? := by
  unfold forget
  cases hkey : ring.entries[key]? with
  | none =>
    split_ifs with h
    · rw [h, hkey]
    · rfl
  | some entry => exact get?_erase_ite _ _ _

variable {key : Key} {entry : Entry}

theorem entries_forget_eq_some {k : Key} :
    (ring.forget key).entries[k]? = some entry ↔ k ≠ key ∧ ring.entries[k]? = some entry := by
  rw [entries_forget]
  split_ifs with h <;> simp [h]

theorem forget_head_claimed (ring : Ring) (key : Key) :
    (ring.forget key).head = ring.head ∧ (ring.forget key).claimed = ring.claimed := by
  unfold forget
  split <;> exact ⟨rfl, rfl⟩

theorem offsets_forget_of_some (h : ring.entries[key]? = some entry)
    (off : Nat) : (ring.forget key).offsets[off]? =
      if off = entry.offset then none else ring.offsets[off]? := by
  rw [forget, h]; exact get?_erase_ite _ _ _

theorem forget_of_none (h : ring.entries[key]? = none) : ring.forget key = ring := by
  rw [forget, h]

theorem Laid.forget_named (h : Laid capacity ring) (key : Key) (off : Nat) (k : Key) :
    (ring.forget key).offsets[off]? = some k ↔
      ∃ entry : Entry, (ring.forget key).entries[k]? = some entry ∧ entry.offset = off := by
  simp only [entries_forget_eq_some]
  cases hkey : ring.entries[key]? with
  | none =>
    rw [forget_of_none hkey, h.named]
    constructor
    · rintro ⟨entry, hk, rfl⟩
      refine ⟨entry, ⟨?_, hk⟩, rfl⟩
      rintro rfl; rw [hkey] at hk; cases hk
    · rintro ⟨entry, ⟨-, hk⟩, rfl⟩; exact ⟨entry, hk, rfl⟩
  | some gone =>
    have hgone := (h.named _ _).2 ⟨gone, hkey, rfl⟩
    rw [offsets_forget_of_some hkey]
    constructor
    · intro hoff
      split_ifs at hoff with hne
      obtain ⟨entry, hk, rfl⟩ := (h.named _ _).1 hoff
      refine ⟨entry, ⟨?_, hk⟩, rfl⟩
      rintro rfl; rw [hkey, some.injEq] at hk; exact hne (hk ▸ rfl)
    · rintro ⟨entry, ⟨hne, hk⟩, rfl⟩
      have hoff := (h.named _ _).2 ⟨entry, hk, rfl⟩
      rw [if_neg, hoff]
      intro heq; rw [heq, hgone, some.injEq] at hoff; exact hne hoff.symm

theorem Laid.forget (h : Laid capacity ring) (key : Key) : Laid capacity (ring.forget key) where
  head_le := (forget_head_claimed ring key).1 ▸ h.head_le
  named := h.forget_named key
  within k entry hk := h.within k entry (entries_forget_eq_some.1 hk).2
  apart k k' entry entry' hk hk' hne :=
    h.apart k k' entry entry' (entries_forget_eq_some.1 hk).2 (entries_forget_eq_some.1 hk').2 hne
  claimed k entry hk :=
    (forget_head_claimed ring key).2 ▸ h.claimed k entry (entries_forget_eq_some.1 hk).2
  unique k k' entry entry' hk hk' hid :=
    h.unique k k' entry entry' (entries_forget_eq_some.1 hk).2 (entries_forget_eq_some.1 hk').2 hid

theorem Laid.forgetAll (keys : List Key) : ∀ {ring : Ring}, Laid capacity ring →
    Laid capacity (keys.foldl Ring.forget ring) ∧ (keys.foldl Ring.forget ring).head = ring.head ∧
        (keys.foldl Ring.forget ring).claimed = ring.claimed ∧
          ∀ (k : Key) (entry : Entry), (keys.foldl Ring.forget ring).entries[k]? = some entry ↔
            k ∉ keys ∧ ring.entries[k]? = some entry := by
  induction keys with
  | nil =>
    intro ring h; exact ⟨h, rfl, rfl, fun k entry => by simp⟩
  | cons key keys ih =>
    intro ring h
    obtain ⟨hlaid, hhead, hclm, hentries⟩ := ih (h.forget key)
    obtain ⟨hhead', hclm'⟩ := forget_head_claimed ring key
    refine ⟨hlaid, hhead.trans hhead', hclm.trans hclm', fun k entry => ?_⟩
    rw [foldl_cons, hentries, entries_forget_eq_some, mem_cons, not_or]
    tauto

theorem endOf_eq (h : ring.entries[key]? = some entry) :
    ring.endOf (entry.offset, key) = entry.offset + entry.len := by
  rw [endOf, h]; rfl

theorem Laid.mem_overlapping (h : Laid capacity ring) {start stop : Nat} :
    key ∈ ring.overlapping start stop ↔ ∃ entry : Entry, ring.entries[key]? = some entry ∧
      entry.offset < stop ∧ start < entry.offset + entry.len := by
  have hrow {row : Nat × Key}
      (hmem : row ∈ Table.rowsWhere ring.offsets fun off _ => off < stop) :
      ∃ entry : Entry, ring.entries[row.2]? = some entry ∧ entry.offset = row.1 ∧ row.1 < stop := by
    obtain ⟨hoff, hlt⟩ := Table.mem_rowsWhere.1 hmem
    obtain ⟨entry, hkey, heq⟩ := (h.named _ _).1 hoff
    exact ⟨entry, hkey, heq, of_decide_eq_true hlt⟩
  -- Going down, an entry that ends before the room has only such entries below it.
  have hdown : (Table.rowsWhere ring.offsets fun off _ => off < stop).reverse.Pairwise
      fun a b => decide (start < ring.endOf b) = true → decide (start < ring.endOf a) = true := by
    rw [List.pairwise_reverse]
    refine (Table.sorted_rowsWhere ring.offsets _).imp_of_mem fun {a b} ha hb hlt hend => ?_
    obtain ⟨ea, hea, hoffa, -⟩ := hrow ha
    obtain ⟨eb, heb, hoffb, -⟩ := hrow hb
    have hab := Nat.compare_eq_lt.1 hlt
    have hne : a.2 ≠ b.2 := by
      intro heq
      rw [heq, heb, Option.some.injEq] at hea
      rw [← hoffa, ← hoffb, hea] at hab; exact Nat.lt_irrefl _ hab
    have hapart := h.apart _ _ _ _ hea heb hne
    have hpos := (h.within _ _ heb).1
    have hposa := (h.within _ _ hea).1
    have henda : ring.endOf a = ea.offset + ea.len := by rw [← endOf_eq hea, hoffa]
    have hendb : ring.endOf b = eb.offset + eb.len := by rw [← endOf_eq heb, hoffb]
    rw [decide_eq_true_eq, henda] at hend
    rw [decide_eq_true_eq, hendb]
    unfold Entry.Apart at hapart; omega
  rw [overlapping, takeWhile_eq_filter hdown, List.mem_map]
  constructor
  · rintro ⟨row, hmem, rfl⟩
    obtain ⟨hmem, hend⟩ := List.mem_filter.1 hmem
    obtain ⟨entry, hkey, heq, hlt⟩ := hrow (List.mem_reverse.1 hmem)
    have hendOf : ring.endOf row = entry.offset + entry.len := by rw [← endOf_eq hkey, heq]
    rw [decide_eq_true_eq, hendOf] at hend; exact ⟨entry, hkey, heq ▸ hlt, hend⟩
  · rintro ⟨entry, hkey, hlt, hend⟩
    refine ⟨(entry.offset, key), List.mem_filter.2 ⟨List.mem_reverse.2 ?_, ?_⟩, rfl⟩
    · exact Table.mem_rowsWhere.2 ⟨(h.named _ _).2 ⟨entry, hkey, rfl⟩, decide_eq_true hlt⟩
    · rw [endOf_eq hkey]; exact decide_eq_true hend

variable {len : Nat}

theorem startOf_add_le (hhead : ring.head ≤ capacity) (hlen : len ≤ capacity)
    (hcapac : capacity < u64Max) : ring.startOf len capacity + len ≤ capacity := by
  unfold startOf satAdd
  split_ifs with h
  · omega
  · omega

theorem claim_entry (ring : Ring) (key : Key) (len capacity : Nat) : (ring.claim key len capacity).2 =
      ⟨ring.claimed + 1, ring.startOf len capacity, len, false⟩ := rfl

theorem Laid.entries_claim (h : Laid capacity ring) (key k : Key) {len : Nat} (entry : Entry) :
    (ring.claim key len capacity).1.entries[k]? = some entry ↔
      k = key ∧ entry = (ring.claim key len capacity).2 ∨
        k ≠ key ∧ ring.entries[k]? = some entry ∧ entry.Apart (ring.claim key len capacity).2 := by
  set start := ring.startOf len capacity with hstart
  obtain ⟨_, -, -, hentries⟩ := h.forgetAll (ring.overlapping start (start + len))
  have hinsert : (ring.claim key len capacity).1.entries[k]? =
      if k = key then some (ring.claim key len capacity).2 else
        (((ring.overlapping start (start + len)).foldl Ring.forget ring).forget key).entries[k]? :=
    get?_insert_ite _ _ _ _
  rw [hinsert]
  by_cases hk : k = key
  · rw [if_pos hk, some.injEq, eq_comm]; simp [hk]
  · rw [if_neg hk, entries_forget_eq_some, hentries, h.mem_overlapping]
    simp only [hk, false_and, false_or, ne_eq, not_false_eq_true, true_and]
    rw [and_comm]
    refine and_congr_right fun hkept => ?_
    rw [claim_entry, Entry.Apart]
    constructor
    · intro hnot
      by_contra hreach
      rw [not_or, Nat.not_le, Nat.not_le] at hreach; exact hnot ⟨entry, hkept, hreach.2, hreach.1⟩
    · rintro hapart ⟨_, hkept', hlt, hgt⟩
      rw [hkept, some.injEq] at hkept'
      subst hkept'; exact hapart.elim (Nat.not_le.2 hgt) (Nat.not_le.2 hlt)

theorem Laid.claim_named (h : Laid capacity ring) (key : Key) (hlen : 0 < len)
    (off : Nat) (k : Key) : (ring.claim key len capacity).1.offsets[off]? = some k ↔ ∃ entry :
    Entry, (ring.claim key len capacity).1.entries[k]? = some entry ∧ entry.offset = off := by
  set start := ring.startOf len capacity with hstart
  obtain ⟨hlaid, -, -, -⟩ := h.forgetAll (ring.overlapping start (start + len))
  have hfreed := (hlaid.forget key).named
  have hinsert : (ring.claim key len capacity).1.offsets[off]? =
      if off = start then some key else
        (((ring.overlapping start (start + len)).foldl Ring.forget ring).forget key).offsets[off]? :=
    get?_insert_ite _ _ _ _
  have hentries : (ring.claim key len capacity).1.entries[k]? =
      if k = key then some (ring.claim key len capacity).2 else
        (((ring.overlapping start (start + len)).foldl Ring.forget ring).forget key).entries[k]? :=
    get?_insert_ite _ _ _ _
  constructor
  · rw [hinsert]
    split_ifs with hoff
    · rintro ⟨⟩; exact ⟨_, (h.entries_claim key key _).2 (.inl ⟨rfl, rfl⟩), hoff.symm⟩
    · intro hkept
      obtain ⟨entry, hk, rfl⟩ := (hfreed _ _).1 hkept
      refine ⟨entry, ?_, rfl⟩
      rw [hentries, if_neg (entries_forget_eq_some.1 hk).1, hk]
  · rintro ⟨entry, hk, rfl⟩
    rcases (h.entries_claim key k entry).1 hk with ⟨rfl, rfl⟩ | ⟨hne, hkept, hapart⟩
    · rw [hinsert]; exact if_pos rfl
    · have hoff : entry.offset ≠ start := by
        have hpos := (h.within _ _ hkept).1
        rw [claim_entry, Entry.Apart, ← hstart] at hapart
        dsimp only at hapart; omega
      rw [hentries, if_neg hne] at hk
      rw [hinsert, if_neg hoff]; exact (hfreed _ _).2 ⟨entry, hk, rfl⟩

theorem Laid.claim (h : Laid capacity ring) (key : Key) (hlen : 0 < len) (hle : len ≤ capacity)
    (hcapac : capacity < u64Max) : Laid capacity (ring.claim key len capacity).1 := by
  have hroom := startOf_add_le h.head_le hle hcapac
  refine ⟨hroom, fun off k => h.claim_named key hlen off k, ?_, ?_, ?_, ?_⟩
  · intro k entry hk
    rcases (h.entries_claim key k entry).1 hk with ⟨-, rfl⟩ | ⟨-, hkept, -⟩
    · exact ⟨hlen, hroom⟩
    · exact h.within _ _ hkept
  · intro k k' entry entry' hk hk' hne
    rcases (h.entries_claim key k entry).1 hk with ⟨rfl, rfl⟩ | ⟨-, hkept, hapart⟩
    · rcases (h.entries_claim _ k' entry').1 hk' with ⟨rfl, -⟩ | ⟨-, -, hapart⟩
      · exact absurd rfl hne
      · exact hapart.symm
    · rcases (h.entries_claim key k' entry').1 hk' with ⟨rfl, rfl⟩ | ⟨-, hkept', -⟩
      · exact hapart
      · exact h.apart _ _ _ _ hkept hkept' hne
  · intro k entry hk
    rcases (h.entries_claim key k entry).1 hk with ⟨-, rfl⟩ | ⟨-, hkept, -⟩
    · exact le_rfl
    · exact Nat.le_succ_of_le (h.claimed _ _ hkept)
  · intro k k' entry entry' hk hk' hid
    rcases (h.entries_claim key k entry).1 hk with ⟨rfl, rfl⟩ | ⟨-, hkept, -⟩
    · rcases (h.entries_claim _ k' entry').1 hk' with ⟨rfl, -⟩ | ⟨-, hkept', -⟩
      · rfl
      · have hclm := h.claimed _ _ hkept'
        rw [← hid, claim_entry] at hclm; exact absurd hclm (Nat.not_succ_le_self _)
    · rcases (h.entries_claim key k' entry').1 hk' with ⟨rfl, rfl⟩ | ⟨-, hkept', -⟩
      · have hclm := h.claimed _ _ hkept
        rw [hid, claim_entry] at hclm; exact absurd hclm (Nat.not_succ_le_self _)
      · exact h.unique _ _ _ _ hkept hkept' hid

theorem mark_spec (ring : Ring) (key : Key) (id : Nat) (written : Bool) :
    (∀ entry : Entry, ring.entries[key]? = some entry → entry.id ≠ id) ∧
        ring.mark key id written = ring ∨
      ∃ entry : Entry, ring.entries[key]? = some entry ∧ entry.id = id ∧
        (written = true ∧ ring.mark key id written =
        { ring with entries := ring.entries.insert key { entry with written := true } } ∨
          written = false ∧ ring.mark key id written = ring.forget key) := by
  unfold mark
  cases hkey : ring.entries[key]? with
  | none => exact .inl ⟨nofun, rfl⟩
  | some entry =>
    by_cases hid : entry.id = id
    · refine .inr ⟨entry, rfl, hid, ?_⟩
      cases written with
      | true => exact .inl ⟨rfl, if_pos hid⟩
      | false => exact .inr ⟨rfl, if_pos hid⟩
    · refine .inl ⟨fun _ he => ?_, if_neg hid⟩
      cases he; exact hid

theorem entries_written {k : Key} {e : Entry} (h : ring.entries[key]? = some entry)
    (hk : (ring.entries.insert key { entry with written := true })[k]? = some e) : ∃ e' :
    Entry, ring.entries[k]? = some e' ∧ e'.id = e.id ∧ e'.offset = e.offset ∧ e'.len = e.len := by
  rw [get?_insert_ite] at hk
  split_ifs at hk with heq
  · cases hk; exact ⟨entry, heq ▸ h, rfl, rfl, rfl⟩
  · exact ⟨e, hk, rfl, rfl, rfl⟩

theorem Laid.written (h : Laid capacity ring) {key : Key} {entry : Entry}
    (hkey : ring.entries[key]? = some entry) : Laid capacity
      { ring with entries := ring.entries.insert key { entry with written := true } } := by
  refine ⟨h.head_le, fun _ k => ?_, ?_, ?_, ?_, ?_⟩
  · rw [h.named]
    constructor
    · rintro ⟨e, hk, rfl⟩
      by_cases heq : k = key
      · subst heq
        rw [hkey, some.injEq] at hk; exact ⟨_, getElem?_insert_self _ _ _, hk ▸ rfl⟩
      · refine ⟨e, ?_, rfl⟩
        rw [get?_insert_ite, if_neg heq, hk]
    · rintro ⟨e, hk, rfl⟩
      obtain ⟨e', hk', -, hoff, -⟩ := entries_written hkey hk; exact ⟨e', hk', hoff⟩
  · intro k e hk
    obtain ⟨e', hk', -, hoff, hlen⟩ := entries_written hkey hk
    have hwithin := h.within _ _ hk'; rwa [hoff, hlen] at hwithin
  · intro k k' e f hk hk' hne
    obtain ⟨e', he', -, hoff, hlen⟩ := entries_written hkey hk
    obtain ⟨f', hf', -, hoff', hlen'⟩ := entries_written hkey hk'
    have hapart := h.apart _ _ _ _ he' hf' hne
    rwa [Entry.Apart, hoff, hlen, hoff', hlen'] at hapart
  · intro k e hk
    obtain ⟨e', hk', hid, -, -⟩ := entries_written hkey hk; exact hid ▸ h.claimed _ _ hk'
  · intro k k' e f hk hk' hid
    obtain ⟨e', he', hide, -, -⟩ := entries_written hkey hk
    obtain ⟨f', hf', hidf, -, -⟩ := entries_written hkey hk'
    exact h.unique _ _ _ _ he' hf' (hide.trans (hid.trans hidf.symm))

theorem Laid.mark (h : Laid capacity ring) (key : Key) (id : Nat) (written : Bool) :
    Laid capacity (ring.mark key id written) := by
  obtain ⟨-, heq⟩ | ⟨_, hkey, -, ⟨-, heq⟩ | ⟨-, heq⟩⟩ := mark_spec ring key id written
  · rw [heq]; exact h
  · rw [heq]; exact h.written hkey
  · rw [heq]; exact h.forget key

end Ring

end Leani.Aws
