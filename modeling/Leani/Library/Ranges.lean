import Mathlib.Data.List.Sort
import Mathlib.Tactic.Common

/-!
# Ranges of numbers

Lists of inclusive ranges as a way to write a set of numbers. Sorting a list and merging neighbours
that touch gives the one list of separated ranges with the same numbers, so two such lists are equal
as soon as they have the same numbers. Where numbers have a largest one, adding one to it saturates.
-/

namespace Library

open List

structure Range where
  start : Nat
  last : Nat
  start_le_last : start ≤ last
  deriving DecidableEq

namespace Range

instance : Membership Nat Range := ⟨fun r n => r.start ≤ n ∧ n ≤ r.last⟩

variable {r : Range} {n : Nat}

theorem mem_iff : n ∈ r ↔ r.start ≤ n ∧ n ≤ r.last := Iff.rfl

theorem start_mem (r : Range) : r.start ∈ r := ⟨le_rfl, r.start_le_last⟩

theorem last_mem (r : Range) : r.last ∈ r := ⟨r.start_le_last, le_rfl⟩

theorem ext {r' : Range} (h : r.start = r'.start) (h' : r.last = r'.last) : r = r' := by
  cases r; cases r'; cases h; cases h'; rfl

def extend (a b : Range) : Range :=
  ⟨a.start, max a.last b.last, Nat.le_trans a.start_le_last (Nat.le_max_left ..)⟩

def Covers (rs : List Range) (n : Nat) : Prop := ∃ r ∈ rs, n ∈ r

theorem covers_nil : ¬ Covers [] n := fun ⟨_, h, _⟩ => nomatch h

variable {rs : List Range}

theorem covers_cons : Covers (r :: rs) n ↔ n ∈ r ∨ Covers rs n := by
  constructor
  · rintro ⟨r', h, hn⟩
    rcases mem_cons.1 h with rfl | h
    · exact .inl hn
    · exact .inr ⟨r', h, hn⟩
  · rintro (hn | ⟨r', h, hn⟩)
    · exact ⟨r, mem_cons_self, hn⟩
    · exact ⟨r', mem_cons_of_mem _ h, hn⟩

variable {rs' : List Range}

theorem covers_append : Covers (rs ++ rs') n ↔ Covers rs n ∨ Covers rs' n := by
  simp only [Covers, mem_append, or_and_right, exists_or]

theorem Covers.perm (h : rs.Perm rs') : Covers rs n ↔ Covers rs' n :=
  exists_congr fun _ => and_congr_left fun _ => h.mem_iff

def Separated (rs : List Range) : Prop := rs.Pairwise fun a b => a.last + 1 < b.start

theorem Separated.lt (h : Separated (r :: rs)) (hn : Covers rs n) : r.last + 1 < n := by
  obtain ⟨r', hr', hn⟩ := hn; exact Nat.lt_of_lt_of_le ((pairwise_cons.1 h).1 r' hr') hn.1

theorem Separated.head_eq {r' : Range} (h : Separated (r :: rs)) (h' : Separated (r' :: rs'))
    (hc : ∀ n, Covers (r :: rs) n ↔ Covers (r' :: rs') n) :
    r.start ≤ r'.start ∧ r.last ≤ r'.last := by
  have hstart := covers_cons.1 ((hc _).2 (covers_cons.2 (.inl r'.start_mem)))
  have hlast : ∀ n, n ∈ r → n ∈ r' ∨ Covers rs' n :=
    fun n hn => covers_cons.1 ((hc n).1 (covers_cons.2 (.inl hn)))
  have hle : r.start ≤ r'.start := by
    rcases hstart with hs | hs
    · exact hs.1
    · have := h.lt hs
      have := r.start_le_last; omega
  refine ⟨hle, Nat.le_of_not_lt fun hlt => ?_⟩
  -- The number after the gap's first number would have to be there.
  have hmem : r'.last + 1 ∈ r := ⟨by have := r'.start_le_last; omega, hlt⟩
  rcases hlast _ hmem with hn | hn
  · exact absurd hn.2 (Nat.not_succ_le_self _)
  · exact absurd (h'.lt hn) (Nat.lt_irrefl _)

theorem Separated.eq (h : Separated rs) (h' : Separated rs')
    (hc : ∀ n, Covers rs n ↔ Covers rs' n) : rs = rs' := by
  induction rs generalizing rs' with
  | nil =>
    cases rs' with
    | nil => rfl
    | cons r' rs' =>
      exact absurd ((hc r'.start).2 ⟨r', mem_cons_self, r'.start_mem⟩) covers_nil
  | cons r rs ih =>
    cases rs' with
    | nil => exact absurd ((hc r.start).1 ⟨r, mem_cons_self, r.start_mem⟩) covers_nil
    | cons r' rs' =>
      have hle := h.head_eq h' hc
      have hge := h'.head_eq h fun n => (hc n).symm
      obtain rfl : r = r' := ext (Nat.le_antisymm hle.1 hge.1) (Nat.le_antisymm hle.2 hge.2)
      congr 1
      refine ih (pairwise_cons.1 h).2 (pairwise_cons.1 h').2 fun n => ?_
      have hn := hc n
      rw [covers_cons, covers_cons] at hn
      constructor
      · intro hrs
        have := h.lt hrs; exact (hn.1 (.inr hrs)).resolve_left fun hmem => by have := hmem.2; omega
      · intro hrs
        have := h'.lt hrs; exact (hn.2 (.inr hrs)).resolve_left fun hmem => by have := hmem.2; omega

def mergeInto (limit : Nat) : Range → List Range → List Range
  | current, [] => [current]
  | current, next :: rest =>
    if next.start ≤ min (current.last + 1) limit then mergeInto limit (current.extend next) rest
    else current :: mergeInto limit next rest

def merge (limit : Nat) : List Range → List Range
  | [] => []
  | r :: rs => mergeInto limit r rs

def before (a b : Range) : Bool := a.start < b.start || (a.start = b.start && a.last ≤ b.last)

theorem before_iff {a b : Range} :
    before a b = true ↔ a.start < b.start ∨ a.start = b.start ∧ a.last ≤ b.last := by
  rw [before, Bool.or_eq_true, Bool.and_eq_true, decide_eq_true_iff, decide_eq_true_iff,
    decide_eq_true_iff]

def normalize (limit : Nat) (rs : List Range) : List Range := merge limit (rs.mergeSort before)

theorem mem_extend {a b : Range} {limit : Nat} (hab : a.start ≤ b.start)
    (htouch : b.start ≤ min (a.last + 1) limit) : n ∈ a.extend b ↔ n ∈ a ∨ n ∈ b := by
  simp only [mem_iff, extend]; omega

theorem mergeInto_spec {limit : Nat} {rs : List Range} : ∀ {cur : Range}, (∀ r ∈ rs, r.last ≤ limit) →
    (∀ r ∈ rs, cur.start ≤ r.start) → rs.Pairwise (fun a b => a.start ≤ b.start) →
    Separated (mergeInto limit cur rs) ∧ (∀ r ∈ mergeInto limit cur rs, cur.start ≤ r.start) ∧
    ∀ n, Covers (mergeInto limit cur rs) n ↔ n ∈ cur ∨ Covers rs n := by
  induction rs with
  | nil =>
    intro cur _ _ _
    refine ⟨pairwise_singleton .., fun r hr => ?_, fun n => covers_cons⟩
    rw [mem_singleton.1 hr]
  | cons next rest ih =>
    intro cur hlimit hle hsort
    obtain ⟨hnext, hrest⟩ := pairwise_cons.1 hsort
    have hlimit' := (forall_mem_cons.1 hlimit).2
    have hstart := hle next mem_cons_self
    rw [mergeInto]
    split
    · rename_i htouch
      obtain ⟨hsep, hbelow, hcov⟩ := @ih (cur.extend next) hlimit' (forall_mem_cons.1 hle).2 hrest
      refine ⟨hsep, hbelow, fun n => ?_⟩
      rw [hcov, mem_extend hstart htouch, covers_cons, or_assoc]
    · rename_i hapart
      obtain ⟨hsep, hbelow, hcov⟩ := ih hlimit' hnext hrest
      have hgap : cur.last + 1 < next.start := by
        have := hlimit next mem_cons_self
        have := next.start_le_last; omega
      refine ⟨pairwise_cons.2 ⟨fun r hr => ?_, hsep⟩, fun r hr => ?_, fun n => ?_⟩
      · exact Nat.lt_of_lt_of_le hgap (hbelow r hr)
      · rcases mem_cons.1 hr with rfl | hr
        · exact le_rfl
        · exact Nat.le_trans hstart (hbelow r hr)
      · rw [covers_cons, hcov, covers_cons]

theorem normalize_spec {limit : Nat} {rs : List Range} (h : ∀ r ∈ rs, r.last ≤ limit) :
    Separated (normalize limit rs) ∧ ∀ n, Covers (normalize limit rs) n ↔ Covers rs n := by
  unfold normalize
  generalize hs : rs.mergeSort before = sorted
  have hperm := hs ▸ mergeSort_perm ..
  have hsort : sorted.Pairwise fun a b => a.start ≤ b.start := by
    have hpair : sorted.Pairwise fun a b => before a b = true := by
      rw [← hs]
      refine pairwise_mergeSort (fun a b _ hab _ => ?_) (fun a b => ?_) rs
      · rw [before_iff] at *; omega
      · rw [Bool.or_eq_true, before_iff, before_iff]; omega
    refine hpair.imp fun {a b} hab => ?_
    rw [before_iff] at hab; omega
  cases sorted with
  | nil => exact ⟨List.Pairwise.nil, fun n => Covers.perm hperm⟩
  | cons r rest =>
    obtain ⟨hle, hrest⟩ := pairwise_cons.1 hsort
    obtain ⟨hsep, -, hcov⟩ := @mergeInto_spec limit rest r
      (fun r' hr' => h r' (hperm.mem_iff.1 (mem_cons_of_mem _ hr'))) hle hrest
    refine ⟨hsep, fun n => ?_⟩
    rw [merge, hcov, ← covers_cons, Covers.perm hperm]

def single (n : Nat) : Range := ⟨n, n, Nat.le_refl _⟩

theorem mem_single {m : Nat} : n ∈ single m ↔ n = m :=
  ⟨fun h => Nat.le_antisymm h.2 h.1, fun h => h ▸ start_mem (single n)⟩

def runsFrom (limit : Nat) : Range → List Nat → List Range
  | current, [] => [current]
  | current, n :: ns =>
    if n = current.last then runsFrom limit current ns
    else if n = min (current.last + 1) limit then runsFrom limit (current.extend (single n)) ns
    else current :: runsFrom limit (single n) ns

def runs (limit : Nat) : List Nat → List Range
  | [] => []
  | n :: ns => runsFrom limit (single n) ns

theorem runsFrom_spec {limit : Nat} {ns : List Nat} : ∀ {cur : Range},
    cur.last ≤ limit → (∀ n ∈ ns, n ≤ limit) → (∀ r ∈ runsFrom limit cur ns, r.last ≤ limit) ∧
    ∀ m, Covers (runsFrom limit cur ns) m ↔ m ∈ cur ∨ m ∈ ns := by
  induction ns with
  | nil =>
    intro cur hcurr _
    refine ⟨fun r hr => ?_, fun m => ?_⟩
    · rw [mem_singleton.1 hr]; exact hcurr
    · rw [runsFrom, covers_cons, or_iff_left covers_nil, or_iff_left not_mem_nil]
  | cons n ns ih =>
    intro cur hcurr hns
    have hn := hns n mem_cons_self
    have hns' := (forall_mem_cons.1 hns).2
    rw [runsFrom]
    by_cases hlast : n = cur.last
    · rw [if_pos hlast]
      obtain ⟨hle, hcov⟩ := ih hcurr hns'
      refine ⟨hle, fun m => ?_⟩
      rw [hcov, mem_cons, ← or_assoc]
      exact or_congr_left (or_iff_left_of_imp fun h => by
        rw [h, hlast]; exact cur.last_mem).symm
    · rw [if_neg hlast]
      by_cases hnext : n = min (cur.last + 1) limit
      · rw [if_pos hnext]
        have hlt : cur.last < n := by omega
        obtain ⟨hle, hcov⟩ := @ih (cur.extend (single n)) (Nat.max_le.2 ⟨hcurr, hn⟩) hns'
        refine ⟨hle, fun m => ?_⟩
        have hstart := cur.start_le_last
        rw [hcov, mem_extend (Nat.le_trans hstart hlt.le) (Nat.le_of_eq hnext),
          mem_single, mem_cons, or_assoc]
      · rw [if_neg hnext]
        obtain ⟨hle, hcov⟩ := @ih (single n) hn hns'
        refine ⟨fun r hr => ?_, fun m => ?_⟩
        · rcases mem_cons.1 hr with rfl | hr
          · exact hcurr
          · exact hle r hr
        · rw [covers_cons, hcov, mem_single, mem_cons]

theorem runs_spec {limit : Nat} {ns : List Nat} (h : ∀ n ∈ ns, n ≤ limit) :
    (∀ r ∈ runs limit ns, r.last ≤ limit) ∧ ∀ m, Covers (runs limit ns) m ↔ m ∈ ns := by
  cases ns with
  | nil => exact ⟨nofun, fun m => iff_of_false covers_nil not_mem_nil⟩
  | cons n ns =>
    obtain ⟨hle, hcov⟩ := @runsFrom_spec limit ns (single n)
      (h n mem_cons_self) (forall_mem_cons.1 h).2
    refine ⟨hle, fun m => ?_⟩
    rw [runs, hcov, mem_single, mem_cons]

end Range

end Library
