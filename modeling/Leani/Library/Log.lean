import Mathlib.Tactic.Common

/-!
# Append-only logs cut from the front

A log gives what is appended the sequence numbers 1, 2, 3 and so on, and forgets a prefix of it.
A group is a contiguous run of entries that belong together; `Whole` says that the forgotten prefix
ends where a group ends.
-/

namespace Library

open List Prod

variable {ρ : Type}

/-- The entries of a list with consecutive numbers from `a` on. -/
def numbered : Nat → List ρ → List (Nat × ρ)
  | _, [] => []
  | a, r :: rs => (a, r) :: numbered (a + 1) rs

@[simp] theorem numbered_nil (a : Nat) : numbered a ([] : List ρ) = [] := rfl

@[simp] theorem numbered_cons (a : Nat) (r : ρ) (rs : List ρ) :
    numbered a (r :: rs) = (a, r) :: numbered (a + 1) rs := rfl

variable {rs : List ρ}

theorem mem_numbered {a k : Nat} {r : ρ} : (k, r) ∈ numbered a rs ↔ a ≤ k ∧ rs[k - a]? = some r := by
  induction rs generalizing a with
  | nil => simp
  | cons x rs ih =>
    rw [numbered_cons, mem_cons, ih, mk.injEq]
    rcases Nat.lt_trichotomy k a with h | rfl | h
    · constructor
      · rintro (⟨rfl, -⟩ | ⟨h', -⟩) <;> omega
      · rintro ⟨h', -⟩; omega
    · rw [Nat.sub_self, getElem?_cons_zero, Option.some.injEq]
      constructor
      · rintro (⟨-, rfl⟩ | ⟨h', -⟩)
        · exact ⟨Nat.le_refl _, rfl⟩
        · omega
      · rintro ⟨-, rfl⟩; exact .inl ⟨rfl, rfl⟩
    · obtain ⟨j, rfl⟩ : ∃ j, k = a + 1 + j := ⟨k - (a + 1), by omega⟩
      have e : a + 1 + j - a = j + 1 := by omega
      have e' : a + 1 + j - (a + 1) = j := by omega
      rw [e, e', getElem?_cons_succ]
      constructor
      · rintro (⟨h', -⟩ | ⟨-, hr⟩)
        · omega
        · exact ⟨by omega, hr⟩
      · rintro ⟨-, hr⟩; exact .inr ⟨by omega, hr⟩

theorem numbered_sorted (rs : List ρ) (a : Nat) : (numbered a rs).Pairwise fun x y => x.1 < y.1 := by
  induction rs generalizing a with
  | nil => exact .nil
  | cons r rs ih =>
    rw [numbered_cons, pairwise_cons]
    refine ⟨fun ⟨k, v⟩ hk => ?_, ih (a + 1)⟩
    have := (mem_numbered.1 hk).1; omega

theorem numbered_take (rs : List ρ) (a n : Nat) :
    (numbered a rs).take n = numbered a (rs.take n) := by
  induction rs generalizing a n with
  | nil => simp
  | cons r rs ih =>
    cases n with
    | zero => rfl
    | succ n => rw [numbered_cons, take_succ_cons, ih, take_succ_cons, numbered_cons]

theorem numbered_drop (rs : List ρ) (a n : Nat) :
    (numbered a rs).drop n = numbered (a + n) (rs.drop n) := by
  induction rs generalizing a n with
  | nil => simp
  | cons r rs ih =>
    cases n with
    | zero => rfl
    | succ n => rw [numbered_cons, drop_succ_cons, ih, drop_succ_cons, Nat.add_assoc,
        Nat.add_comm 1 n]

@[simp] theorem length_numbered (rs : List ρ) (a : Nat) : (numbered a rs).length = rs.length := by
  induction rs generalizing a with
  | nil => rfl
  | cons r rs ih => rw [numbered_cons, length_cons, ih, length_cons]

theorem getLast?_numbered :
    ∀ {a : Nat} {x : Nat × ρ}, (numbered a rs).getLast? = some x → x.1 + 1 = a + rs.length := by
  induction rs with
  | nil => intro a x h; cases h
  | cons r rs ih =>
    intro a x h
    cases rs with
    | nil =>
      cases h; rfl
    | cons r' rs =>
      rw [numbered_cons, numbered_cons, getLast?_cons_cons, ← numbered_cons] at h
      rw [ih h, length_cons, length_cons, length_cons]; omega

@[simp] theorem map_snd_numbered (rs : List ρ) (a : Nat) : (numbered a rs).map snd = rs := by
  induction rs generalizing a with
  | nil => rfl
  | cons r rs ih => rw [numbered_cons, map_cons, ih]

theorem map_fst_numbered (rs : List ρ) (a : Nat) : (numbered a rs).map fst = range' a rs.length := by
  induction rs generalizing a with
  | nil => rfl
  | cons r rs ih => rw [numbered_cons, map_cons, ih, length_cons, range'_succ]

structure Log (ρ : Type) where
  history : List ρ
  pruned : Nat
  pruned_le : pruned ≤ history.length

namespace Log

def empty : Log ρ := ⟨[], 0, Nat.le_refl _⟩

def head (log : Log ρ) : Nat := log.history.length

def row? (log : Log ρ) (seq : Nat) : Option ρ :=
  if log.pruned < seq then log.history[seq - 1]? else none

def append (log : Log ρ) (rs : List ρ) : Log ρ where
  history := log.history ++ rs
  pruned := log.pruned
  pruned_le := by
    rw [List.length_append]
    exact Nat.le_add_right_of_le log.pruned_le

def cut (log : Log ρ) (n : Nat) (h : n ≤ log.head) : Log ρ where
  history := log.history
  pruned := max log.pruned n
  pruned_le := Nat.max_le.2 ⟨log.pruned_le, h⟩

def kept (log : Log ρ) : List ρ := log.history.drop log.pruned

variable {log : Log ρ} {seq : Nat}

theorem row?_of_le (h : seq ≤ log.pruned) : log.row? seq = none :=
  if_neg (Nat.not_lt.2 h)

theorem row?_of_lt {log : Log ρ} {seq : Nat} (h : log.pruned < seq) :
    log.row? seq = log.history[seq - 1]? := if_pos h

theorem row?_isSome_iff : (log.row? seq).isSome ↔ log.pruned < seq ∧ seq ≤ log.head := by
  by_cases h : log.pruned < seq
  · rw [row?_of_lt h, Option.isSome_iff_ne_none, Ne, getElem?_eq_none_iff, head]; omega
  · rw [row?_of_le (Nat.le_of_not_lt h)]; simp [h]

theorem row?_eq_some {r : ρ} (h : log.row? seq = some r) :
    log.pruned < seq ∧ seq ≤ log.head := row?_isSome_iff.1 (by rw [h]; rfl)

variable {n : Nat}

theorem mem_numbered_drop {k : Nat} {r : ρ} (h : log.pruned ≤ n) :
    (k, r) ∈ numbered (n + 1) (log.history.drop n) ↔ log.row? k = some r ∧ n < k := by
  rw [mem_numbered, getElem?_drop]
  constructor
  · rintro ⟨hk, hr⟩
    have e : n + (k - (n + 1)) = k - 1 := by omega
    rw [e] at hr; exact ⟨by rw [row?_of_lt (by omega), hr], by omega⟩
  · rintro ⟨hr, hk⟩
    have e : n + (k - (n + 1)) = k - 1 := by omega
    rw [e]; rw [row?_of_lt (by omega)] at hr; exact ⟨hk, hr⟩

theorem row?_append (log : Log ρ) (r : ρ) (seq : Nat) :
    (log.append [r]).row? seq = if seq = log.head + 1 then some r else log.row? seq := by
  have hle := log.pruned_le
  unfold row? append head
  dsimp only
  by_cases h : seq = log.history.length + 1
  · subst h; rw [if_pos rfl, if_pos (by omega), Nat.add_sub_cancel, getElem?_concat_length]
  · rw [if_neg h]
    by_cases hp : log.pruned < seq
    · rw [if_pos hp, if_pos hp]
      rcases Nat.lt_or_ge (seq - 1) log.history.length with hlt | hge
      · rw [getElem?_append_left hlt]
      · rw [getElem?_eq_none (by rw [length_append, length_singleton]; omega), getElem?_eq_none hge]
    · rw [if_neg hp, if_neg hp]

@[simp] theorem append_nil (log : Log ρ) : log.append [] = log := by
  unfold append; simp only [List.append_nil]

theorem append_append (log : Log ρ) (rs rs' : List ρ) :
    (log.append rs).append rs' = log.append (rs ++ rs') := by
  unfold append; simp only [append_assoc]

theorem head_append (log : Log ρ) (rs : List ρ) : (log.append rs).head = log.head + rs.length :=
  length_append

theorem kept_append (log : Log ρ) (rs : List ρ) : (log.append rs).kept = log.kept ++ rs :=
  drop_append_of_le_length log.pruned_le

theorem row?_cut (log : Log ρ) (h : n ≤ log.head) (seq : Nat) :
    (log.cut n h).row? seq = if n < seq then log.row? seq else none := by
  unfold row? cut
  by_cases h₁ : n < seq
  · rw [if_pos h₁]
    by_cases h₂ : log.pruned < seq
    · rw [if_pos (Nat.max_lt.2 ⟨h₂, h₁⟩), if_pos h₂]
    · rw [if_neg (fun h => h₂ (Nat.max_lt.1 h).1), if_neg h₂]
  · rw [if_neg h₁, if_neg fun h => h₁ (Nat.max_lt.1 h).2]

theorem kept_cut (log : Log ρ) (h : n ≤ log.head) :
    (log.cut n h).kept = log.kept.drop (n - log.pruned) := by
  unfold kept cut
  rw [drop_drop]
  congr 1
  dsimp only; omega

def Adjacent (same : ρ → ρ → Prop) (log : Log ρ) (seq : Nat) : Prop :=
  ∃ r r', log.history[seq - 1]? = some r ∧ log.history[seq]? = some r' ∧ same r r'

def Whole (same : ρ → ρ → Prop) (log : Log ρ) : Prop :=
  0 < log.pruned → ¬ log.Adjacent same log.pruned

variable {same : ρ → ρ → Prop}

theorem whole_empty : Whole same (empty : Log ρ) := fun h => absurd h (Nat.lt_irrefl 0)

theorem Whole.group {log : Log ρ} (h : log.Whole same) {first last : Nat} (hfst : 0 < first)
    (group : ∀ seq, first ≤ seq → seq < last → log.Adjacent same seq) :
    last ≤ log.pruned ∨ log.pruned < first := by
  rcases Nat.lt_or_ge log.pruned first with h₁ | h₁
  · exact .inr h₁
  · rcases Nat.lt_or_ge log.pruned last with h₂ | h₂
    · exact absurd (group _ h₁ h₂) (h (Nat.lt_of_lt_of_le hfst h₁))
    · exact .inl h₂

theorem Whole.append (h : log.Whole same) (rs : List ρ)
    (hkept : 0 < log.pruned → log.pruned < log.head) : (log.append rs).Whole same := by
  rintro hp ⟨r, r', hr, hr', hsame⟩
  change (log.history ++ rs)[log.pruned - 1]? = _ at hr
  change (log.history ++ rs)[log.pruned]? = _ at hr'
  have hlt : log.pruned < log.history.length := hkept hp
  rw [getElem?_append_left (by omega)] at hr
  rw [getElem?_append_left hlt] at hr'; exact h hp ⟨r, r', hr, hr', hsame⟩

theorem Whole.cut (h : log.Whole same) (hn : n ≤ log.head)
    (hcut : log.pruned < n → ¬ log.Adjacent same n) : (log.cut n hn).Whole same := by
  intro hp
  rcases Nat.lt_or_ge log.pruned n with hlt | hge
  · have e : (log.cut n hn).pruned = n := Nat.max_eq_right (Nat.le_of_lt hlt)
    rw [e]; exact hcut hlt
  · have e : (log.cut n hn).pruned = log.pruned := Nat.max_eq_left hge; rw [e] at hp ⊢; exact h hp

end Log

variable {history : List ρ} {start cursor : Nat} {entries : List (Nat × ρ)}

theorem numbered_append (rs rs' : List ρ) (a : Nat) :
    numbered a (rs ++ rs') = numbered a rs ++ numbered (a + rs.length) rs' := by
  induction rs generalizing a with
  | nil => rfl
  | cons r rs ih =>
    rw [cons_append, numbered_cons, ih, numbered_cons, cons_append, length_cons, Nat.add_assoc,
      Nat.add_comm 1]

/-- A reader has read `entries`: those after `start` up to its cursor. -/
def ReadTo (history : List ρ) (start cursor : Nat) (entries : List (Nat × ρ)) : Prop :=
  ∃ count, cursor = start + count ∧ count ≤ (history.drop start).length ∧
    entries = numbered (start + 1) ((history.drop start).take count)

theorem ReadTo.append (h : ReadTo history start cursor entries) (later : List ρ) :
    ReadTo (history ++ later) start cursor entries := by
  obtain ⟨count, hcursor, hle, hentries⟩ := h
  refine ⟨count, hcursor, ?_, ?_⟩
  · rw [drop_append, length_append]
    exact Nat.le_add_right_of_le hle
  · rw [drop_append, take_append_of_le_length hle, hentries]

theorem ReadTo.page {limit : Nat} {last : Nat × ρ} (h : ReadTo history start cursor entries)
    (hlast : (numbered (cursor + 1) ((history.drop cursor).take limit)).getLast? = some last) :
    ReadTo history start last.1
      (entries ++ numbered (cursor + 1) ((history.drop cursor).take limit)) := by
  obtain ⟨count, rfl, hle, rfl⟩ := h
  have hnumber := getLast?_numbered hlast
  rw [← drop_drop] at hnumber ⊢
  have hrest := length_take_le' limit ((history.drop start).drop count)
  rw [length_drop] at hrest
  refine ⟨count + (((history.drop start).drop count).take limit).length, by omega, by omega, ?_⟩
  rw [take_add, numbered_append, length_take_of_le hle, Nat.add_right_comm, length_take,
    ← take_eq_take_min]

end Library
