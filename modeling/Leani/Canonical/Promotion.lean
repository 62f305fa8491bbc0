import Leani.Canonical.Model

/-!
# Finality promotion follows parent links

`markRecentFinalized` walks the parent hashes down from the finalized block and then promotes the
height interval it proved. `walkParents_spec` says what the walk returns: a height that links reach
from the top, below which either no unfinalized row is left or the links stop. The rows promoted are
therefore exactly the unfinalized rows that parent hashes reach.
-/

namespace Leani.Canonical

open Library List Option Table CanonicalRow Chain Except Prod

variable {μ : Type}

section Walk

variable (row : Nat → Option CanonicalRow)

structure Descending (lowest top : Nat) (rows : List ((Nat × Nat) × CanonicalRow)) : Prop where
  mem_iff : ∀ n r, (∃ c, ((c, n), r) ∈ rows) ↔ row n = some r ∧ lowest ≤ n ∧ n ≤ top
  sorted : rows.Pairwise fun a b => b.1.2 < a.1.2

variable {row}

variable {lowest : Nat} {r : CanonicalRow} {rows : List ((Nat × Nat) × CanonicalRow)}

theorem Descending.head {top : Nat} {c n : Nat}
 (h : Descending row lowest top (((c, n), r) :: rows)) :
    row n = some r ∧ lowest ≤ n ∧ n ≤ top ∧ ∀ m, n < m → m ≤ top → row m = none := by
  obtain ⟨hn, hl, ht⟩ := (h.mem_iff n r).1 ⟨c, mem_cons_self⟩
  refine ⟨hn, hl, ht, fun m _ hmt => ?_⟩
  by_contra hne
  obtain ⟨r', hr'⟩ := ne_none_iff_exists'.1 hne
  obtain ⟨_, hmem⟩ := (h.mem_iff m r').2 ⟨hr', by omega, hmt⟩
  rcases mem_cons.1 hmem with e | hmem
  · simp only [Prod.mk.injEq] at e; omega
  · have := rel_of_pairwise_cons h.sorted hmem; simp only at this; omega

theorem Descending.tail {c n : Nat}
    (h : Descending row lowest (n + 1) (((c, n + 1), r) :: rows)) : Descending row lowest n rows where
  mem_iff m r' := by
    constructor
    · rintro ⟨c', hmem⟩
      obtain ⟨hm, hl, -⟩ := (h.mem_iff m r').1 ⟨c', mem_cons_of_mem _ hmem⟩
      have := rel_of_pairwise_cons h.sorted hmem; simp only at this; exact ⟨hm, hl, by omega⟩
    · rintro ⟨hm, hl, _⟩
      obtain ⟨c', hmem⟩ := (h.mem_iff m r').2 ⟨hm, hl, by omega⟩
      rcases mem_cons.1 hmem with e | hmem
      · simp only [Prod.mk.injEq] at e; omega
      · exact ⟨c', hmem⟩
  sorted := (pairwise_cons.1 h.sorted).2

theorem walkParents_spec {thru : Nat} : ∀ {rows : List ((Nat × Nat) × CanonicalRow)}
    {k res : Nat} {child : CanonicalRow}, Descending row lowest k rows →
    row (k + 1) = some child → walkParents thru (some (k, child.parentHash)) (k + 1) rows =
    .ok res → res ≤ k + 1 ∧ (∀ j, res ≤ j → j ≤ k → Chain.Link row hash parentHash j) ∧
    (res ≤ lowest ∨ ∀ j, j + 1 = res → ¬ Chain.Link row hash parentHash j) := by
  intro rows
  induction rows with
  | nil =>
    intro k res child hd hchild h
    simp only [walkParents, ok.injEq] at h
    subst h
    refine ⟨le_rfl, fun j _ _ => by omega, ?_⟩
    by_cases hl : lowest ≤ k
    · refine .inr fun j hj hlink => ?_
      obtain rfl : j = k := by omega
      obtain ⟨r, hr⟩ := isSome_iff_exists.1 hlink.isSome
      obtain ⟨_, hmem⟩ := (hd.mem_iff j r).2 ⟨hr, hl, le_rfl⟩; cases hmem
    · exact .inl (by omega)
  | cons entry rows ih =>
    intro k res child hd hchild h
    obtain ⟨⟨_, n⟩, r⟩ := entry
    obtain ⟨hn, hl, _, hhole⟩ := hd.head
    have stop : ¬ Chain.Link row hash parentHash k → res = k + 1 → res ≤ k + 1 ∧
        (∀ j, res ≤ j → j ≤ k → Chain.Link row hash parentHash j) ∧
        (res ≤ lowest ∨ ∀ j, j + 1 = res → ¬ Chain.Link row hash parentHash j) := by
      rintro hno rfl
      refine ⟨le_rfl, fun j _ _ => by omega, .inr fun j hj => ?_⟩
      obtain rfl : j = k := by omega
      exact hno
    by_cases hk : k = n
    · subst hk
      simp only [walkParents, filter_some, decide_true, if_true] at h
      by_cases hash : r.hash = child.parentHash
      · rw [if_neg (by simpa using hash)] at h
        have link := (Chain.link_iff hchild hn).2 hash.symm
        cases k with
        | zero =>
          -- At the genesis height the walk ends whatever rows follow.
          have hres : res = 0 := by
            cases rows with
            | nil => simpa [walkParents, eq_comm] using h
            | cons e es => simpa [walkParents, eq_comm] using h
          subst hres
          exact ⟨by omega, fun j _ hj => by obtain rfl : j = 0 := by omega
                                            exact link, .inl (by omega)⟩
        | succ k =>
          simp only [Nat.add_one_ne_zero, if_false, Nat.add_one_sub_one] at h
          obtain ⟨_, h₂, h₃⟩ := ih hd.tail hn h
          refine ⟨by omega, fun j hj _ => ?_, h₃⟩
          rcases Nat.lt_or_ge k j with _ | hge
          · obtain rfl : j = k + 1 := by omega
            exact link
          · exact h₂ j hj hge
      · rw [if_pos (by simpa using hash)] at h
        have hno : ¬ Chain.Link row CanonicalRow.hash CanonicalRow.parentHash k :=
          fun hlink => hash ((Chain.link_iff hchild hn).1 hlink).symm
        split at h
        · rw [ok.injEq] at h; exact stop hno h.symm
        · cases h
    · have hf : (some (k, child.parentHash)).filter (fun e => decide (e.1 = n)) = none := by
        simp [filter, hk]
      simp only [walkParents, hf, ok.injEq] at h
      refine stop (fun hlink => ?_) h.symm
      have := hlink.isSome; rw [hhole k (by omega) le_rfl] at this; cases this

theorem walkParents_top {thru res : Nat} {top : CanonicalRow}
    (hd : Descending row lowest thru rows) (htop : row thru = some top) (hl : lowest ≤ thru)
    (h : walkParents thru (some (thru, top.hash)) thru rows = .ok res) (n : Nat)
    (hn : lowest ≤ n) (hnt : n ≤ thru) : res ≤ n ↔ Chain.PathDown row hash parentHash thru n := by
  obtain ⟨_, hmem⟩ := (hd.mem_iff thru top).2 ⟨htop, hl, le_rfl⟩
  cases rows with
  | nil => cases hmem
  | cons entry rows =>
    obtain ⟨⟨_, m⟩, _⟩ := entry
    obtain ⟨hm, -, _, hhole⟩ := hd.head
    obtain rfl : m = thru := by
      by_contra hne
      have := hhole thru (by omega) le_rfl; rw [htop] at this; cases this
    rw [htop, some.injEq] at hm
    subst hm
    simp only [walkParents, filter_some, decide_true, if_true, ne_eq, not_true_eq_false,
      if_false] at h
    cases m with
    | zero =>
      obtain rfl : n = 0 := by omega
      have hres : res = 0 := by
        cases rows with
        | nil => simpa [walkParents, eq_comm] using h
        | cons e es => simpa [walkParents, eq_comm] using h
      exact ⟨fun _ => .refl htop, fun _ => by omega⟩
    | succ k =>
      simp only [Nat.add_one_ne_zero, if_false, Nat.add_one_sub_one] at h
      obtain ⟨_, h₂, h₃⟩ := walkParents_spec hd.tail htop h
      constructor
      · intro hres
        exact pathDown_iff.2 ⟨hnt, by rw [htop]; rfl, fun j _ _ => h₂ j (by omega) (by omega)⟩
      · intro hpath
        by_contra hlt
        rcases h₃ with _ | hno
        · omega
        · obtain ⟨-, -, hlinks⟩ := pathDown_iff.1 hpath
          cases res with
          | zero => omega
          | succ j => exact hno j rfl (hlinks j (by omega) (by omega))

end Walk

theorem descending_rowsWhere (s : RecentStore μ) (chain lowest top : Nat) :
    Descending (s.row chain) lowest top
      (s.canonical.rowsWhere fun key _ => key.1 = chain ∧ lowest ≤ key.2 ∧ key.2 ≤ top).reverse where
  mem_iff n r := by
    constructor
    · rintro ⟨_, hmem⟩
      rw [mem_reverse, mem_rowsWhere, decide_eq_true_eq] at hmem
      obtain ⟨hrow, rfl, hl, ht⟩ := hmem; exact ⟨hrow, hl, ht⟩
    · rintro ⟨hrow, hl, ht⟩
      refine ⟨chain, ?_⟩
      rw [mem_reverse, mem_rowsWhere, decide_eq_true_eq]; exact ⟨hrow, rfl, hl, ht⟩
  sorted := by
    rw [pairwise_reverse]; exact sorted_heights fun key row h => (of_decide_eq_true h).1

variable {s : RecentStore μ} {chainId through : Nat}

theorem lowestProven_spec {lowest : Nat} {top : CanonicalRow} (hrow : s.row chainId through =
    some top) (h : lowestProven s chainId through top.hash = .ok lowest)
    {n : Nat} {r : CanonicalRow} (hr : s.row chainId n = some r) (hfin : r.finality < .finalized)
    (hn : n ≤ through) : lowest ≤ n ↔ s.PathDown chainId through n := by
  have hmem : ((chainId, n), r) ∈ s.canonical.rowsWhere fun key row =>
      key.1 = chainId ∧ key.2 ≤ through ∧ row.finality < .finalized := by
    rw [mem_rowsWhere, decide_eq_true_eq]; exact ⟨hr, rfl, hn, hfin⟩
  have hsort : (s.canonical.rowsWhere fun key row =>
      key.1 = chainId ∧ key.2 ≤ through ∧ row.finality < .finalized).Pairwise
        fun a b => a.1.2 < b.1.2 :=
    sorted_heights fun key row h => (of_decide_eq_true h).1
  unfold lowestProven at h
  generalize (s.canonical.rowsWhere fun key row =>
    key.1 = chainId ∧ key.2 ≤ through ∧ row.finality < .finalized) = unfinalized
    at hmem hsort h
  cases unfinalized with
  | nil => cases hmem
  | cons entry rest =>
    obtain ⟨⟨_, low⟩, _⟩ := entry
    have hlow : low ≤ n := by
      rcases mem_cons.1 hmem with e | hmem
      · simp only [Prod.mk.injEq] at e; omega
      · have := rel_of_pairwise_cons hsort hmem; simp only at this; omega
    exact walkParents_top (descending_rowsWhere s chainId low through) hrow (by omega) h n hlow hn

variable {expectedHash : BlockHash}

theorem markRecentFinalized_ok {s' : RecentStore μ} {promoted : Nat}
    (h : markRecentFinalized s chainId through expectedHash = .ok (s', promoted)) :
    ∃ top lowest, s.row chainId through = some top ∧ top.hash = expectedHash ∧
      (∀ n r, s.row chainId n = some r → r.finality < .finalized → n ≤ through →
        (lowest ≤ n ↔ s.PathDown chainId through n)) ∧ s' = { s with
        canonical := s.canonical.updateWhere (fun key row => key.1 =
          chainId ∧ lowest ≤ key.2 ∧ key.2 ≤ through ∧ row.finality < .finalized)
          fun row => { row with finality := .finalized } } := by
  simp only [markRecentFinalized, bind_eq_ok, u64I64_eq_ok, ensure_eq_ok] at h
  obtain ⟨_, ⟨-, rfl⟩, _, ⟨-, rfl⟩, -, htop, lowest, hwalk, h⟩ := h
  rw [pure_eq_ok, Prod.mk.injEq] at h
  obtain ⟨top, hrow, hhash⟩ := map_eq_some_iff.1 htop
  refine ⟨top, lowest, hrow, hhash, fun n r hr hfin hn => ?_, h.1.symm⟩
  rw [← hhash] at hwalk; exact lowestProven_spec hrow hwalk hr hfin hn

structure PromotesByLinks (s s' : RecentStore μ) (chainId through : Nat)
    (expectedHash : BlockHash) : Prop where
  anchored : ∃ top, s.row chainId through = some top ∧ top.hash = expectedHash
  promoted : ∀ n r r', s.row chainId n = some r → s'.row chainId n = some r' → r' ≠ r →
    r.finality < .finalized ∧ r' = { r with finality := .finalized } ∧ s.PathDown chainId through n
  complete : ∀ n r, s.row chainId n = some r → s.PathDown chainId through n →
    s'.row chainId n = some { r with finality := .finalized }
  above : ∀ n, through < n → s'.row chainId n = s.row chainId n
  rows : ∀ n, (s'.row chainId n).isSome = (s.row chainId n).isSome
  otherChains : ∀ c n, c ≠ chainId → s'.row c n = s.row c n
  frames : s'.recent = s.recent ∧ s'.locators = s.locators

theorem promotesByLinks_of_ok {s' : RecentStore μ} {promoted : Nat}
    (h : markRecentFinalized s chainId through expectedHash = .ok (s', promoted)) :
    PromotesByLinks s s' chainId through expectedHash := by
  obtain ⟨top, _, htop, hhash, hreach, rfl⟩ := markRecentFinalized_ok h
  refine ⟨⟨top, htop, hhash⟩, fun n r _ hr hr' hne => ?_, fun n r hr hpath => ?_, fun n _ => ?_,
    fun n => ?_, fun _ n hc => ?_, rfl, rfl⟩
  · obtain ⟨u, hu, hr'⟩ := get?_updateWhere_eq_some.1 hr'
    obtain rfl : r = u := some.inj (hr.symm.trans hu)
    split at hr'
    · next hp =>
      simp only [decide_eq_true_eq] at hp
      exact ⟨hp.2.2.2, hr'.symm, (hreach n r hr hp.2.2.2 hp.2.2.1).1 hp.2.1⟩
    · exact absurd hr'.symm hne
  · refine get?_updateWhere_eq_some.2 ⟨r, hr, ?_⟩
    by_cases hfin : r.finality < .finalized
    · rw [if_pos]
      simp only [decide_eq_true_eq]
      exact ⟨trivial, (hreach n r hr hfin hpath.le).2 hpath, hpath.le, hfin⟩
    · rw [if_neg (by simp [hfin])]
      rw [Finality.lt_finalized_iff, ne_eq, not_not] at hfin; rw [← hfin]
  · refine get?_updateWhere_of_not fun v _ => ?_
    simp only [decide_eq_true_eq]; omega
  · rw [row_mk, get?_updateWhere, isSome_map]; rfl
  · refine get?_updateWhere_of_not fun v _ => ?_
    simp only [decide_eq_true_eq]; exact fun hp => hc hp.1

/-- **Finality promotion follows parent links**: for every table and call, either the rows promoted
are exactly the unfinalized ones that parent hashes reach from `through`, or the call failed and
changed nothing. -/
theorem markRecentFinalized_promotesByLinks (s : RecentStore μ) (chainId through : Nat)
    (expectedHash : BlockHash) :
    match markRecentFinalized s chainId through expectedHash with
    | .ok (s', _) => PromotesByLinks s s' chainId through expectedHash
    | .error _ => commit s (markRecentFinalized s chainId through expectedHash) = s := by
  cases h : markRecentFinalized s chainId through expectedHash with
  | ok r => exact promotesByLinks_of_ok h
  | error e => rfl

end Leani.Canonical
