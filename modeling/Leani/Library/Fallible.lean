import Mathlib.Tactic.Common

/-!
# Fallible computations

Inversion rules for `Except` programs written with `do`: what a successful bind, guard or
traversal says about its parts.
-/

namespace Library

open List Except Functor

universe u v w

variable {ε : Type u} {α β : Type v}

def ensure (p : Prop) [Decidable p] (e : ε) : Except ε Unit :=
  if p then .ok () else .error e

variable {p : Prop} {e : ε}

@[simp] theorem ensure_eq_ok [Decidable p] {u : Unit} : ensure p e = .ok u ↔ p := by
  unfold ensure
  split <;> simp_all

theorem ensure_of [Decidable p] (e : ε) (h : p) : ensure p e = .ok () :=
  ensure_eq_ok.2 h

def required (a : Option α) (e : ε) : Except ε α :=
  match a with
  | some a => .ok a
  | none => .error e

variable {a : Option α}

@[simp] theorem required_eq_ok {b : α} : required a e = .ok b ↔ a = some b := by
  unfold required
  split <;> simp

variable {x : Except ε α}

theorem bind_eq_ok {f : α → Except ε β} {b : β} :
    (x >>= f) = .ok b ↔ ∃ a, x = .ok a ∧ f a = .ok b := by
  cases x with
  | error e => simp [bind, Except.bind]
  | ok a => simp [bind, Except.bind]

theorem bind_eq_error {f : α → Except ε β} :
    (x >>= f) = .error e ↔ x = .error e ∨ ∃ a, x = .ok a ∧ f a = .error e := by
  cases x with
  | error e' => simp [bind, Except.bind]
  | ok a => simp [bind, Except.bind]

theorem ensure_eq_error [Decidable p] {e' : ε} : ensure p e = .error e' ↔ ¬ p ∧ e = e' := by
  unfold ensure
  split <;> simp_all

theorem required_eq_error {e' : ε} : required a e = .error e' ↔ a = none ∧ e = e' := by
  unfold required
  split <;> simp_all

theorem pure_ne_error {a : α} : (pure a : Except ε α) ≠ .error e := nofun

theorem map_eq_ok {f : α → β} {b : β} : (f <$> x) = .ok b ↔ ∃ a, x = .ok a ∧ f a = b := by
  cases x with
  | error e => simp [Functor.map, Except.map]
  | ok a => simp [Functor.map, Except.map]

theorem pure_eq_ok {a b : α} : (pure a : Except ε α) = .ok b ↔ a = b := by
  simp [pure, Except.pure]

/-- The rules that take a successful `do` block apart, as one rule for `simp`. -/
theorem eq_ok {ε : Type} : (∀ {α β : Type} {x : Except ε α} {f : α → Except ε β} {b : β},
      (x >>= f) = .ok b ↔ ∃ a, x = .ok a ∧ f a = .ok b) ∧
    (∀ {α : Type} {a b : α}, (pure a : Except ε α) = .ok b ↔ a = b) ∧
    (∀ {p : Prop} [Decidable p] {e : ε} {u : Unit}, ensure p e = .ok u ↔ p) ∧
    ∀ {α : Type} {a : Option α} {e : ε} {b : α}, required a e = .ok b ↔ a = some b :=
  ⟨bind_eq_ok, pure_eq_ok, ensure_eq_ok, required_eq_ok⟩

theorem ok_bind (a : α) (f : α → Except ε β) : (ok a >>= f) = f a := rfl

theorem error_bind (e : ε) (f : α → Except ε β) : ((error e : Except ε α) >>= f) = .error e :=
  rfl

variable {bs : List β}

theorem mapM_cons_eq_ok {γ : Type w} {f : γ → Except ε β} {a : γ} {as : List γ} :
    (a :: as).mapM f = .ok bs ↔ ∃ b bs', f a = .ok b ∧ as.mapM f = .ok bs' ∧ b :: bs' = bs := by
  simp only [mapM_cons, bind_eq_ok, pure_eq_ok]
  constructor
  · rintro ⟨b, hb, bs', hbs, h⟩; exact ⟨b, bs', hb, hbs, h⟩
  · rintro ⟨b, bs', hb, hbs, h⟩; exact ⟨b, hb, bs', hbs, h⟩

theorem mem_of_mapM_eq_ok {γ : Type w} {f : γ → Except ε β} {as : List γ} :
    ∀ {bs : List β}, as.mapM f = .ok bs → ∀ b, b ∈ bs ↔ ∃ a ∈ as, f a = .ok b := by
  induction as with
  | nil =>
    intro bs h b; cases h; simp
  | cons a as ih =>
    intro bs h b
    obtain ⟨_, _, hc, hcs, rfl⟩ := mapM_cons_eq_ok.1 h
    rw [mem_cons, ih hcs]
    constructor
    · rintro (rfl | ⟨a', ha', hb⟩)
      · exact ⟨a, mem_cons_self, hc⟩
      · exact ⟨a', mem_cons_of_mem _ ha', hb⟩
    · rintro ⟨a', ha', hb⟩
      rcases mem_cons.1 ha' with rfl | ha'
      · rw [hc, ok.injEq] at hb; exact .inl hb.symm
      · exact .inr ⟨a', ha', hb⟩

theorem answer_of_mapM_eq_ok {γ : Type w} {f : γ → Except ε β} {as : List γ} :
    ∀ {bs : List β}, as.mapM f = .ok bs → ∀ a ∈ as, ∃ b ∈ bs, f a = .ok b := by
  induction as with
  | nil => exact fun _ a ha => nomatch ha
  | cons a as ih =>
    intro bs h a' ha'
    obtain ⟨c, _, hc, hcs, rfl⟩ := mapM_cons_eq_ok.1 h
    rcases mem_cons.1 ha' with rfl | ha'
    · exact ⟨c, mem_cons_self, hc⟩
    · obtain ⟨b, hb, hf⟩ := ih hcs a' ha'; exact ⟨b, mem_cons_of_mem _ hb, hf⟩

theorem exists_mapM_eq_ok {γ : Type w} {f : γ → Except ε β} {as : List γ}
    (h : ∀ a ∈ as, ∃ b, f a = .ok b) : ∃ bs, as.mapM f = .ok bs := by
  induction as with
  | nil => exact ⟨[], rfl⟩
  | cons a as ih =>
    obtain ⟨b, hb⟩ := h a mem_cons_self
    obtain ⟨bs, hbs⟩ := ih (forall_mem_cons.1 h).2
    exact ⟨b :: bs, mapM_cons_eq_ok.2 ⟨b, bs, hb, hbs, rfl⟩⟩

theorem mapM_eq_ok_iff {γ : Type w} {δ : Type v} {f : γ → Except ε β} {P : δ → Prop} {g : δ → γ}
    {k : δ → β} {as : List γ} (h : ∀ a ∈ as, ∀ b, f a = .ok b ↔ ∃ d, P d ∧ g d = a ∧ k d = b) :
    ∀ {bs : List β}, as.mapM f = .ok bs ↔ ∃ ds : List δ,
      (∀ d ∈ ds, P d) ∧ ds.map g = as ∧ ds.map k = bs := by
  induction as with
  | nil =>
    intro bs
    rw [mapM_nil, pure_eq_ok]
    constructor
    · rintro rfl; exact ⟨[], nofun, rfl, rfl⟩
    · rintro ⟨ds, -, hds, rfl⟩; rw [map_eq_nil_iff.1 hds]; rfl
  | cons a as ih =>
    intro bs
    obtain ⟨ha, has⟩ := forall_mem_cons.1 h
    simp only [mapM_cons_eq_ok, ha, ih has]
    constructor
    · rintro ⟨_, _, ⟨d, hd, rfl, rfl⟩, ⟨ds, hds, rfl, rfl⟩, rfl⟩
      exact ⟨d :: ds, forall_mem_cons.2 ⟨hd, hds⟩, rfl, rfl⟩
    · rintro ⟨ds, hds, hmap, rfl⟩
      obtain ⟨d, ds, rfl, rfl, rfl⟩ := map_eq_cons_iff.1 hmap
      obtain ⟨hd, hds⟩ := forall_mem_cons.1 hds
      exact ⟨_, _, ⟨d, hd, rfl, rfl⟩, ⟨ds, hds, rfl, rfl⟩, rfl⟩

theorem mapM_eq_ok_iff_getElem? {γ : Type w} {f : γ → Except ε β} {as : List γ} :
    ∀ {bs : List β}, as.mapM f = .ok bs ↔ bs.length = as.length ∧
      ∀ (i : Nat) a b, as[i]? = some a → bs[i]? = some b → f a = .ok b := by
  induction as with
  | nil =>
    intro bs
    rw [mapM_nil, pure_eq_ok]
    constructor
    · rintro rfl; exact ⟨rfl, nofun⟩
    · rintro ⟨hlen, -⟩; exact (eq_nil_of_length_eq_zero hlen).symm
  | cons a as ih =>
    intro bs
    simp only [mapM_cons_eq_ok, ih]
    constructor
    · rintro ⟨b, bs, hb, ⟨hlen, hbs⟩, rfl⟩
      refine ⟨by simpa using hlen, ?_⟩
      intro i a' b' ha' hb'
      cases i with
      | zero =>
        cases ha'; cases hb'; exact hb
      | succ i => exact hbs i a' b' ha' hb'
    · rintro ⟨hlen, h⟩
      cases bs with
      | nil => cases hlen
      | cons b bs =>
        refine ⟨b, bs, h 0 a b rfl rfl, ⟨by simpa using hlen, ?_⟩, rfl⟩
        intro i a' b' ha' hb'; exact h (i + 1) a' b' ha' hb'

theorem mapM_range_eq_ok {f : Nat → Except ε β} {n : Nat} : (range n).mapM f = .ok bs ↔
      bs.length = n ∧ ∀ (i : Nat) b, bs[i]? = some b → f i = .ok b := by
  rw [mapM_eq_ok_iff_getElem?, length_range]
  refine and_congr_right fun hlen => ?_
  constructor
  · intro h i b hb
    have hi := (List.getElem?_eq_some_iff.1 hb).1
    exact h i i b (List.getElem?_range (hlen ▸ hi)) hb
  · intro h i _ b ha hb
    obtain ⟨hi, rfl⟩ := List.getElem?_eq_some_iff.1 ha; rw [List.getElem_range]; exact h i b hb

variable {σ : Type v} {γ : Type w}

/-- Run `f` over a list, the state of one element feeding the next; the first failure stops it. -/
def foldExcept (f : σ → γ → Except ε σ) : σ → List γ → Except ε σ
  | s, [] => .ok s
  | s, a :: as => do
    let s' ← f s a
    foldExcept f s' as

@[simp] theorem foldExcept_nil (f : σ → γ → Except ε σ) (s : σ) : foldExcept f s [] = .ok s := rfl

@[simp] theorem foldExcept_cons (f : σ → γ → Except ε σ) (s : σ) (a : γ) (as : List γ) :
    foldExcept f s (a :: as) = f s a >>= fun s' => foldExcept f s' as := rfl

variable {f : σ → γ → Except ε σ}

theorem exists_of_foldExcept_eq_error :
    ∀ {as : List γ} {s : σ}, foldExcept f s as = .error e → ∃ t, ∃ a ∈ as, f t a = .error e := by
  intro as
  induction as with
  | nil => intro s h; cases h
  | cons a as ih =>
    intro s h
    rw [foldExcept_cons, bind_eq_error] at h
    rcases h with h | ⟨t, -, h⟩
    · exact ⟨s, a, mem_cons_self, h⟩
    · obtain ⟨t, b, hb, h⟩ := ih h; exact ⟨t, b, mem_cons_of_mem _ hb, h⟩

variable {as : List γ}

theorem forall_of_foldExcept_eq_ok {f : γ → Except ε PUnit} :
    foldExcept (fun _ a => f a) ⟨⟩ as = .ok ⟨⟩ → ∀ a ∈ as, f a = .ok ⟨⟩ := by
  induction as with
  | nil => exact fun _ _ h => nomatch h
  | cons a as ih =>
    intro h b hb
    rw [foldExcept_cons, bind_eq_ok] at h
    obtain ⟨_, hu, h⟩ := h
    rcases mem_cons.1 hb with rfl | hb
    · exact hu
    · exact ih h b hb

theorem foldExcept_eq_ok_of_forall {f : γ → Except ε PUnit}
    (h : ∀ a ∈ as, f a = .ok ⟨⟩) : foldExcept (fun _ a => f a) ⟨⟩ as = .ok ⟨⟩ := by
  induction as with
  | nil => rfl
  | cons a as ih =>
    rw [foldExcept_cons, bind_eq_ok]; exact ⟨⟨⟩, h a mem_cons_self, ih (forall_mem_cons.1 h).2⟩

theorem foldExcept_invariant (P : σ → Prop) : ∀ {as : List γ} {s s' : σ},
    (∀ {t a t'}, a ∈ as → P t → f t a = .ok t' → P t') → P s → foldExcept f s as = .ok s' → P s' := by
  intro as
  induction as with
  | nil =>
    intro s s' _ hs h; rw [foldExcept_nil, ok.injEq] at h; exact h ▸ hs
  | cons a as ih =>
    intro s s' step hs h
    rw [foldExcept_cons, bind_eq_ok] at h
    obtain ⟨t, ht, h⟩ := h
    exact ih (fun ha => step (mem_cons_of_mem _ ha)) (step mem_cons_self hs ht) h

/-- Run `f` over a list, each element a transaction of its own: the first failure stops the run and
keeps what the elements before it did. -/
def foldKeeping (f : σ → γ → Except ε σ) : σ → List γ → σ × Except ε Unit
  | s, [] => (s, .ok ())
  | s, a :: as =>
    match f s a with
    | .ok s' => foldKeeping f s' as
    | .error e => (s, .error e)

theorem foldKeeping_invariant {f : σ → γ → Except ε σ} (P : σ → Prop) {as : List γ} : ∀ {s : σ},
    (∀ {t a t'}, a ∈ as → P t → f t a = .ok t' → P t') → P s → P (foldKeeping f s as).1 := by
  induction as with
  | nil => exact fun _ hs => hs
  | cons a as ih =>
    intro s step hs
    rw [foldKeeping]
    split
    · rename_i s' h; exact ih (fun ha => step (mem_cons_of_mem _ ha)) (step mem_cons_self hs h)
    · exact hs

theorem foldExcept_mark {κ : Type v} {f : List κ → γ → Except ε (List κ)} {key : γ → κ}
    {P : List κ → γ → Prop} {R : γ → γ → Prop} :
    ∀ {acc acc' : List κ}, (∀ {t a t'}, a ∈ as → f t a = .ok t' →
        t ⊆ t' ∧ (∀ m ∈ t', m ∈ t ∨ m = key a) ∧ (P t a → key a ∈ t')) →
      as.Pairwise R → foldExcept f acc as = .ok acc' →
      acc ⊆ acc' ∧ (∀ m ∈ acc', m ∈ acc ∨ ∃ b ∈ as, key b = m) ∧ ∀ a ∈ as, ∃ t, t ⊆ acc' ∧
        (∀ m ∈ acc', m ∈ t ∨ ∃ b, (b = a ∨ R a b) ∧ key b = m) ∧ (P t a → key a ∈ acc') := by
  induction as with
  | nil =>
    intro acc acc' _ _ h
    rw [foldExcept_nil, ok.injEq] at h
    subst h; exact ⟨List.Subset.refl _, fun m hm => .inl hm, by simp⟩
  | cons a as ih =>
    intro acc acc' step hsort h
    rw [foldExcept_cons, bind_eq_ok] at h
    obtain ⟨t, ht, h⟩ := h
    rw [pairwise_cons] at hsort
    obtain ⟨hsub, hnew, hmark⟩ := step mem_cons_self ht
    obtain ⟨hsub', hnew', hrest⟩ :=
      ih (fun ha => step (mem_cons_of_mem _ ha)) hsort.2 h
    have hsplit : ∀ m ∈ acc', m ∈ acc ∨ m = key a ∨ ∃ b ∈ as, key b = m := fun m hm => by
      rcases hnew' m hm with hm | hm
      · exact (hnew m hm).imp_right .inl
      · exact .inr (.inr hm)
    refine ⟨List.Subset.trans hsub hsub', fun m hm => ?_, fun b hb => ?_⟩
    · rcases hsplit m hm with hm | rfl | ⟨b, hb, hm⟩
      · exact .inl hm
      · exact .inr ⟨a, mem_cons_self, rfl⟩
      · exact .inr ⟨b, mem_cons_of_mem _ hb, hm⟩
    · rcases mem_cons.1 hb with rfl | hb
      · refine ⟨acc, List.Subset.trans hsub hsub', fun m hm => ?_, fun hP => hsub' (hmark hP)⟩
        rcases hsplit m hm with hm | rfl | ⟨c, hc, hm⟩
        · exact .inl hm
        · exact .inr ⟨b, .inl rfl, rfl⟩
        · exact .inr ⟨c, .inr (hsort.1 c hc), hm⟩
      · exact hrest b hb

end Library
