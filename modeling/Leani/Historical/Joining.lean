import Leani.Historical.Delivery

/-!
# Joining an acquisition that has ended

`tryRegister` looks at the buffer and at who is registered, never at whether the producer ended. A
request that joins after the end gets nothing beyond the frames produced by then, and the recorded
failure after them. `JoinSafe` says for which requests that does not matter.
-/

namespace Leani.Historical

open Library List Option Table AcquisitionState System

variable {μ : Type}

def joinedRange (a : Acquisition μ) (requested : BlockRange) : Nat × Nat :=
  sequenceRange a.range requested.start (min requested.last a.range.last)

def JoinsCompleted (a : Acquisition μ) (subscriberId : Nat) (requested : BlockRange) : Prop :=
  ∀ a' last, a.tryRegister subscriberId requested.start requested.last =
    some (a', last) → a.state.terminal.isSome → ∀ sequence, (joinedRange a requested).1 ≤ sequence →
    sequence < (joinedRange a requested).2 → sequence < a.state.produced ∧ a.state.Holds sequence

def JoinSafe (a : Acquisition μ) (requested : BlockRange) : Prop :=
  a.state.terminal = none ∨
    -- The request starts outside the acquisition, or nobody is registered any more.
    requested.start < a.range.start ∨ a.range.last < requested.start ∨
    a.state.subscribers.isEmpty = true ∨
    -- A produced frame of its range has left the buffer.
    (∃ sequence, (joinedRange a requested).1 ≤ sequence ∧ sequence < (joinedRange a requested).2 ∧
      sequence < a.state.produced ∧ ¬ a.state.Holds sequence) ∨
    -- The producer had passed the end of the range, which is empty only at the end of `u64`.
    (joinedRange a requested).2 ≤ a.state.produced ∨
    (joinedRange a requested).2 ≤ (joinedRange a requested).1

variable {a : Acquisition μ} {received : List (BlockFrame μ)}

theorem retainedIn_eq (h : BufferInv a received) {start stop : Nat}
    (hholds : ∀ sequence, start ≤ sequence → sequence < stop → a.state.Holds sequence) :
    a.state.retainedIn start stop = stop - start := by
  let l := (a.state.frames.filter fun b => start ≤ b.sequence ∧ b.sequence < stop).map
    BufferedFrame.sequence
  have hmem : ∀ n, n ∈ l ↔ n ∈ range' start (stop - start) := by
    intro n
    rw [mem_range'_1]
    constructor
    · intro hn
      obtain ⟨b, hb, rfl⟩ := mem_map.1 hn
      have := of_decide_eq_true (mem_filter.1 hb).2; omega
    · intro hn
      obtain ⟨b, hb, rfl⟩ := hholds n (by omega) (by omega)
      exact mem_map.2 ⟨b, mem_filter.2 ⟨hb, decide_eq_true (by omega)⟩, rfl⟩
  have hnodup : l.Nodup := by
    have hp : (a.state.frames.filter fun b => start ≤ b.sequence ∧ b.sequence < stop).Pairwise
      fun b c => b.sequence < c.sequence := h.ordered.filter _
    exact nodup_iff_pairwise_ne.2 ((pairwise_map.2 hp).imp Nat.ne_of_lt)
  have hperm := (perm_ext_iff_of_nodup hnodup (nodup_range' )).2 hmem
  have := hperm.length_eq; rw [length_map, length_range'] at this; exact this

theorem refuses_eq_false (h : BufferInv a received) {start stop : Nat}
    (hsubs : a.state.subscribers.isEmpty = false) (hholds : ∀ seq, start ≤ seq → seq < stop →
    seq < a.state.produced → a.state.Holds seq) : a.state.refuses start stop = false := by
  simp only [refuses, decide_eq_false_iff_not, not_or, not_and, not_not]
  refine ⟨by simp [hsubs], fun _ => retainedIn_eq h fun seq h₁ h₂ => ?_⟩
  rw [Nat.lt_min] at h₂; exact hholds seq h₁ h₂.1 h₂.2

theorem joinsCompleted_iff (h : BufferInv a received) (subrId : Nat) (reqd : BlockRange) :
    JoinsCompleted a subrId reqd ↔ JoinSafe a reqd := by
  constructor
  · intro hjoins
    by_contra hunsafe
    simp only [JoinSafe, not_or, not_exists, not_and, not_not, Nat.not_lt, Nat.not_le,
      Bool.not_eq_true] at hunsafe
    obtain ⟨hterm, hstart, _, hsubs, hheld, _, _⟩ := hunsafe
    have hrefuses := refuses_eq_false h hsubs hheld
    have hreg : ∃ a' last, a.tryRegister subrId reqd.start reqd.last = some (a', last) := by
      unfold Acquisition.tryRegister
      rw [if_neg (by omega)]; exact ⟨_, _, if_neg (Bool.eq_false_iff.1 hrefuses)⟩
    obtain ⟨a', last, hreg⟩ := hreg
    have := hjoins a' last hreg (isSome_iff_ne_none.2 hterm)
      ((joinedRange a reqd).2 - 1) (by omega) (by omega)
    omega
  · intro hsafe a' last hreg hterm seq h₁ h₂
    obtain ⟨hstart, _, rfl, hrefuses, -⟩ := tryRegister_eq_some hreg
    have hheld : ∀ n, (joinedRange a reqd).1 ≤ n → n < (joinedRange a reqd).2 →
        n < a.state.produced → a.state.Holds n := fun n h₁ h₂ h₃ =>
      holds_of_not_refuses h hrefuses h₁ h₂ h₃
    rcases hsafe with hnone | hout | hout | hempty | ⟨n, hn₁, hn₂, hn₃, hgone⟩ | hpassed | hempty
    · rw [hnone] at hterm; cases hterm
    · omega
    · omega
    · simp only [refuses, hempty, true_or, decide_true, reduceCtorEq] at hrefuses
    · exact absurd (hheld n hn₁ hn₂ hn₃) hgone
    · exact ⟨Nat.lt_of_lt_of_le h₂ hpassed, hheld seq h₁ h₂ (Nat.lt_of_lt_of_le h₂ hpassed)⟩
    · omega

structure Extends (w w' : System μ) : Prop where
  produced : w.acquisition.state.produced ≤ w'.acquisition.state.produced
  stream : ∀ (subscriberId : Nat) st, w.streams[subscriberId]? = some st → ∃ st',
    w'.streams[subscriberId]? = some st' ∧ st'.start = st.start ∧ st'.lastSequence = st.lastSequence

theorem Extends.refl (w : System μ) : Extends w w := ⟨le_rfl, fun _ st h => ⟨st, h, rfl, rfl⟩⟩

variable {w : System μ}

theorem Extends.trans {u v : System μ} (h₁ : Extends u v) (h₂ : Extends v w) : Extends u w := by
  refine ⟨Nat.le_trans h₁.produced h₂.produced, fun id st hst => ?_⟩
  obtain ⟨st', hst', hs', hl'⟩ := h₁.stream id st hst
  obtain ⟨st'', hst'', hs'', hl''⟩ := h₂.stream id st' hst'
  exact ⟨st'', hst'', hs''.trans hs', hl''.trans hl'⟩

variable {w' : System μ}

theorem extends_of_streams (hprod : w.acquisition.state.produced ≤ w'.acquisition.state.produced)
    (hstreams : w'.streams = w.streams) : Extends w w' :=
  ⟨hprod, fun _ st hst => ⟨st, hstreams ▸ hst, rfl, rfl⟩⟩

variable {subscriberId : Nat}

theorem extends_of_insert (hprod : w.acquisition.state.produced ≤ w'.acquisition.state.produced)
 {st st' : Stream μ} (hst : w.streams[subscriberId]? = some st)
    (hstart : st'.start = st.start) (hlast : st'.lastSequence = st.lastSequence)
    (hstreams : w'.streams = w.streams.insert subscriberId st') : Extends w w' := by
  refine ⟨hprod, fun _ u hu => ?_⟩
  rw [hstreams, get?_insert_ite]
  split
  · next e =>
    rw [e, hst, some.injEq] at hu; exact ⟨st', rfl, hu ▸ hstart, hu ▸ hlast⟩
  · exact ⟨u, hu, rfl, rfl⟩

theorem pollOnce_produced (a : Acquisition μ) (sub : MaterialSubscription)
    (cancel : Bool) : (pollOnce a sub cancel).1.state.produced = a.state.produced := by
  unfold pollOnce
  repeat' first | rfl | split

theorem next_produced (a : Acquisition μ) (sub : MaterialSubscription) (cancel : Bool) :
    (sub.next a cancel).1.state.produced = a.state.produced := by
  unfold MaterialSubscription.next
  split
  · rfl
  · split
    · exact pollOnce_produced a sub cancel
    · rw [pollOnce_produced, (startReading_sameWindows a _).produced]

theorem Stream.polled_range (st : Stream μ) (sub : MaterialSubscription)
    (polled : Polled μ) : (st.polled sub polled).start = st.start ∧
      (st.polled sub polled).lastSequence = st.lastSequence := by
  cases polled <;> exact ⟨rfl, rfl⟩

theorem step_extends (h : SystemInv w) (event : Event μ) : Extends w (w.step event) := by
  cases event with
  | register requested =>
    simp only [step, register]
    split
    · exact extends_of_streams le_rfl rfl
    · next a last hreg =>
      obtain ⟨-, -, -, -, rfl⟩ := tryRegister_eq_some hreg
      refine ⟨le_rfl, fun id st hst => ⟨st, ?_, rfl, rfl⟩⟩
      have := (h.stream id st hst).fresh; rw [get?_insert_ite, if_neg (by omega)]; exact hst
  | receive frame =>
    simp only [step, receive]
    split
    · exact .refl w
    · split
      · exact extends_of_streams le_rfl rfl
      · split
        · exact extends_of_streams le_rfl rfl
        · exact extends_of_streams le_rfl rfl
        · next a disposition hne hprepared =>
          obtain ⟨-, -, rfl⟩ := prepareNext_skip hne hprepared
          have := h.acquisition.buffer.produced_le
          exact extends_of_streams (by simp only [satAdd]; omega) rfl
  | push =>
    simp only [step, push]
    split
    · exact .refl w
    · split
      · exact extends_of_streams le_rfl rfl
      · exact .refl w
      · next a hpush =>
        obtain rfl := push_eq_some hpush
        have := h.acquisition.buffer.produced_le
        exact extends_of_streams (by simp only [satAdd]; omega) rfl
  | finish outcome =>
    simp only [step, finish]
    split
    · exact .refl w
    · exact extends_of_streams le_rfl rfl
  | next subscriberId cancelled =>
    simp only [System.step, System.next]
    split
    · exact .refl w
    · next st hst =>
      split
      · exact .refl w
      · exact extends_of_insert (Nat.le_of_eq (next_produced _ _ _).symm) hst
          (st.polled_range _ _).1 (st.polled_range _ _).2 rfl
  | acknowledge subscriberId index =>
    simp only [step, acknowledge]
    split
    · exact .refl w
    · exact extends_of_streams (Nat.le_of_eq (acknowledge_sameWindows _ _ _).produced.symm) rfl
  | unregister subscriberId =>
    simp only [step, unregister]
    split
    · exact .refl w
    · next st hst =>
      exact extends_of_insert (Nat.le_of_eq (unregister_frame _ _).2.1.symm) hst (by rfl) (by rfl)
        rfl

theorem run_extends (h : SystemInv w) (evs : List (Event μ)) : Extends w (w.run evs) := by
  induction evs generalizing w with
  | nil => exact .refl w
  | cons event evs ih => exact (step_extends h event).trans (ih (step_inv h event))

theorem polled_ne_failed (h : SystemInv w)
    {st : Stream μ} (hst : w.streams[subscriberId]? = some st) (hlive : st.dropped = false)
    (hterm : st.subscription.terminal = false) (hprod : ∀ sequence, st.start ≤ sequence →
    sequence < satAdd st.lastSequence 1 → sequence < w.acquisition.state.produced) (cancelled : Bool)
    (error : SourceError) : (st.subscription.next w.acquisition cancelled).2.2 ≠ .failed error := by
  intro hfailed
  obtain ⟨hspec, -⟩ := poll_spec h hst hlive hterm cancelled
  rw [hfailed] at hspec
  cases hspec with
  | failed hend hle _ =>
    have := hprod _ (Nat.le_add_right _ _) hend; omega
  | cancelled hend hle _ =>
    have := hprod _ (Nat.le_add_right _ _) hend; omega

def NeverInherits (w : System μ) (requested : BlockRange) : Prop :=
  w.acquisition.state.terminal.isSome → ∀ a last,
    w.acquisition.tryRegister w.nextSubscriberId requested.start requested.last = some (a, last) →
    ∀ (events : List (Event μ)) st cancelled error,
      ((w.register requested).run events).streams[w.nextSubscriberId]? = some st →
      st.dropped = false → st.subscription.terminal = false →
      (st.subscription.next ((w.register requested).run events).acquisition cancelled).2.2 ≠
        .failed error

theorem neverInherits_of_joinSafe (h : SystemInv w) {reqd : BlockRange}
    (hsafe : JoinSafe w.acquisition reqd) : NeverInherits w reqd := by
  intro hended a last hreg evs st cancel error hst hlive hterm
  have hjoins := (joinsCompleted_iff h.acquisition.buffer w.nextSubscriberId reqd).2 hsafe
    a last hreg hended
  have hinv := register_inv h reqd
  have hextends := run_extends hinv evs
  obtain ⟨-, -, hlast, -, ha⟩ := tryRegister_eq_some hreg
  have hopen : (w.register reqd).streams[w.nextSubscriberId]? =
      some (.open w.nextSubscriberId a reqd.start last) := by
    simp only [register, hreg]; exact getElem?_insert_self _ _ _
  have hsame : (w.register reqd).acquisition.state.produced = w.acquisition.state.produced := by
    simp only [register, hreg, ha]
  obtain ⟨st', hst', hstart, hstop⟩ := hextends.stream _ _ hopen
  obtain rfl : st = st' := some.inj (hst.symm.trans hst')
  refine polled_ne_failed (run_inv hinv evs) hst hlive hterm (fun seq h₁ h₂ => ?_) cancel error
  have hrng : a.range = w.acquisition.range := by rw [ha]
  rw [hstart] at h₁
  rw [hstop] at h₂
  simp only [Stream.open, hrng, hlast] at h₁ h₂
  have := (hjoins seq h₁ h₂).1
  have := hextends.produced; omega

/-- **Joining an ended acquisition**: in every state of every run, a request joins an acquisition
that has ended only with every frame of its range produced and buffered, exactly when `JoinSafe`
holds of it; and then it never sees the recorded failure. -/
theorem tryRegister_joinsCompleted_iff (id maximumBufferedFrames : Nat) (demand : Demand)
    (events : List (Event μ)) (requested : BlockRange) :
    let w := (System.start id maximumBufferedFrames demand).run events
    (JoinsCompleted w.acquisition w.nextSubscriberId requested ↔ JoinSafe w.acquisition requested) ∧
      (JoinSafe w.acquisition requested → NeverInherits w requested) := by
  intro w
  have h := run_inv (start_inv id maximumBufferedFrames demand) events
  exact ⟨joinsCompleted_iff h.acquisition.buffer _ _, neverInherits_of_joinSafe h⟩

/-- A source fails before its first frame while the first subscriber is still there: the second
request joins, and its first poll is that failure. -/
theorem tryRegister_inheritsFailure :
    let w := (System.start (μ := Unit) 0 4 threeBlocks).run
      [.finish (.error (.source "connection lost"))]
    let w' := w.register threeBlocks.logical
    w.acquisition.state.terminal = some (.error (.source "connection lost")) ∧
      w.acquisition.state.produced = 0 ∧
      ∃ st, w'.streams[w.nextSubscriberId]? = some st ∧ st.start = 0 ∧ st.lastSequence = 2 ∧
        (st.subscription.next w'.acquisition false).2.2 = .failed (.source "connection lost") :=
  ⟨rfl, rfl, _, rfl, rfl, rfl, rfl⟩

end Leani.Historical
