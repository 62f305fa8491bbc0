import Leani.Historical.Acquisition
import Mathlib.Data.List.Perm.Subperm
import Mathlib.Data.List.TakeWhile

/-!
# Invariant of a shared acquisition

`AcquisitionInv` says what holds between the buffer, the producing position and the subscribers:
frames wait in order under their sequences, and whatever a subscriber has yet to acknowledge of the
produced part of its range is buffered. Every operation keeps it. `pollOnce_cases` lists what one
poll can do under it.
-/

namespace Leani.Historical

open Library List Option Table Acquisition BufferedFrame

variable {μ : Type}

structure BufferInv (a : Acquisition μ) (received : List (BlockFrame μ)) : Prop where
  ordered : a.state.frames.Pairwise fun b c => b.sequence < c.sequence
  content : ∀ b ∈ a.state.frames, received[b.sequence]? = some b.frame
  produced : a.state.produced = received.length
  produced_le : a.state.produced ≤ u64Max
  numbers : ∀ i frame, received[i]? = some frame → frame.block.number = satAdd a.range.start i

def AcquisitionState.Holds (s : AcquisitionState μ) (sequence : Nat) : Prop :=
  ∃ b ∈ s.frames, b.sequence = sequence

structure ProgressInv (s : AcquisitionState μ) (p : SubscriberProgress) : Prop where
  acknowledged_le : p.acknowledged ≤ p.delivered
  delivered_le : p.delivered ≤ p.endExclusive
  end_le : p.endExclusive ≤ u64Max
  ahead : s.produced < p.delivered → p.acknowledged = p.delivered
  retained : ∀ sequence, p.acknowledged ≤ sequence → sequence < p.endExclusive →
    sequence < s.produced → s.Holds sequence

structure AcquisitionInv (a : Acquisition μ) (received : List (BlockFrame μ)) : Prop where
  buffer : BufferInv a received
  progress : ∀ (subscriberId : Nat) p, a.state.subscribers[subscriberId]? = some p →
    ProgressInv a.state p

theorem satAdd_le_max (a b : Nat) : satAdd a b ≤ u64Max := Nat.min_le_right ..

variable {a : Acquisition μ} {received : List (BlockFrame μ)}

theorem BufferInv.lt_produced (h : BufferInv a received)
    {b : BufferedFrame μ} (hb : b ∈ a.state.frames) : b.sequence < a.state.produced := by
  rw [h.produced]; exact (List.getElem?_eq_some_iff.1 (h.content b hb)).1

variable {a' : Acquisition μ}

theorem BufferInv.of_sublist (h : BufferInv a received)
    (hfrs : a'.state.frames.Sublist a.state.frames) (hprod : a'.state.produced = a.state.produced)
    (hrng : a'.range = a.range) : BufferInv a' received where
  ordered := h.ordered.sublist hfrs
  content := fun b hb => h.content b (hfrs.subset hb)
  produced := hprod.trans h.produced
  produced_le := hprod ▸ h.produced_le
  numbers := hrng ▸ h.numbers

variable {s : AcquisitionState μ} {p : SubscriberProgress}

theorem ProgressInv.congr {s' : AcquisitionState μ}
    (h : ProgressInv s p) (hprod : s'.produced = s.produced)
    (hholds : ∀ seq, p.acknowledged ≤ seq → s.Holds seq → s'.Holds seq) : ProgressInv s' p where
  acknowledged_le := h.acknowledged_le
  delivered_le := h.delivered_le
  end_le := h.end_le
  ahead := hprod ▸ h.ahead
  retained := fun seq h₁ h₂ h₃ => hholds seq h₁ (h.retained seq h₁ h₂ (hprod ▸ h₃))

variable {subscriberId : Nat}

theorem minAcknowledged_le {acknowledged : Nat} (hp : s.subscribers[subscriberId]? = some p)
    (h : s.minAcknowledged = some acknowledged) : acknowledged ≤ p.acknowledged := by
  have hmem : p.acknowledged ∈ s.subscribers.toList.map fun entry => entry.2.acknowledged :=
    mem_map.2 ⟨(subscriberId, p), mem_toList.2 hp, rfl⟩
  exact (min?_eq_some_iff.1 h).2 _ hmem

@[simp] theorem pruneAcknowledged_produced (s : AcquisitionState μ) :
    (pruneAcknowledged s).produced = s.produced := by
  unfold pruneAcknowledged
  split <;> rfl

@[simp] theorem pruneAcknowledged_subscribers (s : AcquisitionState μ) :
    (pruneAcknowledged s).subscribers = s.subscribers := by
  unfold pruneAcknowledged
  split <;> rfl

theorem pruneAcknowledged_frames (s : AcquisitionState μ) :
    (pruneAcknowledged s).frames.Sublist s.frames := by
  unfold pruneAcknowledged
  split
  · exact List.Sublist.refl _
  · exact dropWhile_sublist _

theorem mem_dropWhile {α : Type} {p : α → Bool} {l : List α} {x : α} (hx : x ∈ l)
    (hp : ¬ p x = true) : x ∈ l.dropWhile p := by
  rw [← takeWhile_append_dropWhile (p := p) (l := l), mem_append] at hx
  exact hx.resolve_left fun h => hp (mem_takeWhile_imp h)

variable {sequence : Nat}

theorem pruneAcknowledged_holds (hp : s.subscribers[subscriberId]? = some p)
    (hle : p.acknowledged ≤ sequence) (h : s.Holds sequence) :
    (pruneAcknowledged s).Holds sequence := by
  unfold pruneAcknowledged
  split
  · exact h
  · next acknowledged hmin =>
    obtain ⟨b, hb, rfl⟩ := h
    have := minAcknowledged_le hp hmin
    exact ⟨b, mem_dropWhile hb (by simp only [decide_eq_true_eq]; omega), rfl⟩

theorem AcquisitionInv.prune {a a' : Acquisition μ} {received : List (BlockFrame μ)}
    (h : BufferInv a received) (hrng : a'.range = a.range) {s : AcquisitionState μ}
    (hfrs : s.frames = a.state.frames) (hprod : s.produced = a.state.produced)
    (hsubs : ∀ (subrId : Nat) p, s.subscribers[subrId]? = some p → ProgressInv s p)
    (hst : a'.state = pruneAcknowledged s) : AcquisitionInv a' received := by
  refine ⟨h.of_sublist ?_ ?_ hrng, fun subrId p hp => ?_⟩
  · rw [hst, ← hfrs]; exact pruneAcknowledged_frames s
  · rw [hst, pruneAcknowledged_produced, hprod]
  · rw [hst, pruneAcknowledged_subscribers] at hp
    rw [hst]
    exact (hsubs subrId p hp).congr (pruneAcknowledged_produced s) fun _ hle hheld =>
      pruneAcknowledged_holds hp hle hheld

variable {range : BlockRange}

variable {last : Nat}

theorem sequenceRange_le {first : Nat} (h : first ≤ last) (hlast : last ≤ u64Max) :
    (sequenceRange range first last).1 ≤ (sequenceRange range first last).2 := by
  simp only [sequenceRange, satAdd]; omega

variable {start stop : Nat}

theorem progressInv_new (hle : start ≤ stop) (hstop : stop ≤ u64Max)
    (hret : ∀ sequence, start ≤ sequence → sequence < stop → sequence < s.produced → s.Holds sequence) :
    ProgressInv s (.new start stop) where
  acknowledged_le := le_rfl
  delivered_le := hle
  end_le := hstop
  ahead := fun _ => rfl
  retained := hret

theorem acquisitionInv_new {id maximumBufferedFrames firstSubscriber : Nat}
    {firstRange : BlockRange} :
    AcquisitionInv (μ := μ) (.new id maximumBufferedFrames range firstRange firstSubscriber) [] := by
  refine ⟨⟨List.Pairwise.nil, by simp [new], rfl, Nat.zero_le _, by simp⟩, fun _ _ hp => ?_⟩
  simp only [new, get?_insert_ite] at hp
  split at hp
  · cases hp
    exact progressInv_new (sequenceRange_le firstRange.start_le_last firstRange.last_le)
      (satAdd_le_max _ _) fun _ _ _ h => absurd h (Nat.not_lt_zero _)
  · simp at hp

theorem mem_of_increasing {l : List Nat} (hl : l.Pairwise (· < ·)) (hbound : ∀ n ∈ l, start ≤ n ∧
    n < stop) (hlen : l.length = stop - start) {n : Nat} (hn : start ≤ n ∧ n < stop) : n ∈ l := by
  have hsub : l.Subperm (range' start (stop - start)) := by
    refine subperm_of_subset (hl.imp Nat.ne_of_lt) fun m hm => ?_
    have := hbound m hm; rw [mem_range'_1]; omega
  have hperm := hsub.perm_of_length_le (by rw [length_range', hlen])
  rw [hperm.mem_iff, mem_range'_1]; omega

theorem holds_of_not_refuses {a : Acquisition μ} {received : List (BlockFrame μ)}
    (h : BufferInv a received) (hrefuses : a.state.refuses start stop = false) {seq : Nat}
    (hstart : start ≤ seq) (hstop : seq < stop)
    (hprod : seq < a.state.produced) : a.state.Holds seq := by
  simp only [AcquisitionState.refuses, decide_eq_false_iff_not, not_or, not_and, not_not] at hrefuses
  have hcount := hrefuses.2 (by omega)
  have hmem : seq ∈ (a.state.frames.filter fun b =>
      start ≤ b.sequence ∧ b.sequence < min stop a.state.produced).map BufferedFrame.sequence := by
    refine mem_of_increasing ?_ ?_ ?_ ⟨hstart, Nat.lt_min.2 ⟨hstop, hprod⟩⟩
    · rw [pairwise_map]; exact h.ordered.filter _
    · intro _ hn
      obtain ⟨b, hb, rfl⟩ := mem_map.1 hn; exact of_decide_eq_true (mem_filter.1 hb).2
    · rw [length_map]; exact hcount
  obtain ⟨b, hb, rfl⟩ := mem_map.1 hmem; exact ⟨b, (mem_filter.1 hb).1, rfl⟩

theorem tryRegister_eq_some {reqStart reqEnd : Nat}
    (h : a.tryRegister subscriberId reqStart reqEnd = some (a', last)) :
    a.range.start ≤ reqStart ∧ reqStart ≤ a.range.last ∧ last = min reqEnd a.range.last ∧
      a.state.refuses (sequenceRange a.range reqStart last).1
        (sequenceRange a.range reqStart last).2 = false ∧ a' = { a with
        state := { a.state with
          subscribers := a.state.subscribers.insert subscriberId
            (.new (sequenceRange a.range reqStart last).1 (sequenceRange a.range reqStart last).2)
          requestedRanges :=
            a.state.requestedRanges ++ [sequenceRange a.range reqStart last] } } := by
  unfold tryRegister at h
  split at h
  · cases h
  · next hrange =>
    simp only at h
    split at h
    · cases h
    · next hrefuses =>
      simp only [some.injEq, Prod.mk.injEq] at h
      obtain ⟨rfl, rfl⟩ := h; exact ⟨by omega, by omega, rfl, Bool.eq_false_iff.2 hrefuses, rfl⟩

theorem AcquisitionInv.tryRegister (h : AcquisitionInv a received) {reqStart reqEnd : Nat}
    (hle : reqStart ≤ reqEnd) (hreg : a.tryRegister subscriberId reqStart reqEnd = some (a', last)) :
    AcquisitionInv a' received := by
  obtain ⟨-, hin, rfl, hrefuses, rfl⟩ := tryRegister_eq_some hreg
  refine ⟨h.buffer.of_sublist (List.Sublist.refl _) rfl rfl, fun id p hp => ?_⟩
  simp only [get?_insert_ite] at hp
  split at hp
  · cases hp
    refine progressInv_new (sequenceRange_le (Nat.le_min.2 ⟨hle, hin⟩) ?_) (satAdd_le_max _ _)
      fun _ h₁ h₂ h₃ => holds_of_not_refuses h.buffer hrefuses h₁ h₂ h₃
    exact Nat.le_trans (Nat.min_le_right _ _) a.range.last_le
  · exact (h.progress id p hp).congr rfl fun _ _ hheld => hheld

variable {frame : BlockFrame μ}

theorem prepareNext_retain (h : a.prepareNext frame = .ok (a', .retain)) :
    a' = a ∧ frame.block.number = satAdd a.range.start a.state.produced ∧
    ∃ (subrId : Nat) (p : SubscriberProgress), a.state.subscribers[subrId]? =
    some p ∧ p.delivered ≤ a.state.produced ∧ a.state.produced < p.endExclusive := by
  unfold prepareNext at h
  split at h
  · cases h
  · simp only at h
    split at h
    · cases h
    · next hnum =>
      split at h
      · next hneeded =>
        simp only [Except.ok.injEq, Prod.mk.injEq, and_true] at h
        obtain ⟨⟨id, p⟩, hmem, hp⟩ := any_eq_true.1 hneeded
        rw [decide_eq_true_eq] at hp; exact ⟨h.symm, not_not.1 hnum, id, p, mem_toList.1 hmem, hp⟩
      · simp only [Except.ok.injEq, Prod.mk.injEq] at h
        obtain ⟨-, h⟩ := h
        split at h <;> cases h

variable {disposition : NextFrameDisposition}

theorem prepareNext_skip (hne : disposition ≠ .retain) (h : a.prepareNext frame =
    .ok (a', disposition)) : frame.block.number = satAdd a.range.start a.state.produced ∧
    (∀ (subrId : Nat) (p : SubscriberProgress), a.state.subscribers[subrId]? =
    some p → p.delivered ≤ a.state.produced → p.endExclusive ≤ a.state.produced) ∧ a' = { a with
        state := { a.state with
          produced := satAdd a.state.produced 1
          baseSequence :=
            if a.state.frames.isEmpty then satAdd a.state.produced 1
            else a.state.baseSequence } } := by
  unfold prepareNext at h
  split at h
  · cases h
  · simp only at h
    split at h
    · cases h
    · next hnum =>
      split at h
      · simp only [Except.ok.injEq, Prod.mk.injEq] at h; exact absurd h.2.symm hne
      · next hneeded =>
        simp only [Except.ok.injEq, Prod.mk.injEq] at h
        refine ⟨not_not.1 hnum, fun id p hp hle => ?_, h.1.symm⟩
        by_contra hlt
        refine hneeded (any_eq_true.2 ⟨(id, p), mem_toList.2 hp, ?_⟩)
        rw [decide_eq_true_eq]; exact ⟨hle, Nat.lt_of_not_le hlt⟩

theorem numbers_append (h : ∀ i frame, received[i]? = some frame → frame.block.number =
    satAdd range.start i) (hnum : frame.block.number = satAdd range.start received.length) :
    ∀ i f, (received ++ [frame])[i]? = some f → f.block.number = satAdd range.start i := by
  intro i f hf
  rcases Nat.lt_trichotomy i received.length with hlt | rfl | _
  · rw [getElem?_append_left hlt] at hf; exact h i f hf
  · rw [getElem?_concat_length, some.injEq] at hf; exact hf ▸ hnum
  · rw [getElem?_append_right (by omega), getElem?_eq_none (by simp; omega)] at hf; cases hf

theorem get?_append_of_eq_some {α : Type} {l : List α} {i : Nat} {x y : α}
    (h : l[i]? = some x) : (l ++ [y])[i]? = some x := by
  rw [List.getElem?_append_left (List.getElem?_eq_some_iff.1 h).1]; exact h

theorem AcquisitionInv.skip (h : AcquisitionInv a received) (hne : disposition ≠ .retain)
    (hskip : a.prepareNext frame = .ok (a', disposition)) : AcquisitionInv a' (if a'.state.produced =
    a.state.produced then received else received ++ [frame]) := by
  obtain ⟨hnum, hawaits, rfl⟩ := prepareNext_skip hne hskip
  have hbuffer := h.buffer
  have hcount := hbuffer.produced
  have hmax := hbuffer.produced_le
  have hprogress : ∀ (id : Nat) p, a.state.subscribers[id]? = some p → ∀ (s : AcquisitionState μ),
      s.produced = satAdd a.state.produced 1 → s.frames = a.state.frames → ProgressInv s p := by
    intro id p hp s hs hfrs
    have hold := h.progress id p hp
    refine ⟨hold.acknowledged_le, hold.delivered_le, hold.end_le, fun hlt => hold.ahead ?_,
      fun seq h₁ h₂ h₃ => ?_⟩
    · rw [hs] at hlt
      unfold satAdd at hlt; omega
    · rw [AcquisitionState.Holds, hfrs]
      refine hold.retained seq h₁ h₂ ?_
      -- The skipped sequence itself is not one this subscriber awaits.
      by_contra hge
      rw [hs] at h₃
      have hseq : seq = a.state.produced := by
        have := satAdd_le a.state.produced 1; omega
      by_cases hdel : p.delivered ≤ a.state.produced
      · have := hawaits id p hp hdel; omega
      · have := hold.ahead (by omega); omega
  refine ⟨?_, fun id p hp => hprogress id p hp _ rfl rfl⟩
  by_cases hmaxed : satAdd a.state.produced 1 = a.state.produced
  · rw [if_pos hmaxed]
    exact ⟨hbuffer.ordered, hbuffer.content, hmaxed.trans hcount, satAdd_le_max _ _, hbuffer.numbers⟩
  · rw [if_neg hmaxed]
    refine ⟨hbuffer.ordered, fun b hb => get?_append_of_eq_some (hbuffer.content b hb), ?_,
      satAdd_le_max _ _, numbers_append hbuffer.numbers (hcount ▸ hnum)⟩
    simp only [length_append, length_singleton, ← hcount]
    unfold satAdd at hmaxed ⊢; omega

theorem push_eq_some (h : a.push frame = .ok (some a')) : a' = { a with
      state := { a.state with
        produced := satAdd a.state.produced 1
        frames := a.state.frames ++ [⟨a.state.produced, frame, false⟩] } } := by
  unfold push at h
  split at h
  · cases h
  · split at h
    · cases h
    · rw [Except.ok.injEq, some.injEq] at h; exact h.symm

theorem AcquisitionInv.push (h : AcquisitionInv a received) (hnum : frame.block.number =
    satAdd a.range.start a.state.produced) (hlt : a.state.produced < u64Max)
    (hpush : a.push frame = .ok (some a')) : AcquisitionInv a' (received ++ [frame]) := by
  obtain rfl := push_eq_some hpush
  have hbuffer := h.buffer
  have hcount := hbuffer.produced
  have hsat : satAdd a.state.produced 1 = a.state.produced + 1 := satAdd_eq hlt
  refine ⟨⟨?_, fun b hb => ?_, ?_, satAdd_le_max _ _,
    numbers_append hbuffer.numbers (hcount ▸ hnum)⟩, fun id p hp => ?_⟩
  · rw [pairwise_append]
    refine ⟨hbuffer.ordered, pairwise_singleton _ _, fun b hb _ hc => ?_⟩
    rw [mem_singleton.1 hc]; exact hbuffer.lt_produced hb
  · rcases mem_append.1 hb with hb | hb
    · exact get?_append_of_eq_some (hbuffer.content b hb)
    · rw [mem_singleton.1 hb, hcount, getElem?_concat_length]
  · simp only [length_append, length_singleton, ← hcount, hsat]
  · have hold := h.progress id p hp
    refine ⟨hold.acknowledged_le, hold.delivered_le, hold.end_le, fun hlt => hold.ahead ?_,
      fun seq h₁ h₂ h₃ => ?_⟩
    · simp only [hsat] at hlt; omega
    · simp only [hsat] at h₃
      rcases Nat.lt_or_ge seq a.state.produced with h₃ | _
      · obtain ⟨b, hb, hseq⟩ := hold.retained seq h₁ h₂ h₃
        exact ⟨b, mem_append_left _ hb, hseq⟩
      · exact ⟨⟨a.state.produced, frame, false⟩, mem_append_right _ (mem_singleton.2 rfl),
          by simp only; omega⟩

def SubscriberProgress.window (p : SubscriberProgress) : Nat × Nat := (p.delivered, p.endExclusive)

structure SameWindows (a a' : Acquisition μ) : Prop where
  range : a'.range = a.range
  produced : a'.state.produced = a.state.produced
  terminal : a'.state.terminal = a.state.terminal
  window : ∀ subscriberId : Nat, (a'.state.subscribers[subscriberId]?).map
    SubscriberProgress.window = (a.state.subscribers[subscriberId]?).map SubscriberProgress.window

theorem SameWindows.refl (a : Acquisition μ) : SameWindows a a := ⟨rfl, rfl, rfl, fun _ => rfl⟩

theorem window_insert {t : Table Nat SubscriberProgress}
    {p' : SubscriberProgress} (hp : t[subscriberId]? = some p) (hw : p'.window = p.window)
    (id : Nat) : ((t.insert subscriberId p')[id]?).map SubscriberProgress.window =
      (t[id]?).map SubscriberProgress.window := by
  rw [get?_insert_ite]
  split
  · next e => rw [e, hp, map_some, map_some, hw]
  · rfl

@[simp] theorem pruneAcknowledged_terminal (s : AcquisitionState μ) :
    (pruneAcknowledged s).terminal = s.terminal := by
  unfold pruneAcknowledged
  split <;> rfl

theorem acknowledge_sameWindows (a : Acquisition μ) (subrId seq : Nat) :
    SameWindows a (a.acknowledge subrId seq) := by
  unfold acknowledge
  split
  · exact .refl a
  · next p hp =>
    split
    · refine ⟨rfl, by simp, by simp, fun id => ?_⟩
      rw [pruneAcknowledged_subscribers]
      refine window_insert hp ?_ id
      rfl
    · exact .refl a

theorem AcquisitionInv.acknowledge (h : AcquisitionInv a received)
    (hseq : ∀ p, a.state.subscribers[subscriberId]? = some p → sequence < p.delivered) :
    AcquisitionInv (a.acknowledge subscriberId sequence) received := by
  unfold Acquisition.acknowledge
  split
  · exact h
  · next p hp =>
    split
    · next hack =>
      refine AcquisitionInv.prune h.buffer rfl (by rfl) (by rfl) (fun id q hq => ?_) rfl
      rcases insert_cases hq with ⟨-, rfl⟩ | ⟨-, hq⟩
      · have hold := h.progress _ _ hp
        have hlt := hseq p hp
        have hend := hold.delivered_le
        have hmax := hold.end_le
        have hsat : satAdd p.acknowledged 1 = p.acknowledged + 1 := satAdd_eq (by omega)
        refine ⟨?_, hend, hmax, fun hahead => ?_, fun n h₁ h₂ h₃ => hold.retained n ?_ h₂ h₃⟩
        · simp only [hsat]; omega
        · have := hold.ahead hahead; omega
        · simp only [hsat] at h₁; omega
      · exact (h.progress id q hq).congr rfl fun _ _ hheld => hheld
    · exact h

theorem AcquisitionInv.unregister (h : AcquisitionInv a received) (subrId : Nat) :
    AcquisitionInv (a.unregister subrId) received := by
  unfold Acquisition.unregister
  simp only
  split
  · next hempty =>
    refine ⟨h.buffer.of_sublist (nil_sublist _) rfl rfl, fun id p hp => ?_⟩
    rw [Std.ExtTreeMap.isEmpty_iff.1 hempty] at hp; simp at hp
  · refine AcquisitionInv.prune h.buffer rfl (by rfl) (by rfl) (fun id p hp => ?_) rfl
    obtain ⟨-, hp⟩ := erase_cases hp; exact (h.progress id p hp).congr rfl fun _ _ hheld => hheld

theorem unregister_subscribers (a : Acquisition μ) (subrId : Nat) :
    (a.unregister subrId).state.subscribers = a.state.subscribers.erase subrId := by
  unfold unregister
  simp only
  split
  · rfl
  · rw [pruneAcknowledged_subscribers]

theorem unregister_frame (a : Acquisition μ) (subrId : Nat) : (a.unregister subrId).range = a.range ∧
      (a.unregister subrId).state.produced = a.state.produced ∧
      (a.unregister subrId).state.terminal = a.state.terminal := by
  unfold unregister
  simp only
  split
  · exact ⟨rfl, rfl, rfl⟩
  · exact ⟨rfl, by simp, by simp⟩

theorem startReading_sameWindows (a : Acquisition μ) (subrId : Nat) :
    SameWindows a (a.startReading subrId) := by
  unfold startReading
  split
  · exact .refl a
  · next p hp =>
    refine ⟨rfl, rfl, rfl, fun id => window_insert hp ?_ id⟩
    rfl

theorem AcquisitionInv.startReading (h : AcquisitionInv a received) (subrId : Nat) :
    AcquisitionInv (a.startReading subrId) received := by
  unfold Acquisition.startReading
  split
  · exact h
  · next p hp =>
    refine ⟨h.buffer.of_sublist (List.Sublist.refl _) rfl rfl, fun id q hq => ?_⟩
    simp only [get?_insert_ite] at hq
    split at hq
    · cases hq
      have hold := h.progress _ _ hp
      exact ⟨hold.acknowledged_le, hold.delivered_le, hold.end_le, hold.ahead, hold.retained⟩
    · exact (h.progress id q hq).congr rfl fun _ _ hheld => hheld

theorem attributeFrame_content (seq : Nat) (l : List (BufferedFrame μ)) :
    (attributeFrame seq l).map (fun b => (b.sequence, b.frame)) =
      l.map fun b => (b.sequence, b.frame) := by
  induction l with
  | nil => rfl
  | cons b bs ih =>
    unfold attributeFrame
    split
    · rfl
    · rw [map_cons, map_cons, ih]

theorem AcquisitionInv.deliver (h : AcquisitionInv a received)
    (hp : a.state.subscribers[subscriberId]? = some p) (hend : p.delivered < p.endExclusive)
    (hprod : p.delivered < a.state.produced) (buffered : BufferedFrame μ) :
    AcquisitionInv (a.deliver subscriberId p buffered).1 received := by
  have hmap := attributeFrame_content p.delivered a.state.frames
  have hmem : ∀ b, (b ∈ attributeFrame p.delivered a.state.frames →
      ∃ c ∈ a.state.frames, c.sequence = b.sequence ∧ c.frame = b.frame) := by
    intro b hb
    have hb' := List.mem_map_of_mem (f := fun b : BufferedFrame μ => (b.sequence, b.frame)) hb
    rw [hmap, List.mem_map] at hb'
    obtain ⟨c, hc, e⟩ := hb'; rw [Prod.mk.injEq] at e; exact ⟨c, hc, e⟩
  have hholds : ∀ sequence, a.state.Holds sequence →
      (a.deliver subscriberId p buffered).1.state.Holds sequence := by
    rintro sequence ⟨c, hc, rfl⟩
    have hc' := List.mem_map_of_mem (f := fun b : BufferedFrame μ => (b.sequence, b.frame)) hc
    rw [← hmap, List.mem_map] at hc'
    obtain ⟨b, hb, e⟩ := hc'; rw [Prod.mk.injEq] at e; exact ⟨b, hb, e.1⟩
  refine ⟨⟨?_, fun b hb => ?_, h.buffer.produced, h.buffer.produced_le, h.buffer.numbers⟩,
    fun id q hq => ?_⟩
  · have hord := h.buffer.ordered
    have hseq : (attributeFrame p.delivered a.state.frames).map sequence =
        a.state.frames.map sequence := by
      have := congrArg (List.map Prod.fst) hmap
      simpa only [List.map_map, Function.comp_def] using this
    have hiff : ∀ l : List (BufferedFrame μ), (l.Pairwise fun b c => b.sequence < c.sequence) ↔
        (l.map sequence).Pairwise (· < ·) := fun l => pairwise_map.symm
    exact (hiff _).2 (hseq ▸ (hiff _).1 hord)
  · obtain ⟨c, hc, hs, hf⟩ := hmem b hb; rw [← hs, ← hf]; exact h.buffer.content c hc
  · simp only [Acquisition.deliver, get?_insert_ite] at hq
    split at hq
    · cases hq
      have hold := h.progress _ _ hp
      have hack := hold.acknowledged_le
      have hsat : satAdd p.delivered 1 = p.delivered + 1 :=
        satAdd_eq (Nat.le_trans hend hold.end_le)
      refine ⟨?_, ?_, hold.end_le, fun hahead => ?_, fun n h₁ h₂ h₃ =>
        hholds n (hold.retained n h₁ h₂ h₃)⟩
      · simp only [hsat]; omega
      · simp only [hsat]; omega
      · simp only [hsat, Acquisition.deliver] at hahead; omega
    · exact (h.progress id q hq).congr rfl fun n _ hheld => hholds n hheld

theorem pollOnce_cases (h : AcquisitionInv a received) {sub : MaterialSubscription}
    (hp : a.state.subscribers[sub.subscriberId]? = some p) (cancel : Bool) :
    (p.endExclusive ≤ p.delivered ∧
      pollOnce a sub cancel = (a, { sub with terminal := true }, .ended)) ∨
    (p.delivered < p.endExclusive ∧ p.delivered < a.state.produced ∧
      ∃ b ∈ a.state.frames, b.sequence = p.delivered ∧ pollOnce a sub cancel =
          ((a.deliver sub.subscriberId p b).1, sub, .item (a.deliver sub.subscriberId p b).2)) ∨
    (p.delivered < p.endExclusive ∧ a.state.produced ≤ p.delivered ∧
      ∃ polled, (pollOnce a sub cancel).1 = a ∧ (pollOnce a sub cancel).2.2 = polled ∧
        (pollOnce a sub cancel).2.1.subscriberId = sub.subscriberId ∧
        ((polled = .ended ∧ a.state.terminal = some (.ok ())) ∨
          (∃ e, polled = .failed e ∧ a.state.terminal = some (.error e)) ∨
          ((polled = .failed .cancelled ∨ polled = .waits) ∧ a.state.terminal = none))) := by
  unfold pollOnce
  simp only [hp]
  split
  · next hend => exact .inl ⟨hend, rfl⟩
  · next hend =>
    have hend := Nat.lt_of_not_le hend
    split
    · next hprod =>
      obtain ⟨b, hb, hseq⟩ :=
        (h.progress _ _ hp).retained _ (h.progress _ _ hp).acknowledged_le hend hprod
      cases hfind : a.state.frames.find? fun b => b.sequence = p.delivered with
      | none =>
        have := find?_eq_none.1 hfind b hb; exact absurd (decide_eq_true hseq) this
      | some buffered =>
        exact .inr (.inl ⟨hend, hprod, buffered, mem_of_find?_eq_some hfind,
          by simpa only [decide_eq_true_eq] using find?_some hfind, rfl⟩)
    · next hprod =>
      refine .inr (.inr ⟨hend, Nat.le_of_not_lt hprod, ?_⟩)
      cases hterm : a.state.terminal with
      | none =>
        cases cancel with
        | true => exact ⟨_, rfl, rfl, rfl, .inr (.inr ⟨.inl rfl, rfl⟩)⟩
        | false => exact ⟨_, rfl, rfl, rfl, .inr (.inr ⟨.inr rfl, rfl⟩)⟩
      | some outcome =>
        cases outcome with
        | ok u => exact ⟨_, rfl, rfl, rfl, .inl ⟨rfl, rfl⟩⟩
        | error e => exact ⟨_, rfl, rfl, rfl, .inr (.inl ⟨e, rfl, rfl⟩)⟩

end Leani.Historical
