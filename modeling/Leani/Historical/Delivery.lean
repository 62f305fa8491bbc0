import Leani.Historical.Buffer

/-!
# Delivery of a shared acquisition

The whole system around one acquisition: the producer task, which checks and pushes one frame at a
time, and any number of subscribers that join, poll, acknowledge the frames they hold and leave.
Every interleaving is a list of events.

`Inv` ties the buffer, the producing position and the two watermarks of every subscriber together.
Beside the state the code keeps, `received` records the frames the producer counted, in order, and
each stream records the frames it was handed.
-/

namespace Leani.Historical

open Library List Option Table Acquisition MaterialSubscription Prod SubscriberProgress System

variable {μ : Type}

/-- One subscriber's stream over the blocks at sequences `start` to `lastSequence`. -/
structure Stream (μ : Type) where
  subscription : MaterialSubscription
  start : Nat
  lastSequence : Nat
  handed : List (HistoricalMaterialFrame μ)
  dropped : Bool

structure System (μ : Type) where
  acquisition : Acquisition μ
  pending : Option (BlockFrame μ)
  received : List (BlockFrame μ)
  nextSubscriberId : Nat
  streams : Table Nat (Stream μ)

inductive Event (μ : Type) where
  | register (requested : BlockRange)
  | receive (frame : BlockFrame μ)
  | push
  | finish (outcome : Except SourceError Unit)
  | next (subscriberId : Nat) (cancelled : Bool)
  | acknowledge (subscriberId index : Nat)
  | unregister (subscriberId : Nat)

def Stream.open (subscriberId : Nat) (a : Acquisition μ) (first last : Nat) : Stream μ where
  subscription := ⟨subscriberId, false, false⟩
  start := first - a.range.start
  lastSequence := last - a.range.start
  handed := []
  dropped := false

structure Demand where
  physical : BlockRange
  logical : BlockRange
  start_le : physical.start ≤ logical.start
  last_le : logical.last ≤ physical.last

def System.start (id maximumBufferedFrames : Nat) (demand : Demand) : System μ :=
  let a := .new id maximumBufferedFrames demand.physical demand.logical 1
  { acquisition := a
    pending := none
    received := []
    nextSubscriberId := 2
    streams := (∅ : Table Nat (Stream μ)).insert 1
      (.open 1 a demand.logical.start demand.logical.last) }

def Stream.polled (st : Stream μ) (subscription : MaterialSubscription) : Polled μ → Stream μ
  | .item frame => { st with subscription := subscription, handed := st.handed ++ [frame] }
  | .failed _ | .ended | .waits => { st with subscription := subscription }

namespace System

variable (w : System μ)

def register (requested : BlockRange) : System μ :=
  let subscriberId := w.nextSubscriberId
  match w.acquisition.tryRegister subscriberId requested.start requested.last with
  | none => { w with nextSubscriberId := subscriberId + 1 }
  | some (a, last) => { w with
      acquisition := a
      nextSubscriberId := subscriberId + 1
      streams := w.streams.insert subscriberId (.open subscriberId a requested.start last) }

def fail (outcome : Except SourceError Unit) : System μ :=
  { w with acquisition := w.acquisition.finish outcome, pending := none }

def receive (frame : BlockFrame μ) : System μ :=
  if w.acquisition.state.terminal.isSome ∨ w.pending.isSome then w
  else match frame.validateShape with
  | .error e => w.fail (.error (.corruptFrame e))
  | .ok () =>
    match w.acquisition.prepareNext frame with
    | .error e => w.fail (.error e)
    | .ok (_, .retain) => { w with pending := some frame }
    | .ok (a, _) => { w with
        acquisition := a
        received :=
          if a.state.produced = w.acquisition.state.produced then w.received
          else w.received ++ [frame] }

def push : System μ :=
  match w.pending with
  | none => w
  | some frame =>
    match w.acquisition.push frame with
    | .error e => w.fail (.error e)
    | .ok none => w
    | .ok (some a) => { w with
        acquisition := a, pending := none, received := w.received ++ [frame] }

def finish (outcome : Except SourceError Unit) : System μ :=
  if w.acquisition.state.terminal.isSome ∨ (w.pending.isSome ∧ outcome.isOk) then w
  else w.fail outcome

def next (subscriberId : Nat) (cancelled : Bool) : System μ :=
  match w.streams[subscriberId]? with
  | none => w
  | some st =>
    if st.dropped then w
    else
      let r := st.subscription.next w.acquisition cancelled
      { w with
        acquisition := r.1
        streams := w.streams.insert subscriberId (st.polled r.2.1 r.2.2) }

def acknowledge (subscriberId index : Nat) : System μ :=
  match (w.streams[subscriberId]?).bind fun st => st.handed[index]? with
  | none => w
  | some frame =>
    { w with acquisition := w.acquisition.acknowledge frame.subscriberId frame.sequence }

def unregister (subscriberId : Nat) : System μ :=
  match w.streams[subscriberId]? with
  | none => w
  | some st => { w with
      acquisition := w.acquisition.unregister subscriberId
      streams := w.streams.insert subscriberId { st with dropped := true } }

def step : Event μ → System μ
  | .register requested => w.register requested
  | .receive frame => w.receive frame
  | .push => w.push
  | .finish outcome => w.finish outcome
  | .next subscriberId cancelled => w.next subscriberId cancelled
  | .acknowledge subscriberId index => w.acknowledge subscriberId index
  | .unregister subscriberId => w.unregister subscriberId

def run (events : List (Event μ)) : System μ := events.foldl step w

end System

/-- What a stream was handed: consecutive sequences of its range, each with the received frame, up
to where its subscriber stands. -/
structure StreamInv (w : System μ) (subscriberId : Nat) (st : Stream μ) : Prop where
  subscriber : st.subscription.subscriberId = subscriberId
  fresh : subscriberId < w.nextSubscriberId
  inRange : w.acquisition.range.start + st.lastSequence ≤ w.acquisition.range.last
  sequences : st.handed.map HistoricalMaterialFrame.sequence = List.range' st.start st.handed.length
  frames : ∀ frame ∈ st.handed, frame.subscriberId = subscriberId ∧
    w.received[frame.sequence]? = some frame.frame ∧ frame.sequence ≤ st.lastSequence
  registered : st.dropped = false → ∃ p, w.acquisition.state.subscribers[subscriberId]? = some p ∧
    p.window = (st.start + st.handed.length, satAdd st.lastSequence 1)

structure SystemInv (w : System μ) : Prop where
  acquisition : AcquisitionInv w.acquisition w.received
  pending : ∀ frame, w.pending = some frame →
    frame.block.number = satAdd w.acquisition.range.start w.acquisition.state.produced ∧
      w.acquisition.state.produced < u64Max
  stream : ∀ (subscriberId : Nat) st, w.streams[subscriberId]? = some st → StreamInv w subscriberId st
  live : ∀ (subscriberId : Nat) p, w.acquisition.state.subscribers[subscriberId]? = some p →
    ∃ st, w.streams[subscriberId]? = some st ∧ st.dropped = false

variable {subscriberId : Nat} {st : Stream μ}

variable {w : System μ}

theorem StreamInv.mono {w' : System μ} (h : StreamInv w subscriberId st)
    (hrng : w'.acquisition.range = w.acquisition.range)
    (hnext : w.nextSubscriberId ≤ w'.nextSubscriberId)
    (hreceived : ∀ (i : Nat) frame, w.received[i]? = some frame → w'.received[i]? = some frame)
    (hwin : (w'.acquisition.state.subscribers[subscriberId]?).map window = (w.acquisition.state.subscribers[subscriberId]?).map window) :
    StreamInv w' subscriberId st where
  subscriber := h.subscriber
  fresh := Nat.lt_of_lt_of_le h.fresh hnext
  inRange := hrng ▸ h.inRange
  sequences := h.sequences
  frames := fun frame hf =>
    ⟨(h.frames frame hf).1, hreceived _ _ (h.frames frame hf).2.1, (h.frames frame hf).2.2⟩
  registered := fun hd => by
    obtain ⟨_, hp, hw⟩ := h.registered hd
    rw [hp, map_some, hw] at hwin; exact map_eq_some_iff.1 hwin

theorem SystemInv.of_windows {w' : System μ} (h : SystemInv w)
    (hacquisition : AcquisitionInv w'.acquisition w'.received)
    (hpend : ∀ frame, w'.pending = some frame → frame.block.number = satAdd w'.acquisition.range.start w'.acquisition.state.produced ∧ w'.acquisition.state.produced < u64Max)
    (hrng : w'.acquisition.range = w.acquisition.range)
    (hnext : w.nextSubscriberId ≤ w'.nextSubscriberId) (hstreams : w'.streams = w.streams)
    (hreceived : ∀ (i : Nat) frame, w.received[i]? = some frame → w'.received[i]? = some frame)
    (hwin : ∀ subscriberId : Nat, (w'.acquisition.state.subscribers[subscriberId]?).map window = (w.acquisition.state.subscribers[subscriberId]?).map window) :
    SystemInv w' where
  acquisition := hacquisition
  pending := hpend
  stream := fun id st hst => (h.stream id st (hstreams ▸ hst)).mono hrng hnext hreceived (hwin id)
  live := fun id _ hp => by
    have hw := hwin id
    rw [hp, map_some] at hw
    obtain ⟨q, hq, -⟩ := map_eq_some_iff.1 hw.symm; rw [hstreams]; exact h.live id q hq

variable {a : Acquisition μ}

theorem streamInv_open {first last : Nat} (ha : a.range = w.acquisition.range)
    (hfresh : subscriberId < w.nextSubscriberId) (hfst : a.range.start ≤ first)
    (hle : first ≤ last) (hlast : last ≤ a.range.last)
    (hp : w.acquisition.state.subscribers[subscriberId]? = some (.new (sequenceRange a.range first last).1 (sequenceRange a.range first last).2)) :
    StreamInv w subscriberId (.open subscriberId a first last) where
  subscriber := rfl
  fresh := hfresh
  inRange := by
    simp only [Stream.open, ← ha]; omega
  sequences := rfl
  frames := fun _ hf => by cases hf
  registered := fun _ => ⟨_, hp, rfl⟩

theorem start_inv (id maximumBufferedFrames : Nat) (demand : Demand) :
    SystemInv (System.start (μ := μ) id maximumBufferedFrames demand) := by
  refine ⟨acquisitionInv_new, fun _ h => (by cases h), fun subrId _ hst => ?_, fun subrId _ hp => ?_⟩
  · simp only [System.start, get?_insert_ite] at hst
    split at hst
    · next hid =>
      subst hid
      cases hst
      refine streamInv_open rfl Nat.one_lt_two demand.start_le demand.logical.start_le_last
        demand.last_le ?_
      exact getElem?_insert_self _ _ _
    · simp at hst
  · simp only [System.start, Acquisition.new, get?_insert_ite] at hp ⊢
    split at hp
    · next hid => exact ⟨_, by rw [if_pos hid], rfl⟩
    · simp at hp

theorem register_inv (h : SystemInv w) (reqd : BlockRange) : SystemInv (w.register reqd) := by
  unfold System.register
  simp only
  split
  · exact h.of_windows h.acquisition h.pending rfl (Nat.le_succ _) rfl (fun _ _ hf => hf) fun _ => rfl
  · next a last hreg =>
    have hinv := h.acquisition.tryRegister reqd.start_le_last hreg
    obtain ⟨hfst, _, _, -, rfl⟩ := tryRegister_eq_some hreg
    have hold : ∀ (id : Nat) st, w.streams[id]? = some st → id ≠ w.nextSubscriberId := by
      intro id st hst
      have := (h.stream id st hst).fresh; omega
    refine ⟨hinv, h.pending, fun id st hst => ?_, fun id p hp => ?_⟩
    · simp only [get?_insert_ite] at hst
      split at hst
      · next hid =>
        subst hid
        cases hst
        refine streamInv_open rfl (Nat.lt_succ_self _) hfst ?_ ?_ (getElem?_insert_self _ _ _)
        · have := reqd.start_le_last; omega
        · simp only; omega
      · refine (h.stream id st hst).mono rfl (Nat.le_succ _) (fun _ _ hf => hf) ?_
        simp only [get?_insert_ite, if_neg (hold id st hst)]
    · simp only [get?_insert_ite] at hp ⊢
      by_cases hid : id = w.nextSubscriberId
      · exact ⟨_, by rw [if_pos hid], rfl⟩
      · rw [if_neg hid] at hp ⊢; exact h.live id p hp

variable {received : List (BlockFrame μ)}

theorem AcquisitionInv.finish (h : AcquisitionInv a received) (outcome : Except SourceError Unit) :
    AcquisitionInv (a.finish outcome) received :=
  ⟨h.buffer.of_sublist (List.Sublist.refl _) rfl rfl,
    fun id p hp => (h.progress id p hp).congr rfl fun _ _ hheld => hheld⟩

theorem fail_inv (h : SystemInv w) (outcome : Except SourceError Unit) : SystemInv (w.fail outcome) :=
  h.of_windows (h.acquisition.finish outcome) (fun _ hf => by cases hf) rfl le_rfl rfl
    (fun _ _ hf => hf) fun _ => rfl

theorem getElem?_ite_append {α : Type} {c : Prop} [Decidable c] {l : List α} {i : Nat} {x y : α}
    (h : l[i]? = some x) : (if c then l else l ++ [y])[i]? = some x := by
  split
  · exact h
  · exact get?_append_of_eq_some h

theorem receive_inv (h : SystemInv w) (frame : BlockFrame μ) : SystemInv (w.receive frame) := by
  unfold System.receive
  split
  · exact h
  · next hidle =>
    split
    · exact fail_inv h _
    · split
      · exact fail_inv h _
      · next a hprepared =>
        obtain ⟨rfl, hnum, id, p, hp, -, hlt⟩ := prepareNext_retain hprepared
        refine h.of_windows h.acquisition (fun f hf => ?_) rfl le_rfl rfl
          (fun _ _ hf => hf) fun _ => rfl
        obtain rfl : frame = f := some.inj hf
        exact ⟨hnum, Nat.lt_of_lt_of_le hlt (h.acquisition.progress id p hp).end_le⟩
      · next a disposition hne hprepared =>
        have hinv := h.acquisition.skip hne hprepared
        obtain ⟨-, -, rfl⟩ := prepareNext_skip hne hprepared
        refine h.of_windows hinv (fun f hf => ?_) rfl le_rfl rfl (fun _ f hf => ?_) fun _ => rfl
        · exact absurd (.inr (by rw [show w.pending = some f from hf]; rfl)) hidle
        · exact getElem?_ite_append hf

theorem push_inv (h : SystemInv w) : SystemInv w.push := by
  unfold System.push
  split
  · exact h
  · next frame hpend =>
    split
    · exact fail_inv h _
    · exact h
    · next a hpush =>
      obtain ⟨hnum, hlt⟩ := h.pending frame hpend
      have hinv := h.acquisition.push hnum hlt hpush
      obtain rfl := push_eq_some hpush
      exact h.of_windows hinv (fun f hf => by cases hf) rfl le_rfl rfl
        (fun _ f hf => get?_append_of_eq_some hf) fun _ => rfl

theorem finish_inv (h : SystemInv w) (outcome : Except SourceError Unit) :
    SystemInv (w.finish outcome) := by
  unfold System.finish
  split
  · exact h
  · exact fail_inv h outcome

theorem StreamInv.handed_lt (h : StreamInv w subscriberId st) {frame : HistoricalMaterialFrame μ}
    (hf : frame ∈ st.handed) : frame.sequence < st.start + st.handed.length := by
  have hmem := mem_map_of_mem (f := HistoricalMaterialFrame.sequence) hf
  rw [h.sequences, mem_range'_1] at hmem; exact hmem.2

theorem acknowledge_inv (h : SystemInv w) (subrId index : Nat) :
    SystemInv (w.acknowledge subrId index) := by
  unfold System.acknowledge
  split
  · exact h
  · next frame hframe =>
    obtain ⟨st, hst, hindex⟩ := bind_eq_some_iff.1 hframe
    have hstrm := h.stream subrId st hst
    have hmem := mem_of_getElem? hindex
    have hsame := acknowledge_sameWindows w.acquisition frame.subscriberId frame.sequence
    refine h.of_windows (h.acquisition.acknowledge fun p hp => ?_) (fun f hf => ?_) hsame.range
      le_rfl rfl (fun _ _ hf => hf) hsame.window
    · -- The subscriber is still registered, so the stream is the live one it was opened with.
      rw [(hstrm.frames frame hmem).1] at hp
      obtain ⟨st', hst', hlive⟩ := h.live subrId p hp
      obtain rfl : st = st' := some.inj (hst.symm.trans hst')
      obtain ⟨q, hq, hw⟩ := hstrm.registered hlive
      obtain rfl : p = q := some.inj (hp.symm.trans hq)
      rw [(Prod.mk.injEq _ _ _ _ ▸ hw : p.delivered = _ ∧ _).1]; exact hstrm.handed_lt hmem
    · rw [hsame.range, hsame.produced]; exact h.pending f hf

theorem unregister_inv (h : SystemInv w) (subrId : Nat) : SystemInv (w.unregister subrId) := by
  unfold System.unregister
  split
  · exact h
  · next st hst =>
    obtain ⟨hrng, hprod, -⟩ := unregister_frame w.acquisition subrId
    have hsubs := unregister_subscribers w.acquisition subrId
    refine ⟨h.acquisition.unregister subrId, fun f hf => ?_, fun id st' hst' => ?_, fun id p hp => ?_⟩
    · simp only [hrng, hprod]; exact h.pending f hf
    · simp only [get?_insert_ite] at hst'
      split at hst'
      · next hid =>
        subst hid
        cases hst'
        have hold := h.stream id st hst
        exact ⟨hold.subscriber, hold.fresh, by simpa only [hrng] using hold.inRange,
          hold.sequences, hold.frames, fun hd => by cases hd⟩
      · next hid =>
        refine (h.stream id st' hst').mono hrng le_rfl (fun _ _ hf => hf) ?_
        simp only [hsubs, get?_erase_ite, if_neg hid]
    · simp only [hsubs, get?_erase_ite] at hp
      split at hp
      · cases hp
      · next hid =>
        simp only [get?_insert_ite, if_neg hid]; exact h.live id p hp

variable {subscription : MaterialSubscription}

theorem next_eq_pollOnce (h : AcquisitionInv a received)
    (hterm : subscription.terminal = false) (cancel : Bool) : ∃ a' subscription',
    subscription.next a cancel = pollOnce a' subscription' cancel ∧ AcquisitionInv a' received ∧
    SameWindows a a' ∧ subscription'.subscriberId = subscription.subscriberId := by
  unfold MaterialSubscription.next
  rw [if_neg (by simp [hterm])]
  split
  · exact ⟨a, subscription, rfl, h, .refl a, rfl⟩
  · exact ⟨_, _, rfl, h.startReading _, startReading_sameWindows a _, rfl⟩

/-- What an open stream gets from one poll: its next frame as soon as that was produced; its end
only when it has everything or the producer ended. -/
inductive PollSpec (w : System μ) (st : Stream μ) : Polled μ → Prop where
  | item {frame : HistoricalMaterialFrame μ} (hsequence : frame.sequence = st.start + st.handed.length)
      (hproduced : frame.sequence < w.acquisition.state.produced) : PollSpec w st (.item frame)
  | complete (h : satAdd st.lastSequence 1 ≤ st.start + st.handed.length) : PollSpec w st .ended
  | exhausted (hend : st.start + st.handed.length < satAdd st.lastSequence 1)
      (hproduced : w.acquisition.state.produced ≤ st.start + st.handed.length)
      (hterminal : w.acquisition.state.terminal = some (.ok ())) : PollSpec w st .ended
  | failed {error : SourceError} (hend : st.start + st.handed.length < satAdd st.lastSequence 1)
      (hproduced : w.acquisition.state.produced ≤ st.start + st.handed.length)
      (hterminal : w.acquisition.state.terminal = some (.error error)) : PollSpec w st (.failed error)
  | cancelled (hend : st.start + st.handed.length < satAdd st.lastSequence 1)
      (hproduced : w.acquisition.state.produced ≤ st.start + st.handed.length)
      (hterminal : w.acquisition.state.terminal = none) : PollSpec w st (.failed .cancelled)
  | waits (hend : st.start + st.handed.length < satAdd st.lastSequence 1)
      (hproduced : w.acquisition.state.produced ≤ st.start + st.handed.length)
      (hterminal : w.acquisition.state.terminal = none) : PollSpec w st .waits

section

variable {w : System μ} (h : SystemInv w) (hst : w.streams[subscriberId]? = some st)

include h hst

theorem next_inv_of_sameWindows (ha : AcquisitionInv a w.received) (hsame : SameWindows w.acquisition a)
 (hid : subscription.subscriberId = subscriberId) : SystemInv { w with
      acquisition := a
      streams := w.streams.insert subscriberId { st with subscription := subscription } } := by
  refine ⟨ha, fun f hf => ?_, fun id st' hst' => ?_, fun id _ hp => ?_⟩
  · simp only [hsame.range, hsame.produced]; exact h.pending f hf
  · simp only [get?_insert_ite] at hst'
    split at hst'
    · next e =>
      subst e
      cases hst'
      have hold : StreamInv { w with acquisition := a } id st :=
        (h.stream id st hst).mono hsame.range le_rfl (fun _ _ hf => hf) (hsame.window id)
      exact ⟨hid, hold.fresh, hold.inRange, hold.sequences, hold.frames, hold.registered⟩
    · exact (h.stream id st' hst').mono hsame.range le_rfl (fun _ _ hf => hf) (hsame.window id)
  · have hw := hsame.window id
    simp only [hp, map_some] at hw
    obtain ⟨q, hq, -⟩ := map_eq_some_iff.1 hw.symm
    obtain ⟨st', hst', hlive⟩ := h.live id q hq
    simp only [get?_insert_ite]
    by_cases e : id = subscriberId
    · subst e
      obtain rfl : st = st' := some.inj (hst.symm.trans hst'); exact ⟨_, if_pos rfl, hlive⟩
    · exact ⟨st', by rw [if_neg e]; exact hst', hlive⟩

theorem next_inv_of_deliver (hlive : st.dropped = false)
    (ha : AcquisitionInv a w.received) (hsame : SameWindows w.acquisition a)
    {p : SubscriberProgress} (hp : a.state.subscribers[subscriberId]? = some p)
    (hw : p.window = (st.start + st.handed.length, satAdd st.lastSequence 1))
    (hend : p.delivered < p.endExclusive) (hprod : p.delivered < a.state.produced)
    {b : BufferedFrame μ} (hb : b ∈ a.state.frames) (hseq : b.sequence = p.delivered)
 (hid : subscription.subscriberId = subscriberId) : SystemInv { w with
      acquisition := (a.deliver subscriberId p b).1
      streams := w.streams.insert subscriberId { st with
        subscription := subscription
        handed := st.handed ++ [(a.deliver subscriberId p b).2] } } := by
  have hdel : p.delivered = st.start + st.handed.length := congrArg fst hw
  have hstop : p.endExclusive = satAdd st.lastSequence 1 := congrArg snd hw
  have hsat : satAdd p.delivered 1 = p.delivered + 1 :=
    satAdd_eq (Nat.le_trans hend (ha.progress _ _ hp).end_le)
  refine ⟨ha.deliver hp hend hprod b, fun f hf => ?_, fun id st' hst' => ?_, fun id _ hq => ?_⟩
  · simp only [deliver, hsame.range, hsame.produced]; exact h.pending f hf
  · simp only [get?_insert_ite] at hst'
    split at hst'
    · next e =>
      subst e
      cases hst'
      have hold := h.stream id st hst
      refine ⟨hid, hold.fresh, ?_, ?_, fun f hf => ?_, fun _ =>
        ⟨{ p with delivered := satAdd p.delivered 1 }, ?_, ?_⟩⟩
      · simp only [deliver, hsame.range]; exact hold.inRange
      · simp only [map_append, hold.sequences, map_cons, map_nil,
          length_append, length_singleton, deliver]
        rw [range'_1_concat, hseq, hdel]
      · rcases mem_append.1 hf with hf | hf
        · exact hold.frames f hf
        · rw [mem_singleton.1 hf]
          refine ⟨rfl, ha.buffer.content b hb, ?_⟩
          have := satAdd_le st.lastSequence 1; simp only [deliver]; omega
      · exact getElem?_insert_self _ _ _
      · simp only [window, hsat, length_append, length_singleton]; rw [hstop, hdel, Nat.add_assoc]
    · next e =>
      refine (h.stream id st' hst').mono hsame.range le_rfl (fun _ _ hf => hf) ?_
      simp only [deliver, get?_insert_ite, if_neg e]; exact hsame.window id
  · simp only [deliver, get?_insert_ite] at hq ⊢
    by_cases e : id = subscriberId
    · exact ⟨_, if_pos e, hlive⟩
    · rw [if_neg e] at hq ⊢
      have hw' := hsame.window id
      rw [hq, map_some] at hw'
      obtain ⟨q', hq', -⟩ := map_eq_some_iff.1 hw'.symm; exact h.live id q' hq'

theorem poll_spec (hlive : st.dropped = false) (hterm : st.subscription.terminal = false)
    (cancel : Bool) : PollSpec w st (st.subscription.next w.acquisition cancel).2.2 ∧
    SystemInv (w.next subscriberId cancel) := by
  obtain ⟨a, subscription, hnext, ha, hsame, hsub⟩ :=
    next_eq_pollOnce h.acquisition hterm cancel
  have hstrm := h.stream subscriberId st hst
  rw [hstrm.subscriber] at hsub
  obtain ⟨_, hq, hwin⟩ := hstrm.registered hlive
  obtain ⟨p, hp, hw⟩ : ∃ p, a.state.subscribers[subscriberId]? = some p ∧
      p.window = (st.start + st.handed.length, satAdd st.lastSequence 1) := by
    have := hsame.window subscriberId; rw [hq, map_some, hwin] at this; exact map_eq_some_iff.1 this
  have hdel : p.delivered = st.start + st.handed.length := congrArg fst hw
  have hstop : p.endExclusive = satAdd st.lastSequence 1 := congrArg snd hw
  have hstep : w.next subscriberId cancel = { w with
      acquisition := (pollOnce a subscription cancel).1
      streams := w.streams.insert subscriberId (st.polled (pollOnce a subscription cancel).2.1
          (pollOnce a subscription cancel).2.2) } := by
    simp only [System.next, hst, hlive, Bool.false_eq_true, if_false, hnext]
  rw [hstep, hnext]
  rw [← hsub] at hp
  rcases pollOnce_cases ha hp cancel with ⟨hend, hr⟩ | ⟨hend, hprod, b, hb, hseq, hr⟩ |
    ⟨hend, hprod, polled, hacq, hpolled, hid, hcase⟩
  · rw [hr]; exact ⟨.complete (by omega), next_inv_of_sameWindows h hst ha hsame hsub⟩
  · rw [hr]
    rw [hsub] at hp ⊢
    refine ⟨.item ?_ ?_, next_inv_of_deliver h hst hlive ha hsame hp hw hend hprod hb hseq hsub⟩
    · exact hseq.trans hdel
    · rw [← hsame.produced, show (a.deliver subscriberId p b).2.sequence = p.delivered from hseq]
      exact hprod
  · rw [hpolled, hacq]
    rw [hsame.produced, hdel] at hprod
    rw [hdel, hstop] at hend
    rw [hsame.terminal] at hcase
    rw [hsub] at hid
    have hinv := next_inv_of_sameWindows h hst ha hsame hid
    rcases hcase with ⟨rfl, ht⟩ | ⟨_, rfl, ht⟩ | ⟨rfl | rfl, ht⟩
    · exact ⟨.exhausted hend hprod ht, hinv⟩
    · exact ⟨.failed hend hprod ht, hinv⟩
    · exact ⟨.cancelled hend hprod ht, hinv⟩
    · exact ⟨.waits hend hprod ht, hinv⟩

end

theorem next_inv (h : SystemInv w) (subrId : Nat) (cancel : Bool) :
    SystemInv (w.next subrId cancel) := by
  cases hst : w.streams[subrId]? with
  | none =>
    simp only [System.next, hst]; exact h
  | some st =>
    cases hlive : st.dropped with
    | true =>
      simp only [System.next, hst, hlive, if_true]; exact h
    | false =>
      cases hterm : st.subscription.terminal with
      | false => exact (poll_spec h hst hlive hterm cancel).2
      | true =>
        have hstep : w.next subrId cancel = { w with streams := w.streams.insert subrId st } := by
          simp only [System.next, hst]
          rw [if_neg (by simp [hlive])]
          simp only [MaterialSubscription.next, hterm, if_true, Stream.polled]
        rw [hstep]
        exact next_inv_of_sameWindows h hst h.acquisition (.refl _)
          (h.stream subrId st hst).subscriber

theorem step_inv (h : SystemInv w) (event : Event μ) : SystemInv (w.step event) := by
  cases event with
  | register requested => exact register_inv h requested
  | receive frame => exact receive_inv h frame
  | push => exact push_inv h
  | finish outcome => exact finish_inv h outcome
  | next subscriberId cancelled => exact next_inv h subscriberId cancelled
  | acknowledge subscriberId index => exact acknowledge_inv h subscriberId index
  | unregister subscriberId => exact unregister_inv h subscriberId

theorem run_inv (h : SystemInv w) (evs : List (Event μ)) : SystemInv (w.run evs) := by
  induction evs generalizing w with
  | nil => exact h
  | cons event evs ih => exact ih (step_inv h event)

structure Delivers (w : System μ) : Prop where
  buffered : ∀ (subscriberId : Nat) st p sequence,
    w.streams[subscriberId]? = some st → w.acquisition.state.subscribers[subscriberId]? = some p →
    sequence ≤ st.lastSequence → sequence < w.acquisition.state.produced → p.acknowledged ≤ sequence →
    ∃ b ∈ w.acquisition.state.frames, b.sequence = sequence ∧ w.received[sequence]? = some b.frame
  watermark : ∀ (subscriberId : Nat) p,
    w.acquisition.state.subscribers[subscriberId]? = some p → p.acknowledged ≤ p.delivered
  handed : ∀ (subscriberId : Nat) st, w.streams[subscriberId]? =
    some st → st.handed.map HistoricalMaterialFrame.sequence = List.range' st.start st.handed.length ∧
    ∀ frame ∈ st.handed, w.received[frame.sequence]? = some frame.frame ∧ frame.sequence ≤
    st.lastSequence ∧ frame.frame.block.number = w.acquisition.range.start + frame.sequence
  /-- The next poll of an open stream hands out the next frame as soon as that was produced. It
  reports the end only after the last block, or when the producer ended without an error. -/
  polled : ∀ (subscriberId : Nat) st cancelled, w.streams[subscriberId]? = some st →
    st.dropped = false → st.subscription.terminal = false →
    match (st.subscription.next w.acquisition cancelled).2.2 with
    | .item frame => frame.sequence = st.start + st.handed.length
    | .ended => st.lastSequence < st.start + st.handed.length ∨ st.lastSequence = u64Max ∨
        (w.acquisition.state.produced ≤ st.start + st.handed.length ∧
          w.acquisition.state.terminal = some (.ok ()))
    | .failed _ | .waits => w.acquisition.state.produced ≤ st.start + st.handed.length

theorem delivers_of_inv (h : SystemInv w) : Delivers w := by
  have hmax := w.acquisition.range.last_le
  refine ⟨fun id st p sequence hst hp _ hprod hack => ?_,
    fun id p hp => (h.acquisition.progress id p hp).acknowledged_le, fun id st hst => ?_,
    fun id st cancelled hst hlive hterm => ?_⟩
  · obtain ⟨st', hst', hlive⟩ := h.live id p hp
    obtain rfl : st = st' := some.inj (hst.symm.trans hst')
    obtain ⟨q, hq, hw⟩ := (h.stream id st hst).registered hlive
    obtain rfl : p = q := some.inj (hp.symm.trans hq)
    have hstop : p.endExclusive = satAdd st.lastSequence 1 := congrArg snd hw
    have hproduced_le := h.acquisition.buffer.produced_le
    have hend : sequence < p.endExclusive := by
      rw [hstop]
      unfold satAdd; omega
    obtain ⟨b, hb, rfl⟩ := (h.acquisition.progress id p hp).retained _ hack hend hprod
    exact ⟨b, hb, rfl, h.acquisition.buffer.content b hb⟩
  · have hstrm := h.stream id st hst
    refine ⟨hstrm.sequences, fun frame hf => ?_⟩
    obtain ⟨-, hreceived, hle⟩ := hstrm.frames frame hf
    refine ⟨hreceived, hle, ?_⟩
    rw [h.acquisition.buffer.numbers _ _ hreceived]
    have := hstrm.inRange; exact satAdd_eq (by omega)
  · obtain ⟨hspec, -⟩ := poll_spec h hst hlive hterm cancelled
    have hin := (h.stream id st hst).inRange
    generalize (st.subscription.next w.acquisition cancelled).2.2 = polled at hspec ⊢
    cases hspec with
    | item hseq _ => exact hseq
    | complete hle =>
      unfold satAdd at hle; simp only; omega
    | exhausted _ hprod hok => exact .inr (.inr ⟨hprod, hok⟩)
    | failed _ hprod _ => exact hprod
    | cancelled _ hprod _ => exact hprod
    | waits _ hprod _ => exact hprod

/-- **Shared delivery**: in every state of every run, frames wait for every subscriber that has yet
to acknowledge them, and each stream gets exactly the produced frames of its range in order. -/
theorem run_delivers (id maximumBufferedFrames : Nat) (demand : Demand) (events : List (Event μ)) :
    Delivers ((System.start id maximumBufferedFrames demand).run events) :=
  delivers_of_inv (run_inv (start_inv id maximumBufferedFrames demand) events)

def threeBlocks : Demand where
  physical := ⟨1, 3, by decide, by decide⟩
  logical := ⟨1, 3, by decide, by decide⟩
  start_le := by decide
  last_le := by decide

/-- A source that ends early without an error ends the stream before its last block. -/
theorem run_endsEarly :
    let w := (System.start (μ := Unit) 0 4 threeBlocks).run [.finish (.ok ())]
    w.acquisition.state.terminal = some (.ok ()) ∧ ∃ st, w.streams[1]? = some st ∧ st.handed.length =
      0 ∧ st.lastSequence = 2 ∧ (st.subscription.next w.acquisition false).2.2 = .ended :=
  ⟨rfl, _, rfl, rfl, rfl, rfl⟩

end Leani.Historical
