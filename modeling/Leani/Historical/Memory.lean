import Leani.Historical.Buffer
import Leani.Library.Sums

/-!
# Memory of the material coordinator

A frame that somebody waits for is paid for before it is buffered: the producer reserves its bytes
and the reservation goes with the frame, through the buffer and to every subscriber. Clones share
it, and its destructor gives the bytes back once the last one is gone.

Frames here carry the reservation that pays for them in place of their material. Everything that
happens under one lock is one step, so the look at the subscribers and the admission under the
memory lock are two.
-/

namespace Leani.Historical

open Library Std List Table

def retention (frame : BlockFrame (Option Nat)) : Option Nat := frame.otherMaterial

def Acquisition.isReadAhead {μ : Type} (a : Acquisition μ) : Bool :=
  a.state.subscribers.toList.any fun entry => !entry.2.reading

inductive Producer where
  | reading
  | reserving (frame : BlockFrame (Option Nat)) (bytes : Nat)
  | looked (frame : BlockFrame (Option Nat)) (bytes : Nat) (readAhead : Bool)
  | pushing (frame : BlockFrame (Option Nat))
  | ended

def Producer.retention : Producer → Option Nat
  | .pushing frame => Historical.retention frame
  | _ => none

structure CoordinatorInner where
  memoryBytes : Nat
  memory : Nat
  reservations : Table Nat Nat
  nextReservation : Nat
  acquisitions : Table Nat (Acquisition (Option Nat))
  producers : Table Nat Producer
  delivered : Table Nat (HistoricalMaterialFrame (Option Nat))

def CoordinatorInner.new (memoryBytes : Nat) : CoordinatorInner :=
  ⟨memoryBytes, 0, ∅, 0, ∅, ∅, ∅⟩

inductive MemoryEvent where
  | open (id maximumBufferedFrames : Nat) (range firstRange : BlockRange) (firstSubscriber : Nat)
  | register (id subscriberId requestedStart requestedEnd : Nat)
  | receive (id : Nat) (frame : BlockFrame (Option Nat)) (estimatedBytes : Nat)
  | look (id : Nat)
  | admitFrame (id : Nat)
  | push (id : Nat)
  | stop (id : Nat) (outcome : Except SourceError Unit)
  | startReading (id subscriberId : Nat)
  | poll (id subscriberId : Nat) (cancelled : Bool) (name : Nat)
  | acknowledge (id subscriberId sequence : Nat)
  | unregister (id subscriberId : Nat)
  | dropFrame (name : Nat)
  | forget (id : Nat)
  | release (reservation : Nat)

namespace CoordinatorInner

def holds (c : CoordinatorInner) (reservation : Nat) : Bool :=
  (c.producers.toList.any fun entry => entry.2.retention = some reservation) ||
    (c.acquisitions.toList.any fun entry =>
      entry.2.state.frames.any fun buffered => retention buffered.frame = some reservation) ||
    c.delivered.toList.any fun entry => retention entry.2.frame = some reservation

def withAcquisition (c : CoordinatorInner) (id : Nat)
    (f : Acquisition (Option Nat) → Acquisition (Option Nat)) : Option CoordinatorInner :=
  (c.acquisitions[id]?).map fun a => { c with acquisitions := c.acquisitions.insert id (f a) }

/-- The loop of `produce`, after the source yielded a frame. -/
def receive (c : CoordinatorInner) (id : Nat) (a : Acquisition (Option Nat))
    (frame : BlockFrame (Option Nat)) (estimatedBytes : Nat) : CoordinatorInner :=
  match a.prepareNext frame with
  | .error e =>
    { c with
      acquisitions := c.acquisitions.insert id (a.finish (.error e))
      producers := c.producers.insert id .ended }
  | .ok (a', .retain) =>
    let bytes := max estimatedBytes 1
    if c.memoryBytes < bytes then
      let e := SourceError.source (s!"source resource budget exceeded: " ++
        s!"historical_material_memory, limit {c.memoryBytes}, observed {bytes}")
      { c with
        acquisitions := c.acquisitions.insert id (a'.finish (.error e))
        producers := c.producers.insert id .ended }
    else
      { c with
        acquisitions := c.acquisitions.insert id a'
        producers := c.producers.insert id (.reserving frame bytes) }
  | .ok (a', _) => { c with acquisitions := c.acquisitions.insert id a' }

def limit (c : CoordinatorInner) (readAhead : Bool) : Nat :=
  if readAhead then c.memoryBytes / 2 else c.memoryBytes

def admitFrame (c : CoordinatorInner) (id : Nat) (frame : BlockFrame (Option Nat)) (bytes : Nat)
    (readAhead : Bool) : CoordinatorInner :=
  if c.limit readAhead < satAdd c.memory bytes then
    { c with producers := c.producers.insert id (.reserving frame bytes) }
  else
    { c with
      memory := satAdd c.memory bytes
      reservations := c.reservations.insert c.nextReservation bytes
      nextReservation := c.nextReservation + 1
      producers := c.producers.insert id
        (.pushing { frame with otherMaterial := some c.nextReservation }) }

def step (c : CoordinatorInner) : MemoryEvent → Option CoordinatorInner
  | .open id maximumBufferedFrames range firstRange firstSubscriber =>
    if id ∈ c.acquisitions ∨ id ∈ c.producers then none
    else some { c with
      acquisitions := c.acquisitions.insert id
        (.new id maximumBufferedFrames range firstRange firstSubscriber)
      producers := c.producers.insert id .reading }
  | .register id subscriberId requestedStart requestedEnd =>
    match c.acquisitions[id]? with
    | none => none
    | some a =>
      (a.tryRegister subscriberId requestedStart requestedEnd).map fun (a', _) =>
        { c with acquisitions := c.acquisitions.insert id a' }
  | .receive id frame estimatedBytes =>
    match c.producers[id]?, c.acquisitions[id]? with
    | some .reading, some a => some (c.receive id a frame estimatedBytes)
    | _, _ => none
  | .look id =>
    match c.producers[id]?, c.acquisitions[id]? with
    | some (.reserving frame bytes), some a => some { c with
        producers := c.producers.insert id (.looked frame bytes a.isReadAhead) }
    | _, _ => none
  | .admitFrame id =>
    match c.producers[id]? with
    | some (.looked frame bytes readAhead) => some (c.admitFrame id frame bytes readAhead)
    | _ => none
  | .push id =>
    match c.producers[id]?, c.acquisitions[id]? with
    | some (.pushing frame), some a =>
      match a.push frame with
      | .error e => some { c with
          acquisitions := c.acquisitions.insert id (a.finish (.error e))
          producers := c.producers.insert id .ended }
      | .ok none => some c
      | .ok (some a') => some { c with
          acquisitions := c.acquisitions.insert id a'
          producers := c.producers.insert id .reading }
    | _, _ => none
  | .stop id outcome =>
    match c.producers[id]?, c.acquisitions[id]? with
    | some _, some a => some { c with
        acquisitions := c.acquisitions.insert id (a.finish outcome)
        producers := c.producers.insert id .ended }
    | _, _ => none
  | .startReading id subscriberId => c.withAcquisition id (·.startReading subscriberId)
  | .poll id subscriberId cancelled name =>
    match c.acquisitions[id]? with
    | none => none
    | some a =>
      match pollOnce a ⟨subscriberId, false, true⟩ cancelled with
      | (a', _, .item frame) =>
        if name ∈ c.delivered then none
        else some { c with
          acquisitions := c.acquisitions.insert id a'
          delivered := c.delivered.insert name frame }
      | (a', _, _) => some { c with acquisitions := c.acquisitions.insert id a' }
  | .acknowledge id subscriberId sequence =>
    c.withAcquisition id (·.acknowledge subscriberId sequence)
  | .unregister id subscriberId => c.withAcquisition id (·.unregister subscriberId)
  | .dropFrame name => some { c with delivered := c.delivered.erase name }
  | .forget id =>
    match c.producers[id]?, c.acquisitions[id]? with
    | some .ended, some a =>
      if a.state.subscribers.isEmpty then some { c with
        acquisitions := c.acquisitions.erase id
        producers := c.producers.erase id }
      else none
    | _, _ => none
  | .release reservation =>
    match c.reservations[reservation]? with
    | some bytes =>
      if c.holds reservation then none
      else some { c with
        memory := c.memory - bytes
        reservations := c.reservations.erase reservation }
    | none => none

def run (c : CoordinatorInner) (events : List MemoryEvent) : CoordinatorInner :=
  events.foldl (fun c event => (c.step event).getD c) c

end CoordinatorInner

section Buffers

variable {a a' : Acquisition (Option Nat)} {reservation : Nat}

def Acquisition.Buffers (a : Acquisition (Option Nat)) (reservation : Nat) : Prop :=
  ∃ buffered ∈ a.state.frames, retention buffered.frame = some reservation

theorem Acquisition.Buffers.of_sublist (h : a'.Buffers reservation)
    (hfrs : a'.state.frames.Sublist a.state.frames) : a.Buffers reservation := by
  obtain ⟨buffered, hin, hr⟩ := h; exact ⟨buffered, hfrs.subset hin, hr⟩

variable {subscriberId : Nat}

theorem buffers_tryRegister {reqStart reqEnd last : Nat}
    (h : a.tryRegister subscriberId reqStart reqEnd = some (a', last))
    (hb : a'.Buffers reservation) : a.Buffers reservation := by
  obtain ⟨-, -, -, -, rfl⟩ := tryRegister_eq_some h; exact hb

variable {frame : BlockFrame (Option Nat)}

theorem buffers_prepareNext {disposition : NextFrameDisposition} (h : a.prepareNext frame =
    .ok (a', disposition)) (hb : a'.Buffers reservation) : a.Buffers reservation := by
  unfold Acquisition.prepareNext at h
  split at h
  · cases h
  · simp only at h
    split at h
    · cases h
    · split at h
      · cases h; exact hb
      · cases h; exact hb

theorem buffers_push (h : a.push frame = .ok (some a')) (hb : a'.Buffers reservation) :
    a.Buffers reservation ∨ retention frame = some reservation := by
  rw [push_eq_some h] at hb
  obtain ⟨buffered, hin, hr⟩ := hb
  rcases mem_append.1 hin with hin | hin
  · exact .inl ⟨buffered, hin, hr⟩
  · rw [mem_singleton.1 hin] at hr; exact .inr hr

theorem buffers_acknowledge {seq : Nat}
    (hb : (a.acknowledge subscriberId seq).Buffers reservation) : a.Buffers reservation := by
  refine hb.of_sublist ?_
  unfold Acquisition.acknowledge
  split
  · exact List.Sublist.refl _
  · split
    · exact pruneAcknowledged_frames _
    · exact List.Sublist.refl _

theorem buffers_unregister
    (hb : (a.unregister subscriberId).Buffers reservation) : a.Buffers reservation := by
  refine hb.of_sublist ?_
  unfold Acquisition.unregister
  simp only
  split
  · exact nil_sublist _
  · exact pruneAcknowledged_frames _

theorem buffers_startReading
    (hb : (a.startReading subscriberId).Buffers reservation) : a.Buffers reservation := by
  refine hb.of_sublist ?_
  unfold Acquisition.startReading
  split <;> exact List.Sublist.refl _

theorem buffers_deliver {progress : SubscriberProgress} {buffered : BufferedFrame (Option Nat)}
    (hb : (a.deliver subscriberId progress buffered).1.Buffers reservation) :
    a.Buffers reservation := by
  obtain ⟨b, hin, hr⟩ := hb
  have hmem : (b.sequence, b.frame) ∈
      (attributeFrame progress.delivered a.state.frames).map fun b => (b.sequence, b.frame) :=
    mem_map.2 ⟨b, hin, rfl⟩
  rw [attributeFrame_content] at hmem
  obtain ⟨b', hin', heq⟩ := mem_map.1 hmem; rw [← (Prod.mk.inj heq).2] at hr; exact ⟨b', hin', hr⟩

theorem buffers_pollOnce {sub sub' : MaterialSubscription}
    {cancel : Bool} {polled : Polled (Option Nat)} (h : pollOnce a sub cancel = (a', sub', polled)) :
    (a'.Buffers reservation → a.Buffers reservation) ∧ ∀ frame,
    polled = .item frame → retention frame.frame = some reservation → a.Buffers reservation := by
  unfold pollOnce at h
  simp only at h
  split at h
  · cases h; exact ⟨fun hb => hb, fun _ hfrm => absurd hfrm (by simp)⟩
  · split at h
    · cases h; exact ⟨fun hb => hb, fun _ hfrm => absurd hfrm (by simp)⟩
    · split at h
      · split at h
        · cases h; exact ⟨fun hb => hb, fun _ hfrm => absurd hfrm (by simp)⟩
        · rename_i buffered hfind
          rw [Prod.mk.injEq, Prod.mk.injEq] at h
          obtain ⟨rfl, -, rfl⟩ := h
          refine ⟨fun hb => buffers_deliver hb, fun frame hfrm hr => ?_⟩
          rw [Polled.item.injEq] at hfrm
          rw [← hfrm] at hr; exact ⟨buffered, mem_of_find?_eq_some hfind, hr⟩
      · split at h
        · cases h; exact ⟨fun hb => hb, fun _ hfrm => absurd hfrm (by simp)⟩
        · cases h; exact ⟨fun hb => hb, fun _ hfrm => absurd hfrm (by simp)⟩
        · split at h
          · cases h; exact ⟨fun hb => hb, fun _ hfrm => absurd hfrm (by simp)⟩
          · cases h; exact ⟨fun hb => hb, fun _ hfrm => absurd hfrm (by simp)⟩

end Buffers

namespace CoordinatorInner

variable {c c' : CoordinatorInner} {id reservation : Nat}

def Held (c : CoordinatorInner) (reservation : Nat) : Prop :=
  (∃ (id : Nat) (producer : Producer), c.producers[id]? = some producer ∧
    producer.retention = some reservation) ∨
  (∃ (id : Nat) (a : Acquisition (Option Nat)), c.acquisitions[id]? = some a ∧
    a.Buffers reservation) ∨
  ∃ (name : Nat) (frame : HistoricalMaterialFrame (Option Nat)),
    c.delivered[name]? = some frame ∧ retention frame.frame = some reservation

theorem any_toList {κ ν : Type} [Ord κ] [Std.TransOrd κ] [Std.LawfulEqOrd κ] {t : Table κ ν}
    {p : ν → Bool} : (t.toList.any fun entry => p entry.2) = true ↔
      ∃ (k : κ) (v : ν), t[k]? = some v ∧ p v = true := by
  rw [any_eq_true]
  constructor
  · rintro ⟨⟨k, v⟩, hin, hp⟩; exact ⟨k, v, mem_toList.1 hin, hp⟩
  · rintro ⟨k, v, hv, hp⟩; exact ⟨(k, v), mem_toList.2 hv, hp⟩

theorem holds_iff : c.holds reservation = true ↔ c.Held reservation := by
  have hiff : c.holds reservation = true ↔
      ((∃ (id : Nat) (producer : Producer), c.producers[id]? = some producer ∧
        decide (producer.retention = some reservation) = true) ∨
      (∃ (id : Nat) (a : Acquisition (Option Nat)), c.acquisitions[id]? = some a ∧
        (a.state.frames.any fun buffered => retention buffered.frame = some reservation) = true)) ∨
      ∃ (name : Nat) (frame : HistoricalMaterialFrame (Option Nat)), c.delivered[name]? = some frame ∧
          decide (retention frame.frame = some reservation) = true := by
    rw [holds, Bool.or_eq_true, Bool.or_eq_true]
    refine or_congr (or_congr ?_ ?_) ?_
    · exact any_toList (p := fun producer : Producer =>
        decide (producer.retention = some reservation))
    · exact any_toList (p := fun a : Acquisition (Option Nat) =>
        a.state.frames.any fun buffered => retention buffered.frame = some reservation)
    · exact any_toList (p := fun frame : HistoricalMaterialFrame (Option Nat) =>
        decide (retention frame.frame = some reservation))
  rw [hiff]; simp only [decide_eq_true_iff, any_eq_true]; exact or_assoc

variable {producer : Producer}

theorem held_of_producer (hp : c.producers[id]? = some producer)
    (hr : producer.retention = some reservation) : c.Held reservation :=
  .inl ⟨id, producer, hp, hr⟩

variable {a : Acquisition (Option Nat)}

theorem held_of_buffers (ha : c.acquisitions[id]? = some a) (hb : a.Buffers reservation) :
    c.Held reservation :=
  .inr (.inl ⟨id, a, ha, hb⟩)

structure Inv (c : CoordinatorInner) : Prop where
  counter : c.memory = Table.sum c.reservations fun _ bytes => bytes
  bounded : c.memory ≤ c.memoryBytes
  live : ∀ reservation, c.Held reservation → reservation ∈ c.reservations
  fresh : ∀ reservation ∈ c.reservations, reservation < c.nextReservation

theorem inv_new (memoryBytes : Nat) : Inv (new memoryBytes) where
  counter := rfl
  bounded := Nat.zero_le _
  live reservation h := by
    rcases h with ⟨_, _, h, _⟩ | ⟨_, _, h, _⟩ | ⟨_, _, h, _⟩
    · exact (not_mem_empty h).elim
    · exact (not_mem_empty h).elim
    · exact (not_mem_empty h).elim
  fresh _ h := absurd h ExtTreeMap.not_mem_empty

theorem Inv.move {producers : Table Nat Producer} {acquisitions : Table Nat (Acquisition (Option Nat))}
    {delivered : Table Nat (HistoricalMaterialFrame (Option Nat))} (h : c.Inv)
    (hheld : ∀ reservation, Held { c with producers, acquisitions, delivered } reservation →
      c.Held reservation) : Inv { c with producers, acquisitions, delivered } where
  counter := h.counter
  bounded := h.bounded
  live reservation hr := h.live reservation (hheld reservation hr)
  fresh := h.fresh

theorem Inv.replace {producer : Producer} {a' : Acquisition (Option Nat)}
    (h : c.Inv) (hproducer : ∀ resv, producer.retention = some resv → c.Held resv)
    (hbuffers : ∀ resv, a'.Buffers resv → c.Held resv) : Inv { c with
      producers := c.producers.insert id producer
      acquisitions := c.acquisitions.insert id a' } := by
  refine h.move fun resv hr => ?_
  rcases hr with ⟨j, _, hp, hr⟩ | ⟨j, _, hb, hr⟩ | hr
  · rcases insert_cases hp with ⟨-, rfl⟩ | ⟨-, hp⟩
    · exact hproducer resv hr
    · exact held_of_producer hp hr
  · rcases insert_cases hb with ⟨-, rfl⟩ | ⟨-, hb⟩
    · exact hbuffers resv hr
    · exact held_of_buffers hb hr
  · exact .inr (.inr hr)

theorem Inv.withProducer (h : c.Inv) (hproducer : ∀ resv, producer.retention =
    some resv → c.Held resv) : Inv { c with producers := c.producers.insert id producer } := by
  refine h.move fun resv hr => ?_
  rcases hr with ⟨_, _, hp, hr⟩ | hr
  · rcases insert_cases hp with ⟨-, rfl⟩ | ⟨-, hp⟩
    · exact hproducer resv hr
    · exact held_of_producer hp hr
  · exact .inr hr

theorem Inv.withBuffer {a' : Acquisition (Option Nat)} (h : c.Inv) (hbuffers : ∀ resv,
    a'.Buffers resv → c.Held resv) : Inv { c with acquisitions := c.acquisitions.insert id a' } := by
  refine h.move fun resv hr => ?_
  rcases hr with hr | ⟨_, _, hb, hr⟩ | hr
  · exact .inl hr
  · rcases insert_cases hb with ⟨-, rfl⟩ | ⟨-, hb⟩
    · exact hbuffers resv hr
    · exact held_of_buffers hb hr
  · exact .inr (.inr hr)

theorem Inv.withAcquisition {f : Acquisition (Option Nat) → Acquisition (Option Nat)} (h : c.Inv)
    (hf : ∀ a resv, (f a).Buffers resv → a.Buffers resv)
    (hs : c.withAcquisition id f = some c') : c'.Inv := by
  obtain ⟨a, ha, rfl⟩ := Option.map_eq_some_iff.1 hs
  exact h.withBuffer fun resv hb => held_of_buffers ha (hf a resv hb)

theorem satAdd_of_le {n bytes limit : Nat} (hlimit : limit < u64Max)
    (h : ¬ limit < satAdd n bytes) : satAdd n bytes = n + bytes :=
  satAdd_of_lt (by omega)

theorem limit_le (c : CoordinatorInner) (readAhead : Bool) : c.limit readAhead ≤ c.memoryBytes := by
  unfold limit
  split
  · exact Nat.div_le_self _ _
  · exact le_rfl

variable {frame : BlockFrame (Option Nat)}

theorem Inv.admitFrame {bytes : Nat} {readAhead : Bool} (h : c.Inv)
    (hmemory : c.memoryBytes < u64Max) : (c.admitFrame id frame bytes readAhead).Inv := by
  have hlimit := c.limit_le readAhead
  unfold CoordinatorInner.admitFrame
  split
  · exact h.withProducer fun _ hr => absurd hr nofun
  · rename_i hfits
    have hsum := satAdd_of_le (Nat.lt_of_le_of_lt hlimit hmemory) hfits
    have hnew : c.reservations[c.nextReservation]? = none := by
      cases hget : c.reservations[c.nextReservation]? with
      | none => rfl
      | some _ => exact absurd (h.fresh _ (mem_of_getElem? hget)) (Nat.lt_irrefl _)
    refine ⟨?_, by dsimp only; omega, fun resv hr => ?_, fun resv hin => ?_⟩
    · rw [hsum, sum_insert, erase_of_get?_eq_none hnew, h.counter, Nat.add_comm]
    · refine mem_insert_iff.2 ?_
      rcases hr with ⟨_, _, hp, hr⟩ | hr
      · rcases insert_cases hp with ⟨-, rfl⟩ | ⟨-, hp⟩
        · exact .inl (Option.some.inj hr).symm
        · exact .inr (h.live resv (held_of_producer hp hr))
      · exact .inr (h.live resv (.inr hr))
    · rcases mem_insert_iff.1 hin with rfl | hin
      · exact Nat.lt_succ_self _
      · exact Nat.lt_succ_of_lt (h.fresh resv hin)

theorem Inv.release {bytes : Nat} (h : c.Inv)
    (hr : c.reservations[reservation]? = some bytes) (hheld : ¬ c.Held reservation) : Inv { c with
      memory := c.memory - bytes
      reservations := c.reservations.erase reservation } where
  counter := by
    have hsum := sum_of_get? (fun _ bytes => bytes) hr
    rw [h.counter, hsum, Nat.add_sub_cancel_left]
  bounded := by
    have hle := h.bounded
    dsimp only; omega
  live other ho := mem_erase_iff.2 ⟨fun heq => hheld (heq ▸ ho), h.live other ho⟩
  fresh other ho := h.fresh other (mem_erase_iff.1 ho).2

theorem Inv.receive {estimatedBytes : Nat} (h : c.Inv) (ha : c.acquisitions[id]? = some a) :
    (c.receive id a frame estimatedBytes).Inv := by
  unfold CoordinatorInner.receive
  split
  · exact h.replace (fun _ hr => by cases hr) fun _ hb => held_of_buffers ha hb
  · rename_i a' hprepare
    simp only
    split
    · exact h.replace (fun _ hr => by cases hr) fun _ hb =>
        held_of_buffers ha (buffers_prepareNext hprepare hb)
    · exact h.replace (fun _ hr => by cases hr) fun _ hb =>
        held_of_buffers ha (buffers_prepareNext hprepare hb)
  · rename_i a' disposition _ hprepare
    exact h.withBuffer fun _ hb => held_of_buffers ha (buffers_prepareNext hprepare hb)

theorem Inv.step (h : c.Inv) (hmemory : c.memoryBytes < u64Max) {event : MemoryEvent}
    (hs : c.step event = some c') : c'.Inv ∧ c'.memoryBytes = c.memoryBytes := by
  cases event with
  | «open» id maximumBufferedFrames range firstRange firstSubscriber =>
    simp only [CoordinatorInner.step] at hs
    split at hs
    · cases hs
    · cases hs
      refine ⟨h.replace (fun _ hr => by cases hr) fun resv hb => ?_, rfl⟩
      obtain ⟨_, hin, _⟩ := hb; exact absurd hin not_mem_nil
  | register id subscriberId requestedStart requestedEnd =>
    simp only [CoordinatorInner.step] at hs
    split at hs
    · cases hs
    · rename_i a ha
      obtain ⟨⟨a', _⟩, hregister, rfl⟩ := Option.map_eq_some_iff.1 hs
      exact ⟨h.withBuffer fun _ hb => held_of_buffers ha (buffers_tryRegister hregister hb), rfl⟩
  | receive id frame estimatedBytes =>
    simp only [CoordinatorInner.step] at hs
    split at hs
    · rename_i a _ ha
      cases hs
      refine ⟨h.receive ha, ?_⟩
      unfold CoordinatorInner.receive
      split
      · rfl
      · dsimp only
        split <;> rfl
      · rfl
    · cases hs
  | look id =>
    simp only [CoordinatorInner.step] at hs
    split at hs
    · cases hs; exact ⟨h.withProducer fun _ hr => absurd hr nofun, rfl⟩
    · cases hs
  | admitFrame id =>
    simp only [CoordinatorInner.step] at hs
    split at hs
    · cases hs
      refine ⟨h.admitFrame hmemory, ?_⟩
      unfold CoordinatorInner.admitFrame
      split <;> rfl
    · cases hs
  | push id =>
    simp only [CoordinatorInner.step] at hs
    split at hs
    · rename_i frame a hp ha
      split at hs
      · cases hs; exact ⟨h.replace (fun _ hr => by cases hr) fun _ hb => held_of_buffers ha hb, rfl⟩
      · cases hs; exact ⟨h, rfl⟩
      · rename_i a' hpush
        cases hs
        refine ⟨h.replace (fun _ hr => by cases hr) fun resv hb => ?_, rfl⟩
        rcases buffers_push hpush hb with hb | hr
        · exact held_of_buffers ha hb
        · exact held_of_producer hp hr
    · cases hs
  | stop id outcome =>
    simp only [CoordinatorInner.step] at hs
    split at hs
    · rename_i a _ ha
      cases hs; exact ⟨h.replace (fun _ hr => by cases hr) fun _ hb => held_of_buffers ha hb, rfl⟩
    · cases hs
  | startReading id subscriberId =>
    refine ⟨h.withAcquisition (fun a _ => buffers_startReading) hs, ?_⟩
    obtain ⟨_, _, rfl⟩ := Option.map_eq_some_iff.1 hs; rfl
  | poll id subscriberId cancelled name =>
    simp only [CoordinatorInner.step] at hs
    split at hs
    · cases hs
    · rename_i a ha
      split at hs
      · rename_i a' _ frame hpoll
        split at hs
        · cases hs
        · cases hs
          refine ⟨h.move fun resv hr => ?_, rfl⟩
          rcases hr with hr | ⟨j, b, hb, hr⟩ | ⟨j, f, hf, hr⟩
          · exact .inl hr
          · rcases insert_cases hb with ⟨-, rfl⟩ | ⟨-, hb⟩
            · exact held_of_buffers ha ((buffers_pollOnce hpoll).1 hr)
            · exact held_of_buffers hb hr
          · rcases insert_cases hf with ⟨-, rfl⟩ | ⟨-, hf⟩
            · exact held_of_buffers ha ((buffers_pollOnce hpoll).2 frame rfl hr)
            · exact .inr (.inr ⟨j, f, hf, hr⟩)
      · rename_i a' _ _ _ hpoll
        cases hs
        exact ⟨h.withBuffer fun _ hb => held_of_buffers ha ((buffers_pollOnce hpoll).1 hb), rfl⟩
  | acknowledge id subscriberId sequence =>
    refine ⟨h.withAcquisition (fun a _ => buffers_acknowledge) hs, ?_⟩
    obtain ⟨_, _, rfl⟩ := Option.map_eq_some_iff.1 hs; rfl
  | unregister id subscriberId =>
    refine ⟨h.withAcquisition (fun a _ => buffers_unregister) hs, ?_⟩
    obtain ⟨_, _, rfl⟩ := Option.map_eq_some_iff.1 hs; rfl
  | dropFrame name =>
    cases hs
    refine ⟨h.move fun resv hr => ?_, rfl⟩
    rcases hr with hr | hr | ⟨j, f, hf, hr⟩
    · exact .inl hr
    · exact .inr (.inl hr)
    · obtain ⟨-, hf⟩ := erase_cases hf; exact .inr (.inr ⟨j, f, hf, hr⟩)
  | forget id =>
    simp only [CoordinatorInner.step] at hs
    split at hs
    · split at hs
      · cases hs
        refine ⟨h.move fun resv hr => ?_, rfl⟩
        rcases hr with ⟨j, _, hp, hr⟩ | ⟨j, b, hb, hr⟩ | hr
        · obtain ⟨-, hp⟩ := erase_cases hp; exact held_of_producer hp hr
        · obtain ⟨-, hb⟩ := erase_cases hb; exact held_of_buffers hb hr
        · exact .inr (.inr hr)
      · cases hs
    · cases hs
  | release resv =>
    simp only [CoordinatorInner.step] at hs
    split at hs
    · rename_i bytes hr
      split at hs
      · cases hs
      · rename_i hheld; cases hs; exact ⟨h.release hr fun hh => hheld (holds_iff.2 hh), rfl⟩
    · cases hs

theorem inv_run (evs : List MemoryEvent) : ∀ {c : CoordinatorInner}, c.Inv →
    c.memoryBytes < u64Max → (c.run evs).Inv ∧ (c.run evs).memoryBytes = c.memoryBytes := by
  induction evs with
  | nil => exact fun h _ => ⟨h, rfl⟩
  | cons event evs ih =>
    intro c h hmemory
    have hstep : ((c.step event).getD c).Inv ∧ ((c.step event).getD c).memoryBytes = c.memoryBytes := by
      cases hs : c.step event with
      | none => exact ⟨h, rfl⟩
      | some c' => exact h.step hmemory hs
    obtain ⟨hinv, hbytes⟩ := ih hstep.1 (hstep.2 ▸ hmemory); exact ⟨hinv, hbytes.trans hstep.2⟩

structure Accounted (c : CoordinatorInner) : Prop where
  retained : c.memory = Table.sum c.reservations fun _ bytes => bytes
  bounded : c.memory ≤ c.memoryBytes
  held : ∀ reservation, c.Held reservation → reservation ∈ c.reservations
  released : ∀ reservation bytes, c.reservations[reservation]? = some bytes → bytes ≤ c.memory ∧
    (¬ c.Held reservation → ∃ c', c.step (.release reservation) = some c' ∧
      c'.memory + bytes = c.memory ∧ reservation ∉ c'.reservations)
  looked : ∀ id c', c.step (.look id) = some c' → ∃ a frame bytes,
    c.acquisitions[id]? = some a ∧ c'.producers[id]? = some (.looked frame bytes a.isReadAhead)
  readAhead : ∀ id frame bytes c' frame', c.producers[id]? = some (.looked frame bytes true) →
    c.step (.admitFrame id) = some c' → c'.producers[id]? = some (.pushing frame') →
    c'.memory + c.memoryBytes / 2 ≤ c.memoryBytes

theorem Inv.accounted (h : c.Inv) : c.Accounted where
  retained := h.counter
  bounded := h.bounded
  held := h.live
  released reservation bytes hr := by
    have hle : bytes ≤ c.memory := by
      rw [h.counter]; exact le_sum_of_get? (f := fun _ bytes => bytes) hr
    refine ⟨hle, fun hheld => ⟨{ c with
      memory := c.memory - bytes
      reservations := c.reservations.erase reservation }, ?_, Nat.sub_add_cancel hle, ?_⟩⟩
    · simp only [CoordinatorInner.step, hr]; exact if_neg fun hh => hheld (holds_iff.1 hh)
    · exact fun hin => (mem_erase_iff.1 hin).1 rfl
  looked id c' hs := by
    simp only [CoordinatorInner.step] at hs
    split at hs
    · rename_i frame bytes a hp ha
      cases hs; exact ⟨a, frame, bytes, ha, getElem?_insert_self _ _ _⟩
    · cases hs
  readAhead id frame bytes c' frame' hp hs hpushing := by
    simp only [CoordinatorInner.step, hp, Option.some.injEq] at hs
    subst hs
    unfold CoordinatorInner.admitFrame at hpushing ⊢
    split at hpushing
    · rw [getElem?_insert_self] at hpushing; cases hpushing
    · rename_i hfits
      rw [if_neg hfits]
      simp only [limit, if_true] at hfits
      dsimp only; omega

/-- However producers reserve, wait, push and end, and subscribers come, read and go. -/
theorem run_accounted {memoryBytes : Nat} (h : memoryBytes < u64Max) (events : List MemoryEvent) :
    ((new memoryBytes).run events).Accounted :=
  (inv_run events (inv_new memoryBytes) h).1.accounted

def tenBlocks : BlockRange := ⟨0, 9, by decide, by decide⟩

def unpaid (number : Nat) : BlockFrame (Option Nat) where
  chainId := 1
  block := ⟨number, BitVec.ofNat 256 number, 0, 0⟩
  finality := .finalized
  transactions := .missing none
  receipts := .missing none
  otherMaterial := none
  provenance := none
  verification := ⟨false, none, none⟩

/-- A subscriber that joins between the look and the admission turns the acquisition into
read-ahead, and the frame is admitted beyond its share; and a coordinator may be configured with so
much memory that the counter saturates before the limit is reached. -/
theorem admitted_beyond_share :
    (¬ ∀ (memoryBytes : Nat) (events : List MemoryEvent) (id : Nat)
      (a : Acquisition (Option Nat)) (c' : CoordinatorInner) (frame : BlockFrame (Option Nat)),
      ((new memoryBytes).run events).acquisitions[id]? = some a → a.isReadAhead = true →
      ((new memoryBytes).run events).step (.admitFrame id) = some c' →
      c'.producers[id]? = some (.pushing frame) →
      c'.memory + memoryBytes / 2 ≤ memoryBytes) ∧
    ¬ ∀ events : List MemoryEvent, ((new u64Max).run events).memory =
      Table.sum ((new u64Max).run events).reservations fun _ bytes => bytes := by
  constructor
  · intro h
    have hlate := h 10 [.open 0 4 tenBlocks tenBlocks 0, .startReading 0 0, .receive 0 (unpaid 0) 8,
      .look 0, .register 0 1 0 9] 0 _ _ _ rfl rfl rfl rfl
    exact absurd hlate (by decide)
  · intro h
    have hsum := h [.open 0 4 tenBlocks tenBlocks 0, .startReading 0 0, .receive 0 (unpaid 0) u64Max,
      .look 0, .admitFrame 0, .push 0, .receive 0 (unpaid 1) 1, .look 0, .admitFrame 0]
    exact absurd hsum (by decide +kernel)

/-- Two subscribers, one of which is dropped with the frame it was handed still in use. -/
theorem run_accounted_dropped : ((new 1000).run
    [.open 0 4 tenBlocks tenBlocks 0, .register 0 1 0 9, .receive 0 (unpaid 0) 400, .look 0,
      .admitFrame 0, .push 0, .poll 0 0 false 7, .unregister 0 1, .unregister 0 0, .release 0,
      .dropFrame 7, .release 0]).Accounted :=
  run_accounted (by decide) _

end CoordinatorInner

end Leani.Historical
