import Leani.Delivery.Retention

/-!
# The live delivery reader

`poll_live_consumer` reads a live stream page by page behind its cursor and cuts what it read into
batches, one commit each, while the store goes on publishing, pruning and acknowledging. What it
sent and what it still holds are the records after its start, in order, each once.
-/

namespace Leani.Delivery

open Library List

structure LiveConsumerStreamState where
  fetchAfter : Nat
  fetched : List (Nat × ChangeRow)
  /-- The last page read reached the head of the stream. -/
  fetchedThroughHead : Bool
  terminal : Bool

/-- The stream's configuration and session. `encodes` is whether a batch can be encoded within
`maximum_encoded_bytes`. -/
structure LiveConsumer where
  consumerId : String
  generation : Nat
  chainId : Nat
  maximumEvents : Nat
  encodes : List (Nat × ChangeRow) → Bool

def sameLiveCommit (first candidate : ChangeRow) : Bool :=
  first.block = candidate.block ∧ first.finality = candidate.finality ∧
    first.direction = candidate.direction ∧ first.origin = candidate.origin

/-- How many of the fetched records are the first commit, once it can go out whole. -/
def wholeLiveBlock (fetched : List (Nat × ChangeRow)) (fetchedThroughHead : Bool)
    (maximumEvents : Nat) : Option Nat :=
  match fetched with
  | [] => none
  | first :: _ =>
    let records := (fetched.takeWhile fun record => sameLiveCommit first.2 record.2).length
    if records < fetched.length ∨ fetchedThroughHead ∨ maximumEvents < records then some records
    else none

/-- The node as the reader meets it: `history` is every record ever published. -/
structure LiveServing where
  stream : Stream
  history : List ChangeRow
  reader : LiveConsumerStreamState
  sent : List (List (Nat × ChangeRow))

namespace LiveServing

variable (consumer : LiveConsumer) (t : LiveServing)

def stop : LiveServing := { t with reader := { t.reader with terminal := true } }

def observe (e : Event) : LiveServing :=
  { t with stream := step t.stream e, history := t.history ++ publishedBy t.stream e }

/-- Send the first `count` records, or end the stream with a failure record. -/
def sendBatch (now count : Nat) : LiveServing :=
  let records := t.reader.fetched.take count
  let t := { t with reader := { t.reader with fetched := t.reader.fetched.drop count } }
  if consumer.maximumEvents < records.length ∨ consumer.encodes records = false then t.stop else
  let through := (records.getLast?).elim 0 (·.1)
  match recordConsumerDelivery t.stream now consumer.consumerId (some consumer.generation) through with
  | .ok (_, true) =>
    { t.observe (.recordDelivery now consumer.consumerId (some consumer.generation) through) with
      sent := t.sent ++ [records] }
  | _ => t.stop

def readOn : LiveServing :=
  let fetchLimit := min (satAdd consumer.maximumEvents 1) 10000
  match readPage t.stream consumer.consumerId consumer.chainId t.reader.fetchAfter fetchLimit with
  | .ok (some records) =>
    match records.getLast? with
    | some last => { t with reader := { t.reader with
        fetchAfter := last.1
        fetched := t.reader.fetched ++ records
        fetchedThroughHead := records.length < fetchLimit } }
    -- The previous full page ended exactly at the head.
    | none => { t with reader := { t.reader with
        fetchedThroughHead := t.reader.fetchedThroughHead || !t.reader.fetched.isEmpty } }
  | .ok none =>
    let marked := t.observe (.markReset consumer.consumerId)
    if (markResetRequired t.stream consumer.consumerId).2.isSome then marked.stop else marked
  | .error _ => t.stop

/-- One round of the loop of `poll_live_consumer`. -/
def poll (now : Nat) : LiveServing :=
  if t.reader.terminal then t else
  match wholeLiveBlock t.reader.fetched t.reader.fetchedThroughHead consumer.maximumEvents with
  | some count => t.sendBatch consumer now count
  | none => t.readOn consumer

inductive Step where
  | stream (e : Event)
  | poll (now : Nat)

def serve (t : LiveServing) : Step → LiveServing
  | .stream e => t.observe e
  | .poll now => t.poll consumer now

/-- The stream's head at `start`, when the reader opens. -/
def opened (kind : DeliveryStreamKind) (es : List Event) (start : Nat) : LiveServing :=
  ⟨run (.new kind) es, published (.new kind) es, ⟨start, [], false, false⟩, []⟩

def OneCommit (batch : List (Nat × ChangeRow)) : Prop :=
  ∃ first rest, batch = first :: rest ∧ ∀ record ∈ rest, sameLiveCommit first.2 record.2 = true

/-- What was sent and what is held are the records after `start` up to the cursor. -/
structure Serves (start : Nat) (t : LiveServing) : Prop where
  log : ∃ log, Holds log t.stream ∧ log.history = t.history
  reads : ∃ held, ReadTo t.history start t.reader.fetchAfter (t.sent.flatten ++ held) ∧
    (t.reader.terminal = false → t.reader.fetched = held)
  batches : ∀ batch ∈ t.sent, OneCommit batch ∧ batch.length ≤ consumer.maximumEvents

variable {consumer} {t} {start : Nat}

theorem Serves.stop (h : Serves consumer start t) {reader : LiveConsumerStreamState}
    (hcursor : reader.fetchAfter = t.reader.fetchAfter) :
    Serves consumer start { t with reader := reader }.stop := by
  obtain ⟨held, hreads, -⟩ := h.reads
  exact ⟨h.log, ⟨held, hcursor ▸ hreads, nofun⟩, h.batches⟩

theorem Serves.observe (h : Serves consumer start t) (e : Event) :
    Serves consumer start (t.observe e) := by
  obtain ⟨log, hlog, hhistory⟩ := h.log
  obtain ⟨held, hreads, hheld⟩ := h.reads
  obtain ⟨log', hlog', hhistory'⟩ := step_holds hlog e
  exact ⟨⟨log', hlog', by rw [hhistory', hhistory]; rfl⟩, ⟨held, hreads.append _, hheld⟩, h.batches⟩

theorem wholeLiveBlock_eq_some {fetched : List (Nat × ChangeRow)} {through : Bool} {limit count : Nat}
    (h : wholeLiveBlock fetched through limit = some count) : OneCommit (fetched.take count) := by
  unfold wholeLiveBlock at h
  split at h
  · cases h
  · rename_i first rest
    rw [Option.ite_none_right_eq_some, Option.some.injEq] at h
    obtain ⟨-, rfl⟩ := h
    have hself : sameLiveCommit first.2 first.2 = true := by simp [sameLiveCommit]
    have hfirst : (first :: rest).takeWhile (fun record => sameLiveCommit first.2 record.2) <+:
        first :: rest := takeWhile_prefix _
    rw [← prefix_iff_eq_take.1 hfirst, takeWhile_cons, if_pos hself]
    exact ⟨first, _, rfl, fun record hmem => all_eq_true.1 all_takeWhile record hmem⟩

theorem Serves.sendBatch (h : Serves consumer start t) (hopen : t.reader.terminal = false)
    {now count : Nat} (hwhole : OneCommit (t.reader.fetched.take count)) :
    Serves consumer start (t.sendBatch consumer now count) := by
  obtain ⟨held, hreads, hheld⟩ := h.reads
  unfold LiveServing.sendBatch
  dsimp only
  split
  · exact h.stop rfl
  · rename_i hfits
    split
    · refine ⟨(h.observe (.recordDelivery now _ _ _)).log,
        ⟨t.reader.fetched.drop count, ?_, fun _ => rfl⟩, ?_⟩
      · change ReadTo (t.history ++ []) _ _ ((t.sent ++ [t.reader.fetched.take count]).flatten ++ _)
        rw [append_nil, flatten_append, flatten_singleton, append_assoc, take_append_drop, hheld hopen]
        exact hreads
      · intro batch hbatch
        rcases mem_append.1 hbatch with hbatch | hbatch
        · exact h.batches batch hbatch
        · rw [mem_singleton.1 hbatch]
          exact ⟨hwhole, Nat.le_of_not_lt fun hlt => hfits (.inl hlt)⟩
    · exact h.stop rfl

theorem Serves.readOn (h : Serves consumer start t) (hopen : t.reader.terminal = false) :
    Serves consumer start (t.readOn consumer) := by
  obtain ⟨log, hlog, hhistory⟩ := h.log
  obtain ⟨held, hreads, hheld⟩ := h.reads
  unfold LiveServing.readOn
  dsimp only
  split
  · rename_i records hread
    obtain ⟨-, rfl⟩ := hlog.readPage hread
    split
    · rename_i last hlast
      rw [hhistory] at hlast ⊢
      refine ⟨h.log, ⟨_, append_assoc _ held _ ▸ hreads.page hlast, fun _ => ?_⟩, h.batches⟩
      rw [hheld hopen]
    · exact ⟨h.log, ⟨held, hreads, fun _ => hheld hopen⟩, h.batches⟩
  · split
    · exact Serves.stop (h.observe (.markReset _)) rfl
    · exact h.observe _
  · exact h.stop rfl

theorem Serves.serve (h : Serves consumer start t) (step : Step) :
    Serves consumer start (t.serve consumer step) := by
  cases step with
  | stream e => exact h.observe e
  | poll now =>
    change Serves consumer start (t.poll consumer now)
    rw [LiveServing.poll]
    split
    · exact h
    · rename_i hopen
      rw [Bool.not_eq_true] at hopen
      split
      · rename_i hwhole
        exact h.sendBatch hopen (wholeLiveBlock_eq_some hwhole)
      · exact h.readOn hopen

theorem serves_opened (kind : DeliveryStreamKind) (es : List Event) (start : Nat) :
    Serves consumer start (opened kind es start) := by
  obtain ⟨log, hlog, hhistory⟩ := run_holds es (holds_new kind)
  exact ⟨⟨log, hlog, hhistory⟩, ⟨[], ⟨0, rfl, Nat.zero_le _, rfl⟩, fun _ => rfl⟩, forall_mem_nil _⟩

/-- **A live stream skips and repeats nothing**: whatever the store publishes, prunes and
acknowledges between two rounds, the batches sent are the records after the start, in order, each
once; and a batch is records of one commit, at most `maximum_events` of them. -/
theorem live_stream_in_order (consumer : LiveConsumer) (kind : DeliveryStreamKind) (es : List Event)
    (start : Nat) (steps : List Step) :
    let t := steps.foldl (serve consumer) (opened kind es start);
    (∃ count, t.sent.flatten = numbered (start + 1) ((t.history.drop start).take count)) ∧
      ∀ batch ∈ t.sent, OneCommit batch ∧ batch.length ≤ consumer.maximumEvents := by
  have hrun : ∀ t : LiveServing, Serves consumer start t →
      Serves consumer start (steps.foldl (serve consumer) t) := by
    induction steps with
    | nil => exact fun _ h => h
    | cons step steps ih => exact fun _ h => ih _ (h.serve step)
  have hend := hrun _ (serves_opened kind es start)
  obtain ⟨held, ⟨count, -, -, hrecords⟩, -⟩ := hend.reads
  refine ⟨⟨min (steps.foldl (serve consumer) (opened kind es start)).sent.flatten.length count, ?_⟩,
    hend.batches⟩
  rw [← take_take, ← numbered_take, ← hrecords, take_left]

end LiveServing

end Leani.Delivery
