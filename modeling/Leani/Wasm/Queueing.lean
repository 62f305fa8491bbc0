import Leani.Wasm.Host

/-!
# Queued writes

The guest cannot tell that its writes wait: running it with the queue gives it the same answers and
performs the same calls of the transaction in the same order as executing each call at once. What
differs is a guest that fails, whose queue is dropped.
-/

namespace Leani.Wasm

open Library Delivery List HostState

variable {σ ε : Type}

/-! ## Executing each call at once -/

section AtOnce

variable (transaction : ReducerTransaction σ ε) (env : HostEnvironment)

structure Executed (σ ε : Type) where
  session : Session σ Request
  state : CallState
  answers : List Answer
  result : Except (ReduceError ε) (List DomainChange)

def CallState.guarded (out : CallState × Except String Answer) :
    CallState × Except (ReduceError ε) Answer :=
  (out.1, out.2.mapError fun message => out.1.guestFailure (some message))

def execute (session : Session σ Request) (state : CallState) :
    HostCall → Session σ Request × CallState × Except (ReduceError ε) Answer
  | .fail message => (session, { state with failure := some message }, .ok .unit)
  | .takeValue => (session, CallState.guarded state.takeValue)
  | .emit kind key delete payload =>
    (session, CallState.guarded (state.emit env kind key delete payload))
  | access =>
    match (state.request env access).2 with
    | .error message =>
      (session, (state.request env access).1,
        .error ((state.request env access).1.guestFailure (some message)))
    | .ok request => serve transaction request session (state.request env access).1

def executeAtOnce : Guest → Session σ Request → CallState → List Answer → Executed σ ε
  | .finish status, session, state, answers =>
    ⟨session, state, answers, if status ≠ 0 then .error (state.guestFailure none)
      else .ok (lastChangePerKey state.changes)⟩
  | .trap message, session, state, answers =>
    ⟨session, state, answers, .error (state.guestFailure (some message))⟩
  | .outOfFuel, session, state, answers => ⟨session, state, answers, .error (outOfFuel env)⟩
  | .call call next, session, state, answers =>
    match execute transaction env session state call with
    | (session, state, .error e) => ⟨session, state, answers, .error e⟩
    | (session, state, .ok answer) =>
      executeAtOnce (next answer) session state (answers ++ [answer])

end AtOnce

variable {transaction : ReducerTransaction σ ε} {env : HostEnvironment}
  {session direct : Session σ Request} {host : HostState} {state : CallState}

/-! ## What waits in the queue -/

structure Defers (transaction : ReducerTransaction σ ε) (session : Session σ Request)
    (host : HostState) (direct : Session σ Request) (state : CallState) : Prop where
  applied : session.performAll transaction.apply host.writes = (direct, .ok ())
  same : host.toCallState = state
  idle : host.pending = none

/-- A queued write will fail with `e`, where executing the calls at once ended. -/
structure Dooms (transaction : ReducerTransaction σ ε) (session : Session σ Request)
    (host : HostState) (direct : Session σ Request) (e : ε) : Prop where
  applied : session.performAll transaction.apply host.writes = (direct, .error e)
  idle : host.pending = none

theorem Defers.flush (h : Defers transaction session host direct state) :
    flush transaction session host =
      (direct, { host with writes := [], queuedBytes := 0 }, .ok ()) := by
  simp only [Wasm.flush, h.applied]

theorem Dooms.flush {e : ε} (h : Dooms transaction session host direct e) :
    flush transaction session host = (direct, { host with writes := [] }, .error (.transaction e)) := by
  simp only [Wasm.flush, h.applied]

theorem Defers.settle (h : Defers transaction session host direct state)
    (req : Request) (trap : Trap) : settleCall transaction session { host with pending := some req }
    (.error trap) = ((serve transaction req direct state).1, { host with
          toCallState := (serve transaction req direct state).2.1
          writes := []
          queuedBytes := 0
          pending := none },
        (serve transaction req direct state).2.2) := by
  have hflush : Wasm.flush transaction session { host with pending := none } =
      (direct, { host with pending := none, writes := [], queuedBytes := 0 }, .ok ()) :=
    Defers.flush ⟨h.applied, h.same, rfl⟩
  simp only [settleCall, hflush, ← h.same]

/-! ## One call -/

/-- How one call through the queue relates to the call executed at once: both answer alike, both
fail alike, or the transaction refused a write that the queue still holds. -/
inductive StepAgrees (transaction : ReducerTransaction σ ε)
    (queued : Session σ Request × HostState × Except (ReduceError ε) Answer)
    (atOnce : Session σ Request × CallState × Except (ReduceError ε) Answer) : Prop
  | continues (answer : Answer) (hqueued : queued.2.2 = .ok answer) (hatOnce : atOnce.2.2 =
      .ok answer) (defers : Defers transaction queued.1 queued.2.1 atOnce.1 atOnce.2.1)
  | fails (e : ReduceError ε) (hqueued : queued.2.2 = .error e) (hatOnce : atOnce.2.2 = .error e)
      (applied : queued.1.performAll transaction.apply queued.2.1.writes = (atOnce.1, .ok ()))
  | dooms (e : ε) (answer : Answer) (hqueued : queued.2.2 = .ok answer) (hatOnce : atOnce.2.2 =
      .error (.transaction e)) (dooms : Dooms transaction queued.1 queued.2.1 atOnce.1 e)

section

variable (h : Defers transaction session host direct state)

include h

theorem Defers.guarded (out : CallState × Except String Answer) : StepAgrees transaction
      (settleCall transaction session { host with toCallState := out.1 } (out.2.mapError .error))
      (direct, CallState.guarded out) := by
  obtain ⟨after, result⟩ := out
  cases result with
  | ok answer =>
    exact .continues answer rfl rfl ⟨h.applied, rfl, h.idle⟩
  | error message =>
    refine .fails (after.guestFailure (some message)) ?_ rfl ?_
    · simp only [settleCall, Except.mapError, h.idle]
    · simp only [settleCall, Except.mapError, h.idle, h.applied]

theorem Defers.refused (after : CallState) (msg : String) : StepAgrees transaction
      (settleCall transaction session { host with toCallState := after } (.error (.error msg)))
      (direct, after, .error (after.guestFailure (some msg))) := by
  refine .fails (after.guestFailure (some msg)) ?_ rfl ?_
  · simp only [settleCall, h.idle]
  · simp only [settleCall, h.idle, h.applied]

theorem Defers.served (req : Request) (trap : Trap) : StepAgrees transaction
      (settleCall transaction session { host with pending := some req } (.error trap))
      (serve transaction req direct state) := by
  rw [h.settle req trap]
  obtain ⟨_, _, result⟩ := serve transaction req direct state
  cases result with
  | ok answer => exact .continues answer rfl rfl ⟨rfl, rfl, rfl⟩
  | error e => exact .fails e rfl rfl rfl

theorem Defers.appended (req : Request) :
    session.performAll transaction.apply (host.writes ++ [req]) =
      ((direct.perform transaction.apply req).1,
        (direct.perform transaction.apply req).2.map fun _ => ()) :=
  Session.performAll_concat h.applied

end

variable {operation : WriteOperation} {name : String}

variable {key value : Bytes}

theorem Defers.write (h : Defers transaction session host direct state) :
    StepAgrees transaction (settleCall transaction session { host with
          writes := host.writes ++ [.write operation name key value]
          queuedBytes := host.queuedBytes + Request.size (.write operation name key value) }
        (.ok (.number 0)))
      (serve transaction (.write operation name key value) direct state) := by
  have happ := h.appended (.write operation name key value)
  simp only [settleCall, serve]
  generalize direct.perform transaction.apply (.write operation name key value) = out at happ ⊢
  obtain ⟨_, result⟩ := out
  cases result with
  | ok _ => exact .continues (.number 0) rfl rfl ⟨happ, h.same, h.idle⟩
  | error e => exact .dooms e (.number 0) rfl rfl ⟨happ, h.idle⟩

theorem Defers.counted (h : Defers transaction session host direct state) (after : CallState) :
    Defers transaction session { host with toCallState := after } direct after :=
  ⟨h.applied, rfl, h.idle⟩

theorem Defers.filled (h : Defers transaction session host direct state) (queuedBytes : Nat)
    (trap : Trap) : StepAgrees transaction (settleCall transaction session { host with
          writes := host.writes ++ [.write operation name key value]
          queuedBytes := queuedBytes
          pending := some .flush } (.error trap))
      (serve transaction (.write operation name key value) direct state) := by
  have happ := h.appended (.write operation name key value)
  simp only [settleCall, Wasm.flush, happ, serve]
  generalize direct.perform transaction.apply (.write operation name key value) = out
  obtain ⟨_, result⟩ := out
  cases result with
  | ok _ => exact .continues (.number 0) rfl rfl ⟨rfl, h.same, rfl⟩
  | error e => exact .fails (.transaction e) rfl rfl rfl

variable {request : Request}

theorem requestOf_write {code : Nat} {name : Bytes} (h : requestOf env (.write code name key value) =
    .ok request) : ∃ op name', request = .write op name' key value := by
  simp only [requestOf, eq_ok, readBytes] at h
  obtain ⟨op, -, _, ⟨-, -, rfl⟩, h⟩ := h
  split at h
  · simp only [eq_ok] at h
    obtain ⟨-, -, _, ⟨-, -, rfl⟩, name', -, rfl⟩ := h; exact ⟨op, name', rfl⟩
  · simp only [eq_ok] at h
    obtain ⟨_, ⟨-, -, rfl⟩, name', -, rfl⟩ := h; exact ⟨op, name', rfl⟩

theorem Defers.call (h : Defers transaction session host direct state) (call : HostCall) :
    StepAgrees transaction
      (settleCall transaction session (host.call env call).1 (host.call env call).2)
      (execute transaction env direct state call) := by
  obtain rfl := h.same
  cases call with
  | fail message => exact .continues .unit rfl rfl ⟨h.applied, rfl, h.idle⟩
  | takeValue => exact h.guarded host.toCallState.takeValue
  | emit kind key delete payload =>
    exact h.guarded (host.toCallState.emit env kind key delete payload)
  | read private_ name key =>
    simp only [call, execute]
    cases (host.toCallState.request env (.read private_ name key)).2 with
    | error message => exact h.refused _ message
    | ok request => exact (h.counted _).served request .suspend
  | scan private_ name start limit =>
    simp only [call, execute]
    cases (host.toCallState.request env (.scan private_ name start limit)).2 with
    | error message => exact h.refused _ message
    | ok request => exact (h.counted _).served request .suspend
  | write code name key value =>
    simp only [call, execute]
    cases hrequest : (host.toCallState.request env (.write code name key value)).2 with
    | error message => exact h.refused _ message
    | ok request =>
      have hwrite : requestOf env (.write code name key value) = .ok request := by
        simp only [CallState.request, bind_eq_ok] at hrequest
        obtain ⟨-, -, hwrite⟩ := hrequest; exact hwrite
      obtain ⟨_, name, rfl⟩ := requestOf_write hwrite
      simp only
      split
      · exact (h.counted _).filled _ .suspend
      · exact (h.counted _).write

/-! ## After a write the transaction refuses -/

/-- How a call goes on while the queue holds a write that will fail: it waits too, or the flush it
asks for ends the run as executing at once did, or the guest fails and the queue is left. -/
inductive DoomAgrees (transaction : ReducerTransaction σ ε) (direct : Session σ Request) (e : ε)
    (queued : Session σ Request × HostState × Except (ReduceError ε) Answer) : Prop
  | waits (answer : Answer) (hqueued : queued.2.2 = .ok answer)
      (dooms : Dooms transaction queued.1 queued.2.1 direct e)
  | fails (hqueued : queued.2.2 = .error (.transaction e)) (hsession : queued.1 = direct)
  | ends (message : String) (hqueued : queued.2.2 = .error (.guest message))
      (applied : queued.1.performAll transaction.apply queued.2.1.writes = (direct, .error e))

variable {e : ε}

section

variable (h : Dooms transaction session host direct e)

include h

theorem Dooms.guarded (out : CallState × Except String Answer) : DoomAgrees transaction direct e
      (settleCall transaction session { host with toCallState := out.1 } (out.2.mapError .error)) := by
  obtain ⟨after, result⟩ := out
  cases result with
  | ok answer => exact .waits answer rfl ⟨h.applied, h.idle⟩
  | error message =>
    refine .ends (after.failure.getD message) ?_ ?_
    · simp only [settleCall, Except.mapError, h.idle]; rfl
    · simp only [settleCall, Except.mapError, h.idle, h.applied]

theorem Dooms.refused (after : CallState) (msg : String) : DoomAgrees transaction direct e
      (settleCall transaction session { host with toCallState := after } (.error (.error msg))) := by
  refine .ends (after.failure.getD msg) ?_ ?_
  · simp only [settleCall, h.idle]; rfl
  · simp only [settleCall, h.idle, h.applied]

theorem Dooms.served (req : Request) (trap : Trap) : DoomAgrees transaction direct e
      (settleCall transaction session { host with pending := some req } (.error trap)) := by
  have hflush : Wasm.flush transaction session { host with pending := none } =
      (direct, { host with pending := none, writes := [] }, .error (.transaction e)) :=
    Dooms.flush ⟨h.applied, rfl⟩
  refine .fails ?_ ?_
  · simp only [settleCall, hflush]
  · simp only [settleCall, hflush]

theorem Dooms.counted (after : CallState) :
    Dooms transaction session { host with toCallState := after } direct e :=
  ⟨h.applied, h.idle⟩

theorem Dooms.behind (req : Request) (queuedBytes : Nat) : Dooms transaction session
      { host with writes := host.writes ++ [req], queuedBytes := queuedBytes } direct e := by
  refine ⟨?_, h.idle⟩
  rw [Session.performAll_append, h.applied]

end

theorem Dooms.call {e : ε} (h : Dooms transaction session host direct e) (call : HostCall) :
    DoomAgrees transaction direct e
      (settleCall transaction session (host.call env call).1 (host.call env call).2) := by
  cases call with
  | fail message => exact .waits .unit rfl ⟨h.applied, h.idle⟩
  | takeValue => exact h.guarded host.toCallState.takeValue
  | emit kind key delete payload =>
    exact h.guarded (host.toCallState.emit env kind key delete payload)
  | read private_ name key =>
    simp only [HostState.call]
    cases (host.toCallState.request env (.read private_ name key)).2 with
    | error message => exact h.refused _ message
    | ok request => exact (h.counted _).served request .suspend
  | scan private_ name start limit =>
    simp only [HostState.call]
    cases (host.toCallState.request env (.scan private_ name start limit)).2 with
    | error message => exact h.refused _ message
    | ok request => exact (h.counted _).served request .suspend
  | write code name key value =>
    simp only [HostState.call]
    cases (host.toCallState.request env (.write code name key value)).2 with
    | error message => exact h.refused _ message
    | ok request =>
      simp only
      split
      · exact ((h.counted _).behind request _).served .flush .suspend
      · exact .waits (.number 0) rfl ((h.counted _).behind request _)

/-! ## A whole call -/

inductive Agrees (transaction : ReducerTransaction σ ε) (queued : Reduced σ ε)
    (atOnce : Executed σ ε) : Prop
  | succeeds (changes : List DomainChange) (hqueued : queued.result = .ok changes)
      (hatOnce : atOnce.result = .ok changes) (answers : queued.answers = atOnce.answers)
      (session : queued.session = atOnce.session) (applied : queued.host.writes = [])
  | fails (e : ReduceError ε) (hqueued : queued.result = .error e)
      (hatOnce : atOnce.result = .error e) (answers : queued.answers = atOnce.answers)
      (dropped : queued.session.performAll transaction.apply queued.host.writes =
        (atOnce.session, .ok ()))
  | refused (e : ε) (hqueued : queued.result = .error (.transaction e))
      (hatOnce : atOnce.result = .error (.transaction e))
      (answers : atOnce.answers <+: queued.answers) (session : queued.session = atOnce.session)
  | unnoticed (e : ε) (message : String) (hqueued : queued.result = .error (.guest message))
      (hatOnce : atOnce.result = .error (.transaction e))
      (answers : atOnce.answers <+: queued.answers)
      (dropped : queued.session.performAll transaction.apply queued.host.writes =
        (atOnce.session, .error e))

theorem Dooms.drive {e : ε} {atOnce : Executed σ ε}
    (hatOnce : atOnce.result = .error (.transaction e)) : ∀ {guest : Guest}
    {sess : Session σ Request} {host : HostState} {ans : List Answer},
    Dooms transaction sess host atOnce.session e → atOnce.answers <+: ans →
      Agrees transaction (drive transaction env guest sess host ans) atOnce := by
  intro guest
  induction guest with
  | finish status =>
    intro sess host ans h hanswers
    simp only [Wasm.drive, returned]
    split
    · exact .unnoticed e _ rfl hatOnce hanswers h.applied
    · rw [h.flush]; exact .refused e rfl hatOnce hanswers rfl
  | trap message =>
    intro sess host ans h hanswers; exact .unnoticed e _ rfl hatOnce hanswers h.applied
  | outOfFuel =>
    intro sess host ans h hanswers; exact .unnoticed e _ rfl hatOnce hanswers h.applied
  | call call next ih =>
    intro sess host ans h hanswers
    simp only [Wasm.drive]
    have hcall := @Dooms.call _ _ transaction env _ _ _ _ h call
    generalize settleCall transaction sess (host.call env call).1 (host.call env call).2 = out
      at hcall ⊢
    obtain ⟨_, _, result⟩ := out
    cases hcall with
    | waits answer hqueued dooms =>
      cases hqueued; exact ih answer dooms (hanswers.trans (prefix_append _ _))
    | fails hqueued hsess =>
      cases hqueued; exact .refused e rfl hatOnce hanswers hsess
    | ends message hqueued applied =>
      cases hqueued; exact .unnoticed e message rfl hatOnce hanswers applied

theorem Defers.drive : ∀ {guest : Guest} {sess direct : Session σ Request} {host : HostState}
    {state : CallState} {ans : List Answer}, Defers transaction sess host direct state →
      Agrees transaction (drive transaction env guest sess host ans)
        (executeAtOnce transaction env guest direct state ans) := by
  intro guest
  induction guest with
  | finish status =>
    intro sess direct host state ans h
    obtain rfl := h.same
    simp only [Wasm.drive, returned, executeAtOnce]
    split
    · exact .fails _ rfl rfl rfl h.applied
    · rw [h.flush]; exact .succeeds _ rfl rfl rfl rfl rfl
  | trap message =>
    intro sess direct host state ans h
    obtain rfl := h.same; exact .fails _ rfl rfl rfl h.applied
  | outOfFuel =>
    intro sess direct host state ans h; exact .fails _ rfl rfl rfl h.applied
  | call call next ih =>
    intro sess direct host state ans h
    simp only [Wasm.drive, executeAtOnce]
    have hcall := @Defers.call _ _ transaction env _ _ _ _ h call
    generalize settleCall transaction sess (host.call env call).1 (host.call env call).2 = out
      at hcall ⊢
    generalize execute transaction env direct state call = direct' at hcall ⊢
    obtain ⟨_, _, _⟩ := out
    obtain ⟨_, _, _⟩ := direct'
    cases hcall with
    | continues answer hqueued hatOnce defers =>
      cases hqueued; cases hatOnce; exact ih answer defers
    | fails e hqueued hatOnce applied =>
      cases hqueued; cases hatOnce; exact .fails e rfl rfl rfl applied
    | dooms e answer hqueued hatOnce dooms =>
      cases hqueued; cases hatOnce; exact Dooms.drive rfl dooms (prefix_append _ _)

/-! ## A failing guest -/

inductive Reaches (transaction : ReducerTransaction σ ε) (env : HostEnvironment) (guest' : Guest)
    (session' : Session σ Request) (host' : HostState) : Guest → Session σ Request → HostState → Prop
  | here : Reaches transaction env guest' session' host' guest' session' host'
  | answered {call : HostCall} {next : Answer → Guest} {session after : Session σ Request}
      {host changed : HostState} {answer : Answer}
      (hcall : settleCall transaction session (host.call env call).1 (host.call env call).2 =
        (after, changed, .ok answer))
      (later : Reaches transaction env guest' session' host' (next answer) after changed) :
      Reaches transaction env guest' session' host' (.call call next) session host

def FailsAt (env : HostEnvironment) (host : HostState) : Guest → Prop
  | .finish status => status ≠ 0
  | .trap _ | .outOfFuel => True
  | .call call _ => ∃ trap, (host.call env call).2 = .error trap ∧
      (host.call env call).1.pending = none

variable {trap : Trap}

theorem writes_of_call_error {call : HostCall}
    (h : (host.call env call).2 = .error trap) (hpend : (host.call env call).1.pending = none) :
    (host.call env call).1.writes = host.writes := by
  cases call with
  | fail message => cases h
  | takeValue => rfl
  | emit kind key delete payload => rfl
  | read private_ name key =>
    simp only [call] at hpend ⊢
    split at hpend
    · simp_all only
    · cases hpend
  | scan private_ name start limit =>
    simp only [call] at hpend ⊢
    split at hpend
    · simp_all only
    · cases hpend
  | write code name key value =>
    simp only [call] at h hpend ⊢
    split at hpend
    · simp_all only
    · split at hpend
      · cases hpend
      · simp_all only [reduceCtorEq, if_false]

variable {message : String}

theorem answer_ne_guest {value : Option Bytes} :
    (state.answer (ε := ε) request value).2 ≠ .error (.guest message) := by
  intro h
  unfold CallState.answer at h
  split at h
  · cases h
  · cases h
  · split at h <;> cases h
  · cases h

theorem serve_ne_guest : (serve transaction request session state).2.2 ≠ .error (.guest message) := by
  intro h
  unfold serve at h
  split at h
  · cases h
  · simp only at h
    split at h
    · cases h
    · exact answer_ne_guest h

variable {out : Except Trap Answer}

theorem session_of_settleCall (h : (settleCall transaction session host out).2.2 =
    .error (.guest message)) : (∃ trap, out = .error trap) ∧ host.pending =
    none ∧ settleCall transaction session host out = (session, host, .error (.guest message)) := by
  cases out with
  | ok answer => cases h
  | error trap =>
    cases hpend : host.pending with
    | none =>
      refine ⟨⟨trap, rfl⟩, rfl, ?_⟩
      simp only [settleCall, hpend] at h ⊢; rw [h]
    | some request =>
      simp only [settleCall, hpend, flush] at h
      split at h
      · rename_i heq
        split at heq
        · cases heq; cases h
        · cases heq
      · exact absurd h serve_ne_guest

theorem drive_fails : ∀ {guest : Guest} {sess : Session σ Request}
    {host : HostState} {ans : List Answer},
    (drive transaction env guest sess host ans).result = .error (.guest message) →
      ∃ guest' host', FailsAt env host' guest' ∧
        host'.writes = (drive transaction env guest sess host ans).host.writes ∧
        Reaches transaction env guest' (drive transaction env guest sess host ans).session
          host' guest sess host := by
  intro guest
  induction guest with
  | finish status =>
    intro sess host ans h
    simp only [drive, returned] at h ⊢
    split at h
    · rename_i hstatus; rw [if_pos hstatus]; exact ⟨.finish status, host, hstatus, rfl, .here⟩
    · exfalso
      simp only [flush] at h
      split at h
      · rename_i heq
        split at heq <;> cases heq
        cases h
      · cases h
  | trap message =>
    intro sess host ans _; exact ⟨.trap message, host, trivial, rfl, .here⟩
  | outOfFuel =>
    intro sess host ans _; exact ⟨.outOfFuel, host, trivial, rfl, .here⟩
  | call call next ih =>
    intro sess host ans h
    simp only [drive] at h ⊢
    cases hcall : settleCall transaction sess (host.call env call).1 (host.call env call).2 with
    | mk after out =>
      obtain ⟨_, result⟩ := out
      rw [hcall] at h
      cases result with
      | error e =>
        cases h
        have hguest : (settleCall transaction sess (host.call env call).1
            (host.call env call).2).2.2 = .error (.guest message) := by rw [hcall]
        obtain ⟨⟨trap, htrap⟩, hpend, heq⟩ := session_of_settleCall hguest
        rw [hcall] at heq
        cases heq
        exact ⟨.call call next, host, ⟨trap, htrap, hpend⟩,
          (writes_of_call_error htrap hpend).symm, .here⟩
      | ok answer =>
        obtain ⟨guest', host', hfails, hwrites, hreaches⟩ := ih answer h
        exact ⟨guest', host', hfails, hwrites, .answered hcall hreaches⟩

/-! ## A block-local guest -/

def Request.isWrite : Request → Bool
  | .write .. => true
  | _ => false

structure WriteOnly (session : Session σ Request) (host : HostState) : Prop where
  performed : ∀ request ∈ session.performed, request.isWrite
  queued : ∀ request ∈ host.writes, request.isWrite
  idle : host.pending = none

variable {private_ : Bool}

theorem request_read_local (hlocal : env.ordered = false) {name : Bytes} :
    (state.request env (.read private_ name key)).2 ≠ .ok request := by
  intro h
  simp only [CallState.request, requestOf, checkReading, eq_ok, hlocal] at h
  obtain ⟨-, -, -, h, -⟩ := h; cases h

theorem request_scan_local (hlocal : env.ordered = false) {name start : Bytes} {limit : Nat} :
    (state.request env (.scan private_ name start limit)).2 ≠ .ok request := by
  intro h
  simp only [CallState.request, requestOf, checkReading, eq_ok, hlocal] at h
  obtain ⟨-, -, -, h, -⟩ := h; cases h

theorem writeOnly_performAll {requests : List Request}
    (hperf : ∀ req ∈ session.performed, req.isWrite) (hrequests : ∀ req ∈ requests, req.isWrite) :
    ∀ req ∈ (session.performAll transaction.apply requests).1.performed, req.isWrite := by
  intro req h
  obtain ⟨_, hdone, heq⟩ :=
    @Session.performed_performAll _ _ _ _ transaction.apply requests session
  rw [heq] at h
  rcases mem_append.1 h with hold | hnew
  · exact hperf req hold
  · exact hrequests req (hdone.subset hnew)

theorem performed_flush :
    (flush transaction session host).1 = (session.performAll transaction.apply host.writes).1 ∧
      (flush transaction session host).2.1.writes = [] ∧
        (flush transaction session host).2.1.pending = host.pending := by
  simp only [flush]
  split <;> exact ⟨rfl, rfl, rfl⟩

theorem WriteOnly.flushed (h : WriteOnly session { host with pending := none })
    (hpend : host.pending = some .flush) :
    WriteOnly (settleCall transaction session host (.error trap)).1
      (settleCall transaction session host (.error trap)).2.1 := by
  obtain ⟨hflushed, hwrites, hidle⟩ :=
    @performed_flush _ _ transaction session { host with pending := none }
  have hperf := @writeOnly_performAll _ _ transaction _ _ h.performed h.queued
  rw [← hflushed] at hperf
  simp only [settleCall, hpend]
  generalize flush transaction session { host with pending := none } = out at hperf hwrites hidle ⊢
  obtain ⟨_, _, result⟩ := out
  simp only at hwrites
  cases result with
  | error e => exact ⟨hperf, by simp [hwrites], hidle⟩
  | ok _ => exact ⟨hperf, by simp [hwrites], hidle⟩

theorem WriteOnly.settled (h : WriteOnly session host) :
    WriteOnly (settleCall transaction session host out).1
      (settleCall transaction session host out).2.1 := by
  cases out with
  | ok answer => exact h
  | error trap =>
    simp only [settleCall, h.idle]; exact h

theorem WriteOnly.call (hlocal : env.ordered = false) (h : WriteOnly session host) (call : HostCall) :
    WriteOnly (settleCall transaction session (host.call env call).1 (host.call env call).2).1
      (settleCall transaction session (host.call env call).1 (host.call env call).2).2.1 := by
  cases call with
  | fail message => exact ⟨h.performed, h.queued, h.idle⟩
  | takeValue => exact WriteOnly.settled ⟨h.performed, h.queued, h.idle⟩
  | emit kind key delete payload => exact WriteOnly.settled ⟨h.performed, h.queued, h.idle⟩
  | read private_ name key =>
    simp only [HostState.call]
    cases hrequest : (host.toCallState.request env (.read private_ name key)).2 with
    | error message => exact WriteOnly.settled ⟨h.performed, h.queued, h.idle⟩
    | ok req => exact absurd hrequest (request_read_local hlocal)
  | scan private_ name start limit =>
    simp only [HostState.call]
    cases hrequest : (host.toCallState.request env (.scan private_ name start limit)).2 with
    | error message => exact WriteOnly.settled ⟨h.performed, h.queued, h.idle⟩
    | ok req => exact absurd hrequest (request_scan_local hlocal)
  | write code name key value =>
    simp only [HostState.call]
    cases hrequest : (host.toCallState.request env (.write code name key value)).2 with
    | error message => exact WriteOnly.settled ⟨h.performed, h.queued, h.idle⟩
    | ok req =>
      have hwrite : requestOf env (.write code name key value) = .ok req := by
        simp only [CallState.request, bind_eq_ok] at hrequest
        obtain ⟨-, -, hwrite⟩ := hrequest; exact hwrite
      obtain ⟨op, name, rfl⟩ := requestOf_write hwrite
      have hqueued : ∀ req ∈ host.writes ++ [.write op name key value], req.isWrite := by
        intro req hmem
        rcases mem_append.1 hmem with hold | hnew
        · exact h.queued req hold
        · rw [mem_singleton.1 hnew]; rfl
      simp only
      split
      · exact WriteOnly.flushed ⟨h.performed, hqueued, rfl⟩ rfl
      · exact ⟨h.performed, hqueued, h.idle⟩

theorem WriteOnly.drive (hlocal : env.ordered = false) : ∀ {guest : Guest}
    {sess : Session σ Request} {host : HostState} {ans : List Answer},
    WriteOnly sess host → ∀ request ∈ (Wasm.drive transaction env guest sess host
      ans).session.performed, request.isWrite := by
  intro guest
  induction guest with
  | finish status =>
    intro sess host ans h
    simp only [Wasm.drive, returned]
    split
    · exact h.performed
    · have hperf := @writeOnly_performAll _ _ transaction _ _ h.performed h.queued
      rw [← performed_flush.1] at hperf
      split
      · rename_i heq; rw [heq] at hperf; exact hperf
      · rename_i heq; rw [heq] at hperf; exact hperf
  | trap message =>
    intro sess host ans h; exact h.performed
  | outOfFuel =>
    intro sess host ans h; exact h.performed
  | call call next ih =>
    intro sess host ans h
    simp only [Wasm.drive]
    have hcall := @WriteOnly.call _ _ transaction _ _ _ hlocal h call
    generalize settleCall transaction sess (host.call env call).1 (host.call env call).2 = out
      at hcall ⊢
    obtain ⟨_, _, result⟩ := out
    cases result with
    | error e => exact hcall.performed
    | ok answer => exact ih answer hcall

/-! ## The reduction -/

structure ActsAtOnce (transaction : ReducerTransaction σ ε) (env : HostEnvironment) (guest : Guest)
    (s : σ) : Prop where
  agrees : Agrees transaction (reduce transaction env guest s)
    (executeAtOnce transaction env guest ⟨s, []⟩ .new [])
  blockLocal : env.ordered = false →
    ∀ request ∈ (reduce transaction env guest s).session.performed, request.isWrite
  dropped : ∀ message, (reduce transaction env guest s).result = .error (.guest message) →
    ∃ guest' host', FailsAt env host' guest' ∧
      host'.writes = (reduce transaction env guest s).host.writes ∧
      Reaches transaction env guest' (reduce transaction env guest s).session host' guest ⟨s, []⟩
        .new

/-- A guest runs with its writes queued as if each took effect at once. -/
theorem reduce_actsAtOnce (transaction : ReducerTransaction σ ε) (env : HostEnvironment)
    (guest : Guest) (s : σ) : ActsAtOnce transaction env guest s where
  agrees := Defers.drive ⟨rfl, rfl, rfl⟩
  blockLocal := by
    intro hlocal; exact WriteOnly.drive hlocal ⟨by simp, by simp [new], rfl⟩
  dropped := by
    intro _ h; exact drive_fails h

end Leani.Wasm
