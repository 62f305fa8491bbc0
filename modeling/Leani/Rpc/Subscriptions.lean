import Leani.Rpc.Batch

/-!
# Subscription calls of a connection

The calls of a WebSocket message run one after the other on the connection's subscriptions, and the
encoder writes their responses. It may put a size error in the place of a response that a subscription
call has earned already. What the subscriptions are, how the parameters of `eth_subscribe` are read and
how every other method runs are parameters.
-/

namespace Leani.Rpc.Batch

open Library

structure RpcError where
  code : Int
  message : String
  data : Option Json

structure Connection (σ : Type) where
  subscriptions : Table String σ
  nextSubscription : Nat

/-- `0x{:032x}` -/
def subscriptionId (number : Nat) : String :=
  "0x" ++ String.ofList ((Nat.toDigits 16 number).leftpad 32 '0')

def parseUnsubscribe : Option Json → Except RpcError String
  | some (.array [.string subscription]) => .ok subscription
  | some (.array [_]) => .error ⟨-32602, "subscription ID must be a string", none⟩
  | _ => .error ⟨-32602, "eth_unsubscribe expects one subscription ID", none⟩

def subscriptionLimitExceeded (limit : Nat) : RpcError :=
  ⟨-32005, "Limit exceeded", some (.object [
    ("reason", .string "subscription_limit_exceeded"), ("limit", .number (toString limit))])⟩

def RpcError.ends (e : RpcError) : CallEnd := .error e.code e.message e.data

structure Site (σ : Type) where
  encode : Json → Body → List UInt8
  dispatch : Nat → String → Option Json → Nat → CallEnd
  parseSubscription : Option Json → Except RpcError σ
  maxSubscriptions : Nat

variable {σ : Type} (site : Site σ)

def runRequest (connection : Connection σ) (index : Nat) (request : RpcRequest) (budget : Nat) :
    Connection σ × CallEnd :=
  if request.method = "eth_subscribe" then
    if site.maxSubscriptions ≤ connection.subscriptions.size then
      (connection, (subscriptionLimitExceeded site.maxSubscriptions).ends)
    else
      match site.parseSubscription request.params with
      | .error e => (connection, e.ends)
      | .ok subscription =>
        let id := subscriptionId connection.nextSubscription
        (⟨connection.subscriptions.insert id subscription, satAdd connection.nextSubscription 1⟩,
          .value (.string id))
  else if request.method = "eth_unsubscribe" then
    match parseUnsubscribe request.params with
    | .error e => (connection, e.ends)
    | .ok id =>
      ({ connection with subscriptions := connection.subscriptions.erase id },
        .value (.bool (connection.subscriptions.contains id)))
  else (connection, site.dispatch index request.method request.params budget)

def websocketDispatchValue (limit : Nat) (connection : Connection σ) (item : Json × Nat)
    (budget : Nat) : Connection σ × Option RpcResponse :=
  match RpcRequest.parse item.1 with
  | none => (connection, some ⟨.null, .error (-32600) "Invalid Request" none, false⟩)
  | some request =>
    let ran := runRequest site connection item.2 request budget
    (ran.1, request.id.map fun id => answer limit id ran.2)

/-- The state before a call: the responses so far and the connection. -/
structure Turn (σ : Type) where
  encoder : ResponseEncoder
  connection : Connection σ

variable (turn : Turn σ) (item : Json × Nat)

def websocketCall : Turn σ :=
  if turn.encoder.skips item.1 then ⟨turn.encoder.skip site.encode item.1, turn.connection⟩
  else
    let out := websocketDispatchValue site turn.encoder.limit turn.connection item
      turn.encoder.remaining
    ⟨(out.2.map (turn.encoder.push site.encode)).getD turn.encoder, out.1⟩

/-- The calls with the states they run in. -/
def turns : Turn σ → List (Json × Nat) → List (Turn σ × (Json × Nat))
  | _, [] => []
  | turn, item :: items => (turn, item) :: turns (websocketCall site turn item) items

inductive Message where
  | single (call : Json)
  | batch (calls : List Json)

/-- The loop of `websocket_dispatch_text`. Only a batch has brackets. -/
def Message.turns (limit : Nat) (connection : Connection σ) : Message → List (Turn σ × (Json × Nat))
  | single call => Batch.turns site ⟨⟨limit, 0, [], false⟩, connection⟩ [(call, 0)]
  | batch calls => Batch.turns site ⟨.forBatch limit, connection⟩ calls.zipIdx

def fits (encoder : ResponseEncoder) (id : Json) (body : Body) : Bool :=
  !encoder.full && encoder.bytes + encoder.separator + (site.encode id body).length ≤ encoder.limit

/-- The response to a call and the body that stands for it in the text. -/
def response : Option (RpcResponse × Body) :=
  (if turn.encoder.skips item.1 then
    match RpcRequest.parse item.1 with
    | none => some (responseTooLarge .null turn.encoder.limit)
    | some request => request.id.map fun id => responseTooLarge id turn.encoder.limit
  else (websocketDispatchValue site turn.encoder.limit turn.connection item turn.encoder.remaining).2).map
    fun response => (response, if fits site turn.encoder response.id response.body then response.body
      else limitExceeded turn.encoder.limit)

def NoEffectOnError : Prop :=
  ∀ request, RpcRequest.parse item.1 = some request → request.id.isSome = true →
    request.method = "eth_subscribe" ∨ request.method = "eth_unsubscribe" →
      ∀ code message data, (response site turn item).map Prod.snd = some (.error code message data) →
        (websocketCall site turn item).connection.subscriptions = turn.connection.subscriptions

/-- The answer to a call that adds or removes a subscription finds room. -/
structure AnswerFits (request : RpcRequest) (id : Json) : Prop where
  subscribed : request.method = "eth_subscribe" →
    turn.connection.subscriptions.size < site.maxSubscriptions →
      ∀ subscription, site.parseSubscription request.params = .ok subscription →
        turn.connection.subscriptions[subscriptionId turn.connection.nextSubscription]? ≠
            some subscription →
          fits site turn.encoder id (.result (.string (subscriptionId turn.connection.nextSubscription)))
  unsubscribed : request.method =
    "eth_unsubscribe" → ∀ subscription, parseUnsubscribe request.params = .ok subscription →
    subscription ∈ turn.connection.subscriptions → fits site turn.encoder id (.result (.bool true))

/-- While the encoder is not full, each call with an id runs. -/
def EffectsFit : Prop :=
  ∀ request id, RpcRequest.parse item.1 = some request → request.id = some id →
    turn.encoder.full = false → AnswerFits site turn request id

variable {site turn item}

theorem responses_websocketCall : (websocketCall site turn item).encoder.responses =
    turn.encoder.responses ++
      (response site turn item).toList.map fun sent => site.encode sent.1.id sent.2 := by
  have hpush : ∀ r : RpcResponse, (turn.encoder.push site.encode r).responses =
      turn.encoder.responses ++ [site.encode r.id
        (if fits site turn.encoder r.id r.body then r.body else limitExceeded turn.encoder.limit)] := by
    intro r; exact congrArg (turn.encoder.responses ++ [·]) (apply_ite (site.encode r.id) ..).symm
  rw [websocketCall, response]
  by_cases hskips : turn.encoder.skips item.1 = true
  · rw [if_pos hskips, if_pos hskips]
    dsimp only [ResponseEncoder.skip]
    cases RpcRequest.parse item.1 with
    | none => exact hpush _
    | some request =>
      dsimp only
      cases request.id with
      | none => exact (List.append_nil _).symm
      | some id => exact hpush _
  · rw [if_neg hskips, if_neg hskips]
    dsimp only
    generalize websocketDispatchValue site turn.encoder.limit turn.connection item
      turn.encoder.remaining = out
    obtain ⟨conn, _ | r⟩ := out
    · exact (List.append_nil _).symm
    · exact hpush r

theorem insert_eq_self {t : Table String σ} {k : String} {v : σ} : t.insert k v = t ↔ t[k]? = some v := by
  refine ⟨fun h => h ▸ Table.getElem?_insert_self t k v, fun h => Table.ext fun a => ?_⟩
  rw [Table.get?_insert_ite]
  split
  · rename_i heq; rw [heq, h]
  · rfl

theorem erase_eq_self {t : Table String σ} {k : String} : t.erase k = t ↔ k ∉ t := by
  refine ⟨fun h hmem => (Table.mem_erase_iff.1 (h ▸ hmem)).1 rfl, fun h => Table.ext fun a => ?_⟩
  rw [Table.get?_erase_ite]
  split
  · rename_i heq; exact (heq ▸ Std.ExtTreeMap.getElem?_eq_none h).symm
  · rfl

variable {request : RpcRequest} {id : Json}

section Ran

variable (hparse : RpcRequest.parse item.1 = some request) (hid : request.id = some id)
  (hfull : turn.encoder.full = false) {connection : Connection σ} {ending : CallEnd}
  (hran : runRequest site turn.connection item.2 request turn.encoder.remaining = (connection, ending))

include hparse hid hfull hran

theorem noEffectOnError_of_run : NoEffectOnError site turn item ↔
    (request.method = "eth_subscribe" ∨ request.method = "eth_unsubscribe" →
      ∀ code message data, (if fits site turn.encoder id (answer turn.encoder.limit id ending).body then
        (answer turn.encoder.limit id ending).body else limitExceeded turn.encoder.limit) =
          .error code message data → connection.subscriptions = turn.connection.subscriptions) := by
  have hname : (answer turn.encoder.limit id ending).id = id := by cases ending <;> rfl
  simp [NoEffectOnError, websocketCall, response, ResponseEncoder.skips, hfull, websocketDispatchValue,
    hparse, hid, hran, hname]

theorem noEffectOnError_of_eq (h : connection = turn.connection) : NoEffectOnError site turn item :=
  (noEffectOnError_of_run hparse hid hfull hran).2 fun _ _ _ _ _ => congrArg _ h

/-- A result is answered by an error where it finds no room. -/
theorem noEffectOnError_of_value {value : Json} (hval : ending = .value value)
    (hmethod : request.method = "eth_subscribe" ∨ request.method = "eth_unsubscribe") :
    NoEffectOnError site turn item ↔ (connection.subscriptions ≠ turn.connection.subscriptions →
      fits site turn.encoder id (.result value) = true) := by
  subst hval
  rw [noEffectOnError_of_run hparse hid hfull hran, imp_iff_right hmethod, answer]
  by_cases h : fits site turn.encoder id (.result value) = true
  · simp [h]
  · simp [h, limitExceeded]

end Ran

theorem noEffectOnError_iff (hparse : RpcRequest.parse item.1 = some request)
    (hid : request.id = some id) (hfull : turn.encoder.full = false) :
    NoEffectOnError site turn item ↔ AnswerFits site turn request id := by
  have hran := rfl (a := runRequest site turn.connection item.2 request turn.encoder.remaining)
  conv at hran => rhs; rw [runRequest]
  by_cases hmethod : request.method = "eth_subscribe"
  · have hother : request.method ≠ "eth_unsubscribe" := by rw [hmethod]; decide
    rw [if_pos hmethod] at hran
    by_cases hroom : site.maxSubscriptions ≤ turn.connection.subscriptions.size
    · rw [if_pos hroom] at hran
      exact iff_of_true (noEffectOnError_of_eq hparse hid hfull hran rfl)
        ⟨fun _ h => absurd h (Nat.not_lt.2 hroom), fun h => absurd h hother⟩
    · rw [if_neg hroom] at hran
      cases hparams : site.parseSubscription request.params with
      | error e =>
        rw [hparams] at hran
        exact iff_of_true (noEffectOnError_of_eq hparse hid hfull hran rfl)
          ⟨fun _ _ _ h => (nomatch hparams.symm.trans h), fun h => absurd h hother⟩
      | ok subscription =>
        rw [hparams] at hran
        rw [noEffectOnError_of_value hparse hid hfull hran rfl (.inl hmethod), ne_eq, insert_eq_self]
        refine ⟨fun h => ⟨fun _ _ other hparsed hnew => ?_, fun h => absurd h hother⟩,
          fun h => h.subscribed hmethod (Nat.lt_of_not_le hroom) subscription hparams⟩
        cases hparams.symm.trans hparsed; exact h hnew
  · rw [if_neg hmethod] at hran
    by_cases hmethod' : request.method = "eth_unsubscribe"
    · rw [if_pos hmethod'] at hran
      cases hparams : parseUnsubscribe request.params with
      | error e =>
        rw [hparams] at hran
        exact iff_of_true (noEffectOnError_of_eq hparse hid hfull hran rfl)
          ⟨fun h => absurd h hmethod, fun _ _ h => nomatch hparams.symm.trans h⟩
      | ok subscription =>
        rw [hparams] at hran
        rw [noEffectOnError_of_value hparse hid hfull hran rfl (.inr hmethod'), ne_eq, erase_eq_self]
        by_cases hmem : subscription ∈ turn.connection.subscriptions
        · rw [Std.ExtTreeMap.mem_iff_contains.1 hmem]
          refine ⟨fun h => ⟨fun h => absurd h hmethod, fun _ other hparsed _ => ?_⟩,
            fun h _ => h.unsubscribed hmethod' subscription hparams hmem⟩
          cases hparams.symm.trans hparsed; exact h (not_not_intro hmem)
        · refine iff_of_true (absurd hmem) ⟨fun h => absurd h hmethod, fun _ other hparsed hin => ?_⟩
          cases hparams.symm.trans hparsed; exact absurd hin hmem
    · rw [if_neg hmethod'] at hran
      exact iff_of_true (noEffectOnError_of_eq hparse hid hfull hran rfl)
        ⟨fun h => absurd h hmethod, fun h => absurd h hmethod'⟩

theorem noEffectOnError_iff_effectsFit : NoEffectOnError site turn item ↔ EffectsFit site turn item := by
  refine ⟨fun h req id hparse hid hfull => (noEffectOnError_iff hparse hid hfull).1 h, fun h => ?_⟩
  intro req hparse hsome
  obtain ⟨id, hid⟩ := Option.isSome_iff_exists.1 hsome
  cases hfull : turn.encoder.full with
  | false => exact (noEffectOnError_iff hparse hid hfull).2 (h req id hparse hid hfull) req hparse hsome
  | true =>
    have hskips : turn.encoder.skips item.1 = true := by
      rw [ResponseEncoder.skips, hfull, parse_id hparse, hid]; rfl
    rw [websocketCall, if_pos hskips]; exact fun _ _ _ _ _ => rfl

def newHeadsText : Json → Body → List UInt8
  | .number id, .result (.string text) => bytes id ("\"result\":\"" ++ text ++ "\"")
  | .number id, .error _ _ (some (.object [(_, .string reason), (_, .number limit)])) =>
    bytes id ("\"error\":\x7b\"code\":-32005,\"message\":\"Limit exceeded\",\"data\":\x7b\"limit\":" ++
      limit ++ ",\"reason\":\"" ++ reason ++ "\"\x7d\x7d")
  | _, _ => []
where
  bytes (id text : String) : List UInt8 :=
    ("\x7b\"jsonrpc\":\"2.0\",\"id\":" ++ id ++ "," ++ text ++ "\x7d").toList.map fun c => c.toNat.toUInt8

def newHeadsSite : Site Unit :=
  ⟨newHeadsText, fun _ _ _ _ => .value .null, fun _ => .ok (), 16⟩

def newHeadsCall : Json := .object [("jsonrpc", .string "2.0"), ("id", .number "1"),
  ("method", .string "eth_subscribe"), ("params", .array [.string "newHeads"])]

end Leani.Rpc.Batch
