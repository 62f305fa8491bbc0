import Leani.Rpc.GetLogs

/-!
# Batch responses

The responses to the calls of a batch are encoded one by one within a limit of bytes. From the first
that would pass it on, every call with an answer gets an error of its own instead, and only notifications
still run. The texts in memory are far shorter than the largest `usize`, so sums of their lengths do not
saturate. Parsing a message and writing a response are the JSON library's.
-/

namespace Leani.Rpc.Batch

open Library List Option Bool

inductive Json where
  | null
  | bool (value : Bool)
  | number (text : String)
  | string (text : String)
  | array (items : List Json)
  | object (members : List (String × Json))

def member (members : List (String × Json)) (name : String) : Option Json :=
  (members.find? fun member => member.1 = name).map Prod.snd

structure RpcRequest where
  id : Option Json
  method : String
  params : Option Json

/-- An id, when present, is a string, a number or `null`. -/
def validId : Option Json → Bool
  | none | some .null | some (.string _) | some (.number _) => true
  | some _ => false

def RpcRequest.parse : Json → Option RpcRequest
  | .object members =>
    match member members "jsonrpc", member members "method" with
    | some (.string version), some (.string method) =>
      if version = "2.0" ∧ validId (member members "id") = true then
        some ⟨member members "id", method, member members "params"⟩
      else none
    | _, _ => none
  | _ => none

inductive Body where
  | result (value : Json)
  | error (code : Int) (message : String) (data : Option Json)

structure RpcResponse where
  id : Json
  body : Body
  overBudget : Bool

inductive CallEnd where
  | value (value : Json)
  | error (code : Int) (message : String) (data : Option Json)
  | overBudget

def limitExceeded (limit : Nat) : Body :=
  .error (-32005) "Limit exceeded" (some (.object [
    ("reason", .string "response_size_limit_exceeded"), ("limit", .number (toString limit))]))

def responseTooLarge (id : Json) (limit : Nat) : RpcResponse := ⟨id, limitExceeded limit, false⟩

def answer (limit : Nat) (id : Json) : CallEnd → RpcResponse
  | .value value => ⟨id, .result value, false⟩
  | .error code message data => ⟨id, .error code message data, false⟩
  | .overBudget => ⟨id, limitExceeded limit, true⟩

structure ResponseEncoder where
  limit : Nat
  bytes : Nat
  responses : List (List UInt8)
  full : Bool

section Handle

-- What the JSON library writes for a response, and how each call of the message ends in the bytes it
-- is given.
variable (encode : Json → Body → List UInt8)
  (dispatch : Nat → String → Option Json → Nat → CallEnd)

def encodeResponse (response : RpcResponse) : List UInt8 := encode response.id response.body

namespace ResponseEncoder

variable (encoder : ResponseEncoder)

def forBatch (limit : Nat) : ResponseEncoder := ⟨limit, 2, [], false⟩

def idless : Json → Bool
  | .object members => !(members.any fun member => member.1 = "id")
  | _ => false

def skips (call : Json) : Bool := encoder.full && !idless call

def separator : Nat := if encoder.responses.isEmpty then 0 else 1

def remaining : Nat := encoder.limit - (encoder.bytes + encoder.separator)

def push (response : RpcResponse) : ResponseEncoder :=
  let text := encodeResponse encode response
  let fits := !encoder.full && encoder.bytes + encoder.separator + text.length ≤ encoder.limit
  let text := if fits then text
    else encodeResponse encode (responseTooLarge response.id encoder.limit)
  { encoder with
    bytes := encoder.bytes + encoder.separator + text.length
    responses := encoder.responses ++ [text]
    full := !fits || response.overBudget }

def skip (call : Json) : ResponseEncoder :=
  match (match RpcRequest.parse call with
    | none => some .null
    | some request => request.id) with
  | some id => encoder.push encode (responseTooLarge id encoder.limit)
  | none => encoder

end ResponseEncoder

def dispatchValue (limit index : Nat) (call : Json) (budget : Nat) : Option RpcResponse :=
  match RpcRequest.parse call with
  | none => some ⟨.null, .error (-32600) "Invalid Request" none, false⟩
  | some request => request.id.map fun id =>
      answer limit id (dispatch index request.method request.params budget)

def handleCall (encoder : ResponseEncoder) (index : Nat) (call : Json) : ResponseEncoder :=
  if encoder.skips call then encoder.skip encode call
  else
    match dispatchValue dispatch encoder.limit index call encoder.remaining with
    | some response => encoder.push encode response
    | none => encoder

def runs (encoder : ResponseEncoder) (call : Json) : Bool :=
  !encoder.skips call && (RpcRequest.parse call).isSome

/-- The loop of `handle` over the calls with their indexes, and the calls that ran. -/
def handleCalls : ResponseEncoder → List (Json × Nat) → ResponseEncoder × List (Json × Nat)
  | encoder, [] => (encoder, [])
  | encoder, item :: items =>
    let out := handleCalls (handleCall encode dispatch encoder item.2 item.1) items
    (out.1, if runs encoder item.1 then item :: out.2 else out.2)

def batchText (responses : List (List UInt8)) : List UInt8 :=
  91 :: [44].intercalate responses ++ [93]

namespace ResponseEncoder

def finish (encoder : ResponseEncoder) : Option (List UInt8) :=
  if encoder.responses.isEmpty then none else some (batchText encoder.responses)

end ResponseEncoder

def isNotification (call : Json) : Bool := (RpcRequest.parse call).any (·.id.isNone)

def idOf (call : Json) : Json := ((RpcRequest.parse call).bind (·.id)).getD .null

def tooLarge (limit : Nat) (item : Json × Nat) : List UInt8 :=
  encodeResponse encode (responseTooLarge (idOf item.1) limit)

def room (limit : Nat) (earlier : List (List UInt8)) : Nat :=
  limit - ((batchText earlier).length + if earlier.isEmpty then 0 else 1)

def own (limit : Nat) (earlier : List (List UInt8)) (item : Json × Nat) : Option RpcResponse :=
  dispatchValue dispatch limit item.2 item.1 (room limit earlier)

def Unchanged (limit : Nat) : List (List UInt8) → List (Json × Nat) → List (List UInt8) → Prop
  | _, [], [] => True
  | earlier, item :: items, text :: texts =>
    (∃ response, own dispatch limit earlier item = some response ∧ response.overBudget = false ∧
      text = encodeResponse encode response ∧ (batchText (earlier ++ [text])).length ≤ limit) ∧
      Unchanged limit (earlier ++ [text]) items texts
  | _, _, _ => False

def Passes (limit : Nat) (earlier : List (List UInt8)) (item : Json × Nat) : Prop :=
  ∃ response, own dispatch limit earlier item = some response ∧ (response.overBudget = true ∨
    limit < (batchText (earlier ++ [encodeResponse encode response])).length)

end Handle

variable {encode : Json → Body → List UInt8} {dispatch : Nat → String → Option Json → Nat → CallEnd}
  {encoder : ResponseEncoder}

theorem length_batchText_concat (responses : List (List UInt8)) (text : List UInt8) :
    (batchText (responses ++ [text])).length =
      (batchText responses).length + (if responses.isEmpty then 0 else 1) + text.length := by
  have hcons : ∀ (first : List UInt8) (rest : List (List UInt8)),
      ([44].intercalate (first :: rest ++ [text])).length =
        ([44].intercalate (first :: rest)).length + 1 + text.length := by
    intro first rest
    induction rest generalizing first with
    | nil => simp [intercalate]; omega
    | cons second rest ih =>
      have := ih second; simp [intercalate] at this ⊢; omega
  cases responses with
  | nil => simp [batchText, intercalate]; omega
  | cons first rest =>
    have := hcons first rest
    simp only [batchText, length_cons, length_append, isEmpty_cons, false_eq_true, if_false] at this ⊢
    omega

variable {call : Json}

theorem parse_id {req : RpcRequest} (h : RpcRequest.parse call = some req) :
    ResponseEncoder.idless call = req.id.isNone := by
  cases call with
  | object members =>
    have hid : req.id = member members "id" := by
      simp only [RpcRequest.parse] at h
      split at h
      · split at h
        · cases h; rfl
        · cases h
      · cases h
    rw [hid, member, Option.isNone_map, ResponseEncoder.idless, ← Option.not_isSome,
      Bool.not_inj_iff, Bool.eq_iff_iff, List.any_eq_true, List.find?_isSome]
  | _ => cases h

theorem dispatchValue_none {limit index budget : Nat} {call : Json} :
    dispatchValue dispatch limit index call budget = none ↔ isNotification call = true := by
  rw [dispatchValue, isNotification]
  cases RpcRequest.parse call with
  | none => simp
  | some request => simp

variable {budget : Nat}

theorem dispatchValue_id {limit index : Nat} {resp : RpcResponse}
    (h : dispatchValue dispatch limit index call budget = some resp) :
    resp.id = idOf call ∧ (resp.overBudget = true → resp.body = limitExceeded limit) := by
  rw [dispatchValue] at h
  rw [idOf]
  cases hparse : RpcRequest.parse call with
  | none =>
    rw [hparse] at h; cases h; exact ⟨rfl, nofun⟩
  | some request =>
    rw [hparse] at h
    obtain ⟨id, hid, rfl⟩ := map_eq_some_iff.1 h
    generalize dispatch index request.method request.params budget = ending
    rw [bind_some, hid]
    cases ending with
    | overBudget => exact ⟨rfl, fun _ => rfl⟩
    | _ => exact ⟨rfl, nofun⟩

theorem handleCall_full (h : encoder.full = true) (index : Nat) (call : Json) :
    (handleCall encode dispatch encoder index call).full = true ∧
      (handleCall encode dispatch encoder index call).limit = encoder.limit ∧
      (handleCall encode dispatch encoder index call).responses = encoder.responses ++
        (if isNotification call then [] else [tooLarge encode encoder.limit (call, index)]) ∧
      (runs encoder call = isNotification call) := by
  have hpush : ∀ resp : RpcResponse, (encoder.push encode resp).full =
      true ∧ (encoder.push encode resp).limit = encoder.limit ∧ (encoder.push encode resp).responses =
      encoder.responses ++ [encodeResponse encode (responseTooLarge resp.id encoder.limit)] := by
    intro resp; simp [ResponseEncoder.push, h]
  have hname : ∀ id, (responseTooLarge id encoder.limit).id = id := fun _ => rfl
  rw [handleCall, runs, isNotification, ResponseEncoder.skips, h, Bool.true_and]
  cases hparse : RpcRequest.parse call with
  | none =>
    have hid : idOf call = .null := by rw [idOf, hparse]; rfl
    cases ResponseEncoder.idless call
    · simpa [ResponseEncoder.skip, hparse, tooLarge, hid, hname] using
        hpush (responseTooLarge .null encoder.limit)
    · simpa [dispatchValue, hparse, tooLarge, hid] using hpush ⟨.null, _, _⟩
  | some request =>
    rw [parse_id hparse]
    cases hid : request.id with
    | none => simp [dispatchValue, hparse, hid, h]
    | some id =>
      have hown : idOf call = id := by rw [idOf, hparse, bind_some, hid]; rfl
      simpa [ResponseEncoder.skip, hparse, hid, tooLarge, hown, hname] using
        hpush (responseTooLarge id encoder.limit)

theorem handleCalls_full {items : List (Json × Nat)} (h : encoder.full = true) :
    (handleCalls encode dispatch encoder items).1.responses = encoder.responses ++
      (items.filter fun item => !isNotification item.1).map (tooLarge encode encoder.limit) ∧
    (handleCalls encode dispatch encoder items).2 = items.filter fun item => isNotification item.1 := by
  induction items generalizing encoder with
  | nil => exact ⟨(append_nil _).symm, rfl⟩
  | cons item items ih =>
    obtain ⟨hfull, hlimit, hresponses, hruns⟩ :=
      @handleCall_full encode dispatch encoder h item.2 item.1
    obtain ⟨hrest, hran⟩ := ih hfull
    rw [handleCalls, hruns]
    rw [hrest, hran, hresponses, hlimit]
    cases hitem : isNotification item.1 <;> simp [hitem]

structure Answered (encode : Json → Body → List UInt8)
    (dispatch : Nat → String → Option Json → Nat → CallEnd) (limit : Nat)
    (earlier : List (List UInt8)) (items : List (Json × Nat)) (responses : List (List UInt8))
    (ran kept rest : List (Json × Nat)) (texts : List (List UInt8)) : Prop where
  split : items = kept ++ rest
  responses : responses = earlier ++ texts ++
    (rest.filter fun item => !isNotification item.1).map (tooLarge encode limit)
  unchanged : Unchanged encode dispatch limit earlier
    (kept.filter fun item => !isNotification item.1) texts
  passes : ∀ first ∈ rest.head?, Passes encode dispatch limit (earlier ++ texts) first
  ran : ran = ((kept ++ rest.take 1).filter fun item => (RpcRequest.parse item.1).isSome) ++
    (rest.drop 1).filter fun item => isNotification item.1

theorem handleCalls_answered {items : List (Json × Nat)} (hopen : encoder.full = false)
    (hbytes : encoder.bytes = (batchText encoder.responses).length) :
    ∃ kept rest texts, Answered encode dispatch encoder.limit encoder.responses items
      (handleCalls encode dispatch encoder items).1.responses
      (handleCalls encode dispatch encoder items).2 kept rest texts := by
  induction items generalizing encoder with
  | nil => exact ⟨[], [], [], rfl, by simp [handleCalls], trivial, nofun, rfl⟩
  | cons item items ih =>
    have hskips : encoder.skips item.1 = false := by
      rw [ResponseEncoder.skips, hopen, Bool.false_and]
    have hruns : runs encoder item.1 = (RpcRequest.parse item.1).isSome := by
      rw [runs, hskips, Bool.not_false, Bool.true_and]
    have hroom : encoder.remaining = room encoder.limit encoder.responses := by
      rw [ResponseEncoder.remaining, hbytes, room, ResponseEncoder.separator]
    rw [handleCalls, handleCall, hskips, if_neg Bool.false_ne_true, hruns]
    cases hown : dispatchValue dispatch encoder.limit item.2 item.1 encoder.remaining with
    | none =>
      have hitem := dispatchValue_none.1 hown
      obtain ⟨kept, rest, texts, h⟩ := ih hopen hbytes
      refine ⟨item :: kept, rest, texts, congrArg (item :: ·) h.split, h.responses, ?_, h.passes, ?_⟩
      · rw [filter_cons_of_neg (by simp [hitem])]; exact h.unchanged
      · rw [h.ran, cons_append, filter_cons]
        cases (RpcRequest.parse item.1).isSome <;> rfl
    | some response =>
      have hitem : isNotification item.1 = false := by
        rw [← not_eq_true, ← @dispatchValue_none dispatch encoder.limit item.2 encoder.remaining, hown]
        exact nofun
      obtain ⟨hid, hover⟩ := dispatchValue_id hown
      have hmine : own dispatch encoder.limit encoder.responses item = some response := by
        rw [own, ← hroom]; exact hown
      have hsum : encoder.bytes + encoder.separator + (encodeResponse encode response).length =
          (batchText (encoder.responses ++ [encodeResponse encode response])).length := by
        rw [length_batchText_concat, hbytes, ResponseEncoder.separator]
      by_cases hkept : response.overBudget = false ∧
          (batchText (encoder.responses ++ [encodeResponse encode response])).length ≤ encoder.limit
      · have hpush : encoder.push encode response = { encoder with
            bytes := (batchText (encoder.responses ++ [encodeResponse encode response])).length
            responses := encoder.responses ++ [encodeResponse encode response] } := by
          simp [ResponseEncoder.push, hopen, hsum, hkept.1, hkept.2]
        obtain ⟨kept, rest, texts, h⟩ := @ih (encoder.push encode response)
          (by rw [hpush]; exact hopen) (by rw [hpush])
        have hlimit : (encoder.push encode response).limit = encoder.limit := by rw [hpush]
        have hnow : (encoder.push encode response).responses =
            encoder.responses ++ [encodeResponse encode response] := by rw [hpush]
        rw [hlimit, hnow] at h
        refine ⟨item :: kept, rest, encodeResponse encode response :: texts,
          congrArg (item :: ·) h.split, ?_, ?_, ?_, ?_⟩
        · rw [h.responses, append_assoc encoder.responses]; rfl
        · rw [filter_cons_of_pos (by simp [hitem])]
          exact ⟨⟨response, hmine, hkept.1, rfl, hkept.2⟩, h.unchanged⟩
        · have hpasses := h.passes; rwa [append_assoc] at hpasses
        · rw [h.ran, cons_append, filter_cons]
          cases (RpcRequest.parse item.1).isSome <;> rfl
      · have htext : encodeResponse encode (responseTooLarge response.id encoder.limit) =
            tooLarge encode encoder.limit item := by rw [hid]; rfl
        have hbody : response.overBudget = true → encodeResponse encode response =
            tooLarge encode encoder.limit item := fun h => by
          rw [encodeResponse, hover h, hid]; rfl
        have hpush : (encoder.push encode response).full = true ∧
            (encoder.push encode response).limit = encoder.limit ∧
            (encoder.push encode response).responses =
              encoder.responses ++ [tooLarge encode encoder.limit item] := by
          cases hstopped : response.overBudget with
          | true =>
            refine ⟨by simp [ResponseEncoder.push, hstopped], rfl, ?_⟩
            simp [ResponseEncoder.push, htext, hbody hstopped]
          | false =>
            have hlong : ¬ (batchText
                (encoder.responses ++ [encodeResponse encode response])).length ≤ encoder.limit :=
              fun h => hkept ⟨hstopped, h⟩
            simp [ResponseEncoder.push, hopen, hsum, hlong, htext, hstopped]
        obtain ⟨hfull, hlimit, hresponses⟩ := hpush
        obtain ⟨hrest, hran⟩ := @handleCalls_full encode dispatch _ items hfull
        refine ⟨[], item :: items, [], rfl, ?_, trivial, fun _ hfst => ?_, ?_⟩
        · rw [hrest, hresponses, hlimit, filter_cons_of_pos (by simp [hitem])]; simp
        · cases hfst
          refine ⟨response, by rwa [append_nil], ?_⟩
          rw [append_nil, ← Nat.not_le]
          cases hstopped : response.overBudget with
          | true => exact .inl rfl
          | false => exact .inr fun h => hkept ⟨hstopped, h⟩
        · simp only [hran, nil_append, take_succ_cons, take_zero, filter_cons,
            filter_nil, drop_succ_cons, drop_zero]
          split
          · rfl
          · rfl

variable {config : LogsConfig} {reads : Reads} {filter : ParsedLogFilter}

/-- The size grows with every change. The second steps stop where the first ones change past the budget,
and do as they do otherwise. -/
def StopsPast {σ α ε : Type} (size : σ → Nat) (budget : Nat) (stop : ε) (f g : σ → α → Except ε σ) :
    Prop :=
  ∀ {s a s'}, f s a = .ok s' → size s ≤ size s' ∧ (size s' ≤ size s → s' = s) ∧ (s' =
    s ∨ size s' ≤ budget → g s a = .ok s') ∧ (¬ (s' = s ∨ size s' ≤ budget) → g s a = .error stop)

theorem foldExcept_budget {σ α ε : Type} {f g : σ → α → Except ε σ} {size : σ → Nat}
    {stop : ε} (hstep : StopsPast size budget stop f g) :
    StopsPast size budget stop (foldExcept f) (foldExcept g) := by
  intro s items
  induction items generalizing s with
  | nil =>
    intro s' h
    cases h; exact ⟨le_rfl, fun _ => rfl, fun _ => rfl, fun h => absurd (.inl rfl) h⟩
  | cons a items ih =>
    intro s' h
    rw [foldExcept_cons, bind_eq_ok] at h
    obtain ⟨next, hnext, hrest⟩ := h
    obtain ⟨hle, hsame, hfits, hstops⟩ := hstep hnext
    obtain ⟨hle', hsame', hfits', hstops'⟩ := ih hrest
    have hall : size s' ≤ size s → s' = s := fun hback => by
      have hone := hsame (hle'.trans hback); rw [hone] at hsame'; exact hsame' hback
    refine ⟨hle.trans hle', hall, fun hin => ?_, fun hout => ?_⟩
    · have hnextIn : next = s ∨ size next ≤ budget := by
        rcases hin with rfl | hin
        · exact .inl (hsame hle')
        · exact .inr (hle'.trans hin)
      rw [foldExcept_cons, hfits hnextIn, ok_bind]
      refine hfits' ?_
      rcases hin with rfl | hin
      · exact .inl (hsame hle').symm
      · exact .inr hin
    · rw [foldExcept_cons]
      by_cases hnextIn : next = s ∨ size next ≤ budget
      · rw [hfits hnextIn, ok_bind]
        refine hstops' fun hin => hout ?_
        rcases hin with rfl | hin
        · exact hnextIn
        · exact .inr hin
      · rw [hstops hnextIn]; rfl

variable {frame : LogFrame} {first : Nat}

theorem collectLog_budget (other : Nat) :
    StopsPast Prod.snd other (.overResponseBudget config.maxResponseBytes)
      (collectLog config filter budget first frame) (collectLog config filter other first frame) := by
  intro output log _ h
  by_cases hselects : filter.selects log = true
  · rw [collectLog, if_pos hselects] at h ⊢
    simp only [eq_ok] at h
    obtain ⟨-, hroom, -, -, row, hrow, rfl⟩ := h
    have hgrows : output.2 < output.2 + (if output.1.isEmpty then 0 else 1) +
        rpcLogJsonLen frame.block.number log := by
      have : 0 < rpcLogJsonLen frame.block.number log := by
        simp only [rpcLogJsonLen, length_cons]; omega
      omega
    have hne : ¬ (output.1 ++ [row], output.2 + (if output.1.isEmpty then 0 else 1) +
        rpcLogJsonLen frame.block.number log) = output := fun heq =>
      Nat.ne_of_gt hgrows (congrArg Prod.snd heq)
    refine ⟨hgrows.le, fun hback => absurd hgrows (Nat.not_lt.2 hback), fun hin => ?_, fun hout => ?_⟩
    · have hfits := hin.resolve_left hne
      rw [ensure, if_pos hroom, ok_bind]
      dsimp only; rw [ensure, if_pos hfits, ok_bind, hrow]; rfl
    · have hpast := fun hfits => hout (.inr hfits)
      rw [ensure, if_pos hroom, ok_bind]
      dsimp only; rw [ensure, if_neg hpast]; rfl
  · rw [collectLog, if_neg hselects] at h ⊢
    cases h; exact ⟨le_rfl, fun _ => rfl, fun _ => rfl, fun h => absurd (.inl rfl) h⟩

theorem collectFrame_budget (other : Nat) :
    StopsPast Prod.snd other (.overResponseBudget config.maxResponseBytes)
      (collectFrame config filter budget first) (collectFrame config filter other first) := by
  intro _ _ _ h
  simp only [collectFrame, bind_eq_ok] at h
  obtain ⟨_, hsingle, _, hlogs, h⟩ := h
  rw [collectFrame, hsingle, ok_bind]
  dsimp only; rw [hlogs, ok_bind]; exact foldExcept_budget (collectLog_budget other) h

theorem collectFrame_counted {out out' : List RpcLog × Nat}
 (hcnt : out.2 = arrayLen out.1) (h : collectFrame config filter budget first out frame =
 .ok out') : out'.2 = arrayLen out'.1 := by
  simp only [collectFrame, bind_eq_ok] at h
  obtain ⟨_, -, _, -, h⟩ := h
  refine foldExcept_invariant (fun out : List RpcLog × Nat => out.2 = arrayLen out.1)
    (fun {_ a _} _ hs hstep => ?_) hcnt h
  by_cases hselects : filter.selects a = true
  · rw [collectLog, if_pos hselects] at hstep
    simp only [eq_ok] at hstep
    obtain ⟨-, -, -, -, _, hrow, rfl⟩ := hstep; rw [arrayLen_concat, hs, (rpcLogValue_eq_ok hrow).1]
  · rw [collectLog, if_neg hselects] at hstep; cases hstep; exact hs

theorem collectFrames_budget (other : Nat) {frms : List LogFrame} {out : List RpcLog × Nat}
    (h : foldExcept (collectFrame config filter budget first) ([], 2) frms = .ok out) :
    foldExcept (collectFrame config filter other first) ([], 2) frms =
      if out.1 = [] ∨ arrayLen out.1 ≤ other then .ok out
      else .error (.overResponseBudget config.maxResponseBytes) := by
  have hcnt := foldExcept_invariant (fun out : List RpcLog × Nat => out.2 = arrayLen out.1)
      (fun {_ _ _} _ hs hstep => collectFrame_counted hs hstep) rfl h
  obtain ⟨-, -, hfits, hstops⟩ := foldExcept_budget (collectFrame_budget other) h
  have hempty : out = ([], 2) ↔ out.1 = [] := by
    refine ⟨fun heq => by rw [heq], fun hrows => Prod.ext hrows ?_⟩
    rw [hcnt, hrows]; rfl
  rw [hempty, hcnt] at hfits hstops
  split
  · exact hfits ‹_›
  · exact hstops ‹_›

theorem ethGetLogs_budget (other : Nat) {rows : List RpcLog}
    (h : ethGetLogs config reads filter budget = .ok rows) : ethGetLogs config reads filter other =
      if rows = [] ∨ (answerText rows).length ≤ other then .ok rows
      else .error (.overResponseBudget config.maxResponseBytes) := by
  simp only [ethGetLogs, eq_ok] at h
  obtain ⟨_, hrec, _, hbounds, _, hrange, -, hlen, _, hfrs, -, hhash, output, hout, rfl⟩ := h
  rw [ethGetLogs, hrec, ok_bind, hbounds, ok_bind]
  dsimp only
  rw [hrange, required, ok_bind, ensure, if_pos hlen, ok_bind, hfrs, ok_bind, ensure,
    if_pos hhash, ok_bind, collectFrames_budget other hout, length_answerText]
  split
  · rfl
  · rfl

def removedText (removed : Bool) : String := if removed then "true" else "false"

def rpcLogJsonLenOf (removed : Bool) (blockNumber : Nat) (log : Filtering.Log) : Nat :=
  let hexString := fun digits => digits + 4
  let quantity := fun value => hexString (quantityDigits value)
  let fields := [
    "\"address\":".length + hexString 40,
    "\"topics\":[]".length + log.topics.length * hexString 64 + (log.topics.length - 1),
    "\"data\":".length + hexString (log.data.length * 2),
    "\"blockNumber\":".length + quantity blockNumber,
    "\"transactionHash\":".length + hexString 64,
    "\"transactionIndex\":".length + quantity log.transactionIndex,
    "\"blockHash\":".length + hexString 64,
    "\"logIndex\":".length + quantity log.logIndex,
    "\"removed\":".length + (removedText removed).length]
  fields.sum + 2 + fields.length - 1

def logText (removed : Bool) (row : RpcLog) : List Char :=
  "\x7b".toList ++ RpcLog.commas (row.fields.dropLast ++
    ["\"removed\":".toList ++ (removedText removed).toList]) ++ "\x7d".toList

theorem length_logText {log : Filtering.Log} {row : RpcLog}
    (h : rpcLogValue frame log = .ok row) (removed : Bool) :
    (logText removed row).length = rpcLogJsonLenOf removed frame.block.number log := by
  have hfalse := row.length_text
  rw [(rpcLogValue_eq_ok h).1] at hfalse
  cases removed with
  | false => exact hfalse
  | true =>
    have htext : (logText true row).length + 1 = row.text.length := by
      have hflds : row.fields =
          row.fields.dropLast ++ ["\"removed\":".toList ++ "false".toList] := rfl
      rw [RpcLog.text, hflds, logText]; simp [RpcLog.length_commas, removedText]; omega
    have hlen : rpcLogJsonLenOf true frame.block.number log + 1 =
        rpcLogJsonLen frame.block.number log := by
      have hnames : "true".length = 4 ∧ "false".length = 5 := by decide
      simp [rpcLogJsonLenOf, rpcLogJsonLen, removedText, hnames]; omega
    omega

theorem length_unchanged {limit : Nat} : ∀ {items : List (Json × Nat)}
    {prior texts : List (List UInt8)}, Unchanged encode dispatch limit prior items texts →
      texts.length = items.length ∧ (texts ≠ [] → (batchText (prior ++ texts)).length ≤ limit) := by
  intro items
  induction items with
  | nil =>
    intro prior texts h
    cases texts with
    | nil => exact ⟨rfl, fun hne => absurd rfl hne⟩
    | cons text texts => exact h.elim
  | cons item items ih =>
    intro prior texts h
    cases texts with
    | nil => exact h.elim
    | cons text texts =>
      obtain ⟨⟨_, -, -, -, hfits⟩, hrest⟩ := h
      obtain ⟨hlen, hlimit⟩ := ih hrest
      refine ⟨by rw [length_cons, hlen, length_cons], fun _ => ?_⟩
      cases texts with
      | nil => exact hfits
      | cons next rest =>
        have := hlimit (cons_ne_nil next rest); rwa [append_assoc] at this

/-- The answer to a batch is made of the calls' own responses up to the first that would pass the limit,
and of size errors from there on. A log's length is counted as it is encoded, so that the budget refuses
the logs that do not fit. -/
theorem batch_within_limit (encode : Json → Body → List UInt8)
    (dispatch : Nat → String → Option Json → Nat → CallEnd) :
    (∀ (limit : Nat) (calls : List Json), ∃ out ran kept rest texts,
      handleCalls encode dispatch (ResponseEncoder.forBatch limit) calls.zipIdx = (out, ran) ∧
      Answered encode dispatch limit [] calls.zipIdx out.responses ran kept rest texts ∧
      out.finish = (if out.responses = [] then none else some (batchText out.responses)) ∧
      (texts ≠ [] → (batchText texts).length ≤ limit)) ∧
    (∀ (frame : LogFrame) (log : Filtering.Log) (row : RpcLog) (removed : Bool),
      rpcLogValue frame log = .ok row →
        (logText removed row).length = rpcLogJsonLenOf removed frame.block.number log) ∧
    (∀ (config : LogsConfig) (reads : Reads) (filter : ParsedLogFilter) (budget : Nat)
      (rows : List RpcLog), ethGetLogs config reads filter budget = .ok rows →
        ∀ other, ethGetLogs config reads filter other =
          if rows = [] ∨ (answerText rows).length ≤ other then .ok rows
          else .error (.overResponseBudget config.maxResponseBytes)) := by
  refine ⟨fun limit calls => ?_, fun frame log row removed h => length_logText h removed,
    fun config reads filter budget rows h other => ethGetLogs_budget other h⟩
  obtain ⟨kept, rest, texts, h⟩ := @handleCalls_answered encode dispatch
    (ResponseEncoder.forBatch limit) calls.zipIdx rfl rfl
  refine ⟨_, _, kept, rest, texts, rfl, h, ?_, (length_unchanged h.unchanged).2⟩
  simp only [ResponseEncoder.finish, List.isEmpty_iff]

def emptyFilter : ParsedLogFilter :=
  { handoffFilter with addresses := [.replicate 20 2] }

theorem emptyFilter_answers (budget : Nat)
    (h : (foldExcept (collectFrame handoffConfig emptyFilter budget 4) ([], 2)
      handoffFrames).toOption.map (·.1) = some []) :
    ethGetLogs handoffConfig handoffReads emptyFilter budget = .ok [] := by
  obtain ⟨out, hout, hrows⟩ := map_eq_some_iff.1 h
  have hrng : ∀ range, BlockRange.new? 4 5 = some range →
      resolveLogFrames handoffConfig handoffReads emptyFilter range
        (some ⟨5, 5, Nat.le_refl 5, handoff_le⟩) = .ok handoffFrames := by
    intro range hrng; cases hrng; rfl
  have hfold : foldExcept (collectFrame handoffConfig emptyFilter budget 4) ([], 2) handoffFrames =
      .ok out := by
    revert hout
    cases foldExcept (collectFrame handoffConfig emptyFilter budget 4) ([], 2) handoffFrames with
    | error error => intro h; cases h
    | ok found => exact fun h => congrArg Except.ok (some.inj h)
  simp only [ethGetLogs, eq_ok]
  exact ⟨_, rfl, (4, 5), rfl, ⟨4, 5, by decide, by decide⟩, rfl, ⟨⟩, by decide, handoffFrames,
    hrng _ rfl, ⟨⟩, (by intro _ h; cases h), out, hfold, hrows⟩

/-- No log is selected: two bytes are encoded where none is left. -/
theorem empty_result_not_refused : ¬ ∀ (config : LogsConfig) (reads : Reads)
    (filter : ParsedLogFilter) (budget : Nat) (rows : List RpcLog),
      ethGetLogs config reads filter budget = .ok rows → ∀ other,
        (ethGetLogs config reads filter other =
          .error (.overResponseBudget config.maxResponseBytes) ↔
            other < (answerText rows).length) := by
  intro hall
  have hnone := emptyFilter_answers 0 (by decide +kernel)
  have hrefused := (hall _ _ _ _ _ hnone 0).2 (by decide); rw [hnone] at hrefused; cases hrefused

end Leani.Rpc.Batch
