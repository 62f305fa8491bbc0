import Leani.Erc20.Balances

/-!
# The balances of a watched pair

A pair's balance is what its canonical transfers leave, in log order, up to the first one that cannot
be applied. From that block on the pair keeps the balance it had, is incomplete, and is never changed
again.
-/

namespace Leani.Erc20

open Library Std Filtering Table BalanceProcessor

open EvmEvents (EncodedDelta ChainFrame)

open Delivery (DomainChange)

abbrev Entry := Nat × TransferEvent

def Entry.touches (token address : Address) (entry : Entry) : Bool :=
  decide (entry.2.token = token) &&
    (decide (entry.2.sender = address) || decide (entry.2.recipient = address))

def touching (token address : Address) (entries : List Entry) : List Entry :=
  entries.filter (Entry.touches token address)

def gain (address : Address) (event : TransferEvent) : Int :=
  (if event.recipient = address then (event.value : Int) else 0) -
    if event.sender = address then (event.value : Int) else 0

def net (address : Address) (entries : List Entry) : Int :=
  (entries.map fun entry => gain address entry.2).sum

def CannotApply (address : Address) (balance : Int) (event : TransferEvent) : Prop :=
  event.sender = address ∧ balance < event.value ∨
    event.sender ≠ address ∧ event.recipient = address ∧ 2 ^ 256 ≤ balance + event.value

/-- The balance is what the transfers before the first that cannot be applied leave, and the pair is
incomplete from that one's block on. -/
structure Derived (address : Address) (entries : List Entry) (balance : Nat)
    (incompleteFrom : Option Nat) : Prop where
  bounded : balance < 2 ^ 256
  split : ∃ applied rest, entries = applied ++ rest ∧ (balance : Int) = net address applied ∧
    (∀ before entry after, applied = before ++ entry :: after →
      ¬ CannotApply address (net address before) entry.2) ∧
    (incompleteFrom = none → rest = []) ∧
    ∀ block, incompleteFrom = some block → ∃ event after, rest = (block, event) :: after ∧
      CannotApply address (net address applied) event

variable {address : Address} {entries : List Entry} {balance : Nat}

theorem Derived.empty : Derived address [] 0 none where
  bounded := by omega
  split := ⟨[], [], rfl, rfl, by simp, fun _ => rfl, nofun⟩

theorem net_append (ents ents' : List Entry) :
    net address (ents ++ ents') = net address ents + net address ents' := by
  simp [net]

variable {block : Nat}

theorem Derived.frozen (h : Derived address entries balance (some block))
    (entry : Entry) : Derived address (entries ++ [entry]) balance (some block) where
  bounded := h.bounded
  split := by
    obtain ⟨applied, _, rfl, hnet, happ, -, hrest⟩ := h.split
    obtain ⟨event, after, rfl, hcannot⟩ := hrest block rfl
    refine ⟨applied, (block, event) :: (after ++ [entry]), by simp, hnet, happ, nofun, ?_⟩
    intro _ hother; cases hother; exact ⟨event, after ++ [entry], rfl, hcannot⟩

theorem Derived.balance_eq (h : Derived address entries bal none) :
    (bal : Int) = net address entries ∧ ∀ before entry after,
      entries = before ++ entry :: after → ¬ CannotApply address (net address before) entry.2 := by
  obtain ⟨_, _, rfl, hnet, happ, hrest, -⟩ := h.split
  rw [hrest rfl, List.append_nil]; exact ⟨hnet, happ⟩

variable {entry : Entry}

theorem Derived.apply {balance' : Nat} (h : Derived address entries balance none)
    (hcan : ¬ CannotApply address balance entry.2) (hbounded : balance' < 2 ^ 256)
    (hgain : (balance' : Int) = balance + gain address entry.2) :
    Derived address (entries ++ [entry]) balance' none where
  bounded := hbounded
  split := by
    obtain ⟨hnet, happ⟩ := h.balance_eq
    refine ⟨entries ++ [entry], [], by simp, ?_, ?_, fun _ => rfl, nofun⟩
    · rw [net_append, ← hnet, hgain]; simp [net]
    · intro bef other after heq
      rcases List.eq_nil_or_concat after with rfl | ⟨after', last, rfl⟩
      · obtain ⟨rfl, hlast⟩ := List.append_inj' heq rfl
        cases hlast; rw [← hnet]; exact hcan
      · have hconcat : entries ++ [entry] = (bef ++ other :: after') ++ [last] := by
          rw [heq]; simp
        exact happ bef other after' (List.append_inj' hconcat rfl).1

variable {event : TransferEvent}

theorem Derived.freeze
    (h : Derived address entries balance none) (hcannot : CannotApply address balance event) :
    Derived address (entries ++ [(block, event)]) balance (some block) where
  bounded := h.bounded
  split := by
    obtain ⟨hnet, happ⟩ := h.balance_eq
    refine ⟨entries, [(block, event)], rfl, hnet, happ, nofun, fun _ hother => ?_⟩
    cases hother; exact ⟨event, [], rfl, hnet ▸ hcannot⟩

variable {tools : Tools} {processor : BalanceProcessor} {cursor : ProcessorCursor}

namespace BalanceProcessor

variable (processor cursor) in
def pairOut (address : Address) (event : TransferEvent) (ledger : PairLedger) :
    Except ProcessorError PairLedger :=
  if event.sender = address then
    processor.updateBalance ledger event.token cursor.blockNumber
      (checkedSub ledger.balance event.value)
      "event-derived balance underflow; start block or token assumptions are incomplete"
  else pure ledger

variable (processor cursor) in
def pairIn (address : Address) (event : TransferEvent) (ledger : PairLedger) :
    Except ProcessorError PairLedger :=
  if event.recipient = address then
    processor.updateBalance ledger event.token cursor.blockNumber
      (checkedAdd ledger.balance event.value) "event-derived balance overflow"
  else pure ledger

variable (processor cursor) in
def pairStep (address : Address) (event : TransferEvent) (ledger : PairLedger) :
    Except ProcessorError PairLedger :=
  processor.pairOut cursor address event ledger >>= processor.pairIn cursor address event

variable {ledger : PairLedger}

theorem updateBalance_frozen (h : ledger.incompleteFrom.isSome = true)
    (token : Address) (block : Nat) (res : Option Nat) (fault : String) :
    processor.updateBalance ledger token block res fault = .ok ledger := by
  unfold updateBalance; rw [if_pos h]; rfl

theorem updateBalance_some {led : PairLedger} (h : led.incompleteFrom = none)
    (token : Address) (block balance : Nat) (failure : String) :
    processor.updateBalance led token block (some balance) failure = .ok { led with balance } := by
  unfold updateBalance; rw [h]; rfl

theorem updateBalance_none (h : ledger.incompleteFrom = none) (token : Address)
    (block : Nat) (fault : String) : processor.updateBalance ledger token block none fault =
      if processor.config.completeFromStart = true ∧ processor.tokens.contains token = true then
        .error (.state fault) else .ok { ledger with incompleteFrom := some block } := by
  unfold updateBalance
  simp only [h, Option.isSome_none, Bool.false_eq_true, if_false, Bool.and_eq_true]; rfl

theorem pairStep_frozen (h : ledger.incompleteFrom.isSome = true) (addr : Address)
    (event : TransferEvent) : processor.pairStep cursor addr event ledger = .ok ledger := by
  have hout : processor.pairOut cursor addr event ledger = .ok ledger := by
    unfold pairOut
    split
    · exact updateBalance_frozen h _ _ _ _
    · rfl
  rw [pairStep, hout, ok_bind, pairIn]
  split
  · exact updateBalance_frozen h _ _ _ _
  · rfl

theorem pairStep_derived {event : TransferEvent}
    (hnone : ledger.incompleteFrom = none) (hbounded : ledger.balance < 2 ^ 256)
    (address : Address) :
    (¬ CannotApply address ledger.balance event ∧ ∃ balance : Nat, balance < 2 ^ 256 ∧
      (balance : Int) = ledger.balance + gain address event ∧
        processor.pairStep cursor address event ledger = .ok { ledger with balance }) ∨
    CannotApply address ledger.balance event ∧ ((processor.config.completeFromStart = true ∧
          processor.tokens.contains event.token = true ∧
            ∃ failure, processor.pairStep cursor address event ledger = .error (.state failure)) ∨
        processor.pairStep cursor address event ledger =
          .ok { ledger with incompleteFrom := some cursor.blockNumber }) := by
  unfold CannotApply gain pairStep pairOut pairIn checkedSub checkedAdd
  by_cases hsender : event.sender = address
  · rw [if_pos hsender, if_pos hsender]
    by_cases hcov : event.value ≤ ledger.balance
    · -- The balance covers the outgoing side, and an incoming one only returns it.
      left
      rw [if_pos hcov, updateBalance_some hnone, ok_bind]
      have hcan : ¬ (event.sender = address ∧ (ledger.balance : Int) < event.value ∨
          event.sender ≠ address ∧ event.recipient = address ∧
            2 ^ 256 ≤ (ledger.balance : Int) + event.value) := by
        rintro (⟨-, _⟩ | ⟨hne, -⟩)
        · omega
        · exact hne hsender
      by_cases hrecip : event.recipient = address
      · have hfits : ledger.balance - event.value + event.value < 2 ^ 256 := by omega
        rw [if_pos hrecip, if_pos hrecip, if_pos hfits]
        exact ⟨hcan, _, hfits, by omega, @updateBalance_some processor
          { ledger with balance := ledger.balance - event.value } hnone _ _ _ _⟩
      · rw [if_neg hrecip, if_neg hrecip]
        exact ⟨hcan, ledger.balance - event.value, by omega, by omega, rfl⟩
    · right
      rw [if_neg hcov, updateBalance_none hnone]
      refine ⟨.inl ⟨hsender, by omega⟩, ?_⟩
      split
      · rename_i hdeclared; exact .inl ⟨hdeclared.1, hdeclared.2, _, rfl⟩
      · right
        rw [ok_bind]
        split
        · exact updateBalance_frozen rfl _ _ _ _
        · rfl
  · rw [if_neg hsender, if_neg hsender]
    have hout : (pure ledger : Except ProcessorError PairLedger) = .ok ledger := rfl
    rw [hout, ok_bind]
    by_cases hrecip : event.recipient = address
    · rw [if_pos hrecip, if_pos hrecip]
      by_cases hfits : ledger.balance + event.value < 2 ^ 256
      · left
        rw [if_pos hfits, updateBalance_some hnone]
        refine ⟨?_, _, hfits, by omega, rfl⟩
        rintro (⟨heq, -⟩ | ⟨-, -, _⟩)
        · exact hsender heq
        · omega
      · right
        rw [if_neg hfits, updateBalance_none hnone]
        refine ⟨.inr ⟨hsender, hrecip, by omega⟩, ?_⟩
        split
        · rename_i hdeclared; exact .inl ⟨hdeclared.1, hdeclared.2, _, rfl⟩
        · exact .inr rfl
    · left
      rw [if_neg hrecip, if_neg hrecip]; exact ⟨by tauto, ledger.balance, hbounded, by omega, rfl⟩

end BalanceProcessor

variable (tools) in
def storedOf (stores : Stores) (token address : Address) : Option TokenBalance :=
  match stores.state[balanceRow token address]? with
  | some bytes => (tools.balance.decode bytes).toOption
  | none => none

variable (tools) in
def ledgerOf (stores : Stores) (ledgers : Ledgers) (token address : Address) : PairLedger :=
  ledgers[(token, address)]?.getD (.new (storedOf tools stores token address))

variable (tools) in
def Decodes (stores : Stores) : Prop :=
  ∀ token address bytes, stores.state[balanceRow token address]? = some bytes →
    ∃ balance, tools.balance.decode bytes = .ok balance

variable {stores : Stores} {ledgers ledgers' : Ledgers} {token : Address}

theorem storedBalance_eq (hdecodes : Decodes tools stores) (token addr : Address) :
    storedBalance tools stores token addr = .ok (storedOf tools stores token addr) := by
  unfold storedBalance storedOf
  cases hrow : stores.state[balanceRow token addr]? with
  | none => rfl
  | some bytes =>
    obtain ⟨_, hbalance⟩ := hdecodes token addr bytes hrow
    simp only [hbalance]; rfl

namespace BalanceProcessor

theorem loadPair_eq (hdecodes : Decodes tools stores) (token addr : Address)
    (ledgers : Ledgers) : ∃ loaded, processor.loadPair tools stores token addr ledgers = .ok loaded ∧
    (∀ t a, ledgerOf tools stores loaded t a = ledgerOf tools stores ledgers t a) ∧ ∀ t a,
    (t, a) ∈ loaded ↔ (t, a) ∈ ledgers ∨ processor.derives addr = true ∧ t = token ∧ a = addr := by
  unfold loadPair
  split
  · rename_i hload
    rw [storedBalance_eq hdecodes, ok_bind]
    refine ⟨_, rfl, fun t a => ?_, fun t a => ?_⟩
    · unfold ledgerOf
      rw [get?_insert_ite]
      split
      · rename_i heq
        cases heq; rw [ExtTreeMap.getElem?_eq_none hload.2]; rfl
      · rfl
    · rw [mem_insert_iff, Prod.mk.injEq, or_comm]
      exact or_congr_right ⟨fun h => ⟨hload.1, h⟩, And.right⟩
  · rename_i hskip
    refine ⟨ledgers, rfl, fun _ _ => rfl, fun t a => ⟨.inl, ?_⟩⟩
    rintro (h | ⟨hder, rfl, rfl⟩)
    · exact h
    · by_contra hnot
      exact hskip ⟨hder, hnot⟩

theorem applySide_eq {addr : Address} {bal : Nat → Option Nat} {unloaded fault : String}
    (hloaded : processor.derives addr = true → (token, addr) ∈ ledgers)
    {side : PairLedger → Except ProcessorError PairLedger} (hside : ∀ ledger, side ledger =
      processor.updateBalance ledger token cursor.blockNumber (bal ledger.balance) fault)
    (stores : Stores) :
    (∃ e, processor.applySide cursor token addr bal unloaded fault ledgers = .error e ∧
      processor.derives addr = true ∧ side (ledgerOf tools stores ledgers token addr) = .error e) ∨
    ∃ updated, processor.applySide cursor token addr bal unloaded fault ledgers =
      .ok updated ∧ (∀ t a, (t, a) ∈ updated ↔ (t, a) ∈ ledgers) ∧
      ∀ t a, if processor.derives addr = true ∧ t = token ∧ a = addr then
          side (ledgerOf tools stores ledgers t a) = .ok (ledgerOf tools stores updated t a)
        else ledgerOf tools stores updated t a = ledgerOf tools stores ledgers t a := by
  unfold applySide
  split
  · rename_i hder
    have hmem := hloaded hder
    obtain ⟨ledger, hledger⟩ : ∃ ledger, ledgers[(token, addr)]? = some ledger :=
      ⟨_, ExtTreeMap.getElem?_eq_some_getElem hmem⟩
    have hof : ledgerOf tools stores ledgers token addr = ledger := by
      rw [ledgerOf, hledger]; rfl
    rw [hledger, hof]
    simp only [required, ok_bind]
    rw [← hside]
    cases hres : side ledger with
    | error e => exact .inl ⟨e, rfl, hder, rfl⟩
    | ok next =>
      right
      refine ⟨ledgers.insert (token, addr) next, rfl, fun t a => ?_, fun t a => ?_⟩
      · rw [mem_insert_iff]
        constructor
        · rintro (heq | h)
          · rw [heq]; exact hmem
          · exact h
        · exact .inr
      · split
        · rename_i hpair
          obtain ⟨-, rfl, rfl⟩ := hpair; rw [hof, hres, ledgerOf, getElem?_insert_self]; rfl
        · rename_i hpair
          unfold ledgerOf
          rw [get?_insert_ite, if_neg]
          intro heq; cases heq; exact hpair ⟨hder, rfl, rfl⟩
  · rename_i hskip
    refine .inr ⟨ledgers, rfl, fun _ _ => Iff.rfl, fun t a => ?_⟩
    rw [if_neg fun h => hskip h.1]

def Side (processor : BalanceProcessor) (event : TransferEvent) (token address : Address) : Prop :=
  processor.derives address = true ∧ token = event.token ∧
    (address = event.sender ∨ address = event.recipient)

theorem reduceEvent_eq (hdecodes : Decodes tools stores) (ledgers : Ledgers) (event : TransferEvent) :
    (∃ e address, processor.reduceEvent tools cursor stores ledgers event = .error e ∧
      Side processor event event.token address ∧ processor.pairStep cursor address event
        (ledgerOf tools stores ledgers event.token address) = .error e) ∨
    ∃ updated, processor.reduceEvent tools cursor stores ledgers event = .ok updated ∧
      (∀ t a, (t, a) ∈ updated ↔ (t, a) ∈ ledgers ∨ Side processor event t a) ∧
      (∀ t a, processor.derives a = true → t = event.token → processor.pairStep cursor a event
        (ledgerOf tools stores ledgers t a) = .ok (ledgerOf tools stores updated t a)) ∧
      ∀ t a, ¬ Side processor event t a →
        ledgerOf tools stores updated t a = ledgerOf tools stores ledgers t a := by
  obtain ⟨one, hone, hof, hin⟩ :=
    @loadPair_eq tools processor stores hdecodes event.token event.sender ledgers
  obtain ⟨both, hboth, hof', hin'⟩ :=
    @loadPair_eq tools processor stores hdecodes event.token event.recipient one
  have hledger : ∀ t a, ledgerOf tools stores both t a = ledgerOf tools stores ledgers t a :=
    fun t a => (hof' t a).trans (hof t a)
  have hmem : ∀ t a, (t, a) ∈ both ↔ (t, a) ∈ ledgers ∨ Side processor event t a := by
    intro t a
    rw [hin', hin, or_assoc]
    refine or_congr_right ⟨?_, ?_⟩
    · rintro (⟨hder, rfl, rfl⟩ | ⟨hder, rfl, rfl⟩)
      · exact ⟨hder, rfl, .inl rfl⟩
      · exact ⟨hder, rfl, .inr rfl⟩
    · rintro ⟨hder, rfl, rfl | rfl⟩
      · exact .inl ⟨hder, rfl, rfl⟩
      · exact .inr ⟨hder, rfl, rfl⟩
  have hstart : processor.reduceEvent tools cursor stores ledgers event =
      (processor.applySide cursor event.token event.sender (checkedSub · event.value)
        "sender balance was not loaded"
        "event-derived balance underflow; start block or token assumptions are incomplete" both >>=
      processor.applySide cursor event.token event.recipient (checkedAdd · event.value)
        "recipient balance was not loaded" "event-derived balance overflow") := by
    rw [reduceEvent, hone, ok_bind, hboth, ok_bind]
  rw [hstart]
  -- The outgoing side.
  rcases @applySide_eq tools processor cursor both event.token event.sender (checkedSub · event.value)
      "sender balance was not loaded"
      "event-derived balance underflow; start block or token assumptions are incomplete"
      (fun hder => (hmem _ _).2 (.inr ⟨hder, rfl, .inl rfl⟩)) _ (fun _ => rfl) stores with
    ⟨e, herror, hder, hside⟩ | ⟨third, hthird, hin3, hof3⟩
  · left
    rw [herror]
    refine ⟨e, event.sender, rfl, ⟨hder, rfl, .inl rfl⟩, ?_⟩
    rw [pairStep, pairOut, if_pos rfl, ← hledger, hside]; rfl
  have hout : ∀ t a, processor.derives a = true → t = event.token →
      processor.pairOut cursor a event (ledgerOf tools stores ledgers t a) =
        .ok (ledgerOf tools stores third t a) := by
    rintro t a hder rfl
    have hpair := hof3 event.token a
    rw [hledger] at hpair
    unfold pairOut
    by_cases hsender : event.sender = a
    · rw [if_pos hsender]; rwa [if_pos ⟨hsender ▸ hder, rfl, hsender.symm⟩] at hpair
    · rw [if_neg hsender]
      rw [if_neg fun h => hsender h.2.2.symm] at hpair
      rw [hpair]; rfl
  rw [hthird, ok_bind]
  -- The incoming side.
  rcases @applySide_eq tools processor cursor third event.token event.recipient
      (checkedAdd · event.value) "recipient balance was not loaded" "event-derived balance overflow"
      (fun hder => (hin3 _ _).2 ((hmem _ _).2 (.inr ⟨hder, rfl, .inr rfl⟩))) _
      (fun _ => rfl) stores with
    ⟨e, herror, hder, hside⟩ | ⟨updated, hupdated, hin4, hof4⟩
  · left
    refine ⟨e, event.recipient, herror, ⟨hder, rfl, .inr rfl⟩, ?_⟩
    rw [pairStep, hout _ _ hder rfl, ok_bind, pairIn, if_pos rfl, hside]
  · right
    refine ⟨updated, hupdated, fun t a => ((hin4 t a).trans (hin3 t a)).trans (hmem t a), ?_, ?_⟩
    · rintro t a hder rfl
      have hpair := hof4 event.token a
      rw [pairStep, hout _ _ hder rfl, ok_bind, pairIn]
      by_cases hrecip : event.recipient = a
      · rw [if_pos hrecip]; rwa [if_pos ⟨hrecip ▸ hder, rfl, hrecip.symm⟩] at hpair
      · rw [if_neg hrecip]
        rw [if_neg fun h => hrecip h.2.2.symm] at hpair
        rw [hpair]; rfl
    · intro t a hnot
      have hpair := hof4 t a
      have hpair' := hof3 t a
      rw [if_neg] at hpair hpair'
      · rw [hpair, hpair', hledger]
      · rintro ⟨hder, rfl, rfl⟩; exact hnot ⟨hder, rfl, .inl rfl⟩
      · rintro ⟨hder, rfl, rfl⟩; exact hnot ⟨hder, rfl, .inr rfl⟩

end BalanceProcessor

def entriesOf (block : Nat) (events : List TransferEvent) : List Entry := events.map (block, ·)

theorem touching_append (token addr : Address) (ents ents' : List Entry) :
    touching token addr (ents ++ ents') =
      touching token addr ents ++ touching token addr ents' := List.filter_append _ _

theorem touches_iff {token addr : Address} : entry.touches token addr = true ↔
      entry.2.token = token ∧ (entry.2.sender = addr ∨ entry.2.recipient = addr) := by
  rw [Entry.touches, Bool.and_eq_true, Bool.or_eq_true, decide_eq_true_iff, decide_eq_true_iff,
    decide_eq_true_iff]

theorem side_iff {token addr : Address} (block : Nat) :
    BalanceProcessor.Side processor event token addr ↔ processor.derives addr = true ∧
      Entry.touches token addr (block, event) = true := by
  rw [touches_iff, BalanceProcessor.Side]
  refine and_congr_right fun _ => and_congr eq_comm (or_congr eq_comm eq_comm)

variable (tools processor) in
structure Reduced (block : Nat) (entries : List Entry) (stores : Stores)
    (events : List TransferEvent) (ledgers : Ledgers) : Prop where
  derived : ∀ token address, processor.derives address = true →
    Derived address (touching token address (entries ++ entriesOf block events))
      (ledgerOf tools stores ledgers token address).balance
      (ledgerOf tools stores ledgers token address).incompleteFrom
  loaded : ∀ token address, (token, address) ∈ ledgers ↔
    ∃ event ∈ events, BalanceProcessor.Side processor event token address
  frozen : ∀ token address, (ledgerOf tools stores ledgers token address).frozen =
    ((storedOf tools stores token address).bind TokenBalance.incompleteFrom).isSome

variable (processor) in
def FailsAt (entries : List Entry) (event : TransferEvent) : Prop :=
  processor.config.completeFromStart = true ∧ processor.tokens.contains event.token = true ∧
    ∃ address, BalanceProcessor.Side processor event event.token address ∧
      CannotApply address (net address (touching event.token address entries)) event

theorem frozen_of_pairStep {addr : Address} {led led' : PairLedger}
    (h : processor.pairStep cursor addr event led = .ok led') (hbounded :
      led.balance < 2 ^ 256) : led'.frozen = led.frozen := by
  cases hfrozen : led.incompleteFrom with
  | some block =>
    rw [pairStep_frozen (by rw [hfrozen]; rfl)] at h; cases h; rfl
  | none =>
    rcases pairStep_derived hfrozen hbounded addr with
      ⟨-, balance, -, -, hok⟩ | ⟨-, ⟨-, -, failure, herror⟩ | hok⟩
    · rw [hok] at h; cases h; rfl
    · rw [herror] at h; cases h
    · rw [hok] at h; cases h; rfl

theorem derived_of_pairStep {addr : Address} {ents : List Entry}
    {led led' : PairLedger} (h : Derived addr ents led.balance led.incompleteFrom)
    (hstep : processor.pairStep cursor addr event led = .ok led') :
    Derived addr (ents ++ [(cursor.blockNumber, event)]) led'.balance led'.incompleteFrom := by
  cases hfrozen : led.incompleteFrom with
  | some block =>
    rw [pairStep_frozen (by rw [hfrozen]; rfl)] at hstep
    cases hstep; rw [hfrozen] at h ⊢; exact h.frozen _
  | none =>
    rw [hfrozen] at h
    rcases pairStep_derived hfrozen h.bounded addr with
      ⟨hcan, balance, hbounded, hgain, hok⟩ | ⟨hcannot, ⟨-, -, failure, herror⟩ | hok⟩
    · rw [hok] at hstep
      cases hstep; rw [hfrozen]; exact h.apply hcan hbounded hgain
    · rw [herror] at hstep; cases hstep
    · rw [hok] at hstep; cases hstep; exact h.freeze hcannot

theorem Reduced.step {ents : List Entry} {evs : List TransferEvent}
    (hdecodes : Decodes tools stores)
    (h : Reduced tools processor cursor.blockNumber ents stores evs ledgers)
    (event : TransferEvent) :
    (∃ failure, processor.reduceEvent tools cursor stores ledgers event = .error (.state failure) ∧
      FailsAt processor (ents ++ entriesOf cursor.blockNumber evs) event) ∨
    ∃ updated, processor.reduceEvent tools cursor stores ledgers event = .ok updated ∧
      Reduced tools processor cursor.blockNumber ents stores (evs ++ [event]) updated := by
  have hentries : ents ++ entriesOf cursor.blockNumber (evs ++ [event]) =
      ents ++ entriesOf cursor.blockNumber evs ++ [(cursor.blockNumber, event)] := by
    rw [entriesOf, List.map_append, List.append_assoc]; rfl
  rcases @reduceEvent_eq tools processor cursor stores hdecodes ledgers event with
    ⟨e, addr, herror, hside, hstep⟩ | ⟨updated, hok, hin, hstep, hsame⟩
  · left
    have hderd := h.derived event.token addr hside.1
    cases hfrozen : (ledgerOf tools stores ledgers event.token addr).incompleteFrom with
    | some block =>
      rw [pairStep_frozen (by rw [hfrozen]; rfl)] at hstep; cases hstep
    | none =>
      rw [hfrozen] at hderd
      rcases pairStep_derived hfrozen hderd.bounded addr with
        ⟨-, balance, -, -, hok⟩ | ⟨hcannot, ⟨hcompl, htoken, failure, hfails⟩ | hok⟩
      · rw [hok] at hstep; cases hstep
      · rw [hfails] at hstep
        cases hstep
        refine ⟨failure, herror, hcompl, htoken, addr, hside, ?_⟩
        rw [← hderd.balance_eq.1]; exact hcannot
      · rw [hok] at hstep; cases hstep
  · right
    refine ⟨updated, hok, ⟨fun token addr hder => ?_, fun token addr => ?_, fun token addr => ?_⟩⟩
    · rw [hentries, touching_append]
      by_cases htouches : Entry.touches token addr (cursor.blockNumber, event) = true
      · have hone : touching token addr [(cursor.blockNumber, event)] =
            [(cursor.blockNumber, event)] := List.filter_eq_self.2 (by simpa using htouches)
        rw [hone]
        exact derived_of_pairStep (h.derived token addr hder)
          (hstep token addr hder (touches_iff.1 htouches).1.symm)
      · have hnone : touching token addr [(cursor.blockNumber, event)] = [] :=
          List.filter_eq_nil_iff.2 (by simpa using htouches)
        rw [hnone, List.append_nil, hsame token addr fun hside =>
          htouches ((side_iff cursor.blockNumber).1 hside).2]
        exact h.derived token addr hder
    · rw [hin, h.loaded]; simp [or_and_right, exists_or]
    · by_cases hside : BalanceProcessor.Side processor event token addr
      · rw [frozen_of_pairStep (hstep token addr hside.1 hside.2.1)
          (h.derived token addr hside.1).bounded]
        exact h.frozen token addr
      · rw [hsame token addr hside]; exact h.frozen token addr

variable {events : List TransferEvent}

theorem Reduced.loop {ents : List Entry} (hdecodes : Decodes tools stores)
    (h : Reduced tools processor cursor.blockNumber ents stores events ledgers)
    (later : List TransferEvent) : (∃ fault before event after,
      foldExcept (processor.reduceEvent tools cursor stores) ledgers later =
        .error (.state fault) ∧ later = before ++ event :: after ∧
      FailsAt processor (ents ++ entriesOf cursor.blockNumber (events ++ before)) event) ∨
    ∃ updated, foldExcept (processor.reduceEvent tools cursor stores) ledgers later = .ok updated ∧
      Reduced tools processor cursor.blockNumber ents stores (events ++ later) updated := by
  induction later generalizing events ledgers with
  | nil => exact .inr ⟨ledgers, rfl, by rwa [List.append_nil]⟩
  | cons event later ih =>
    rcases h.step hdecodes event with ⟨fault, herror, hfails⟩ | ⟨updated, hok, hnext⟩
    · left
      refine ⟨fault, [], event, later, ?_, rfl, by rwa [List.append_nil]⟩
      rw [foldExcept, herror]; rfl
    · rw [foldExcept, hok, ok_bind]
      have happend : ∀ rest, events ++ event :: rest = events ++ [event] ++ rest := by simp
      rcases ih hnext with ⟨fault, before, other, after, herror, rfl, hfails⟩ | ⟨last, hlast, _⟩
      · exact .inl ⟨fault, event :: before, other, after, herror, rfl, by rwa [happend]⟩
      · exact .inr ⟨last, hlast, by rwa [happend]⟩

theorem balanceRow_injective {token addr token' addr' : Address}
    (h : balanceRow token addr = balanceRow token' addr') : token = token' ∧ addr = addr' := by
  have hkeys := congrArg Prod.snd h
  obtain ⟨htoken, haddr⟩ := List.append_inj hkeys (by simp)
  exact ⟨Vector.toList_inj.1 htoken, Vector.toList_inj.1 haddr⟩

section Writing

variable {out : Stores × List DomainChange} {rows : List ((Address × Address) × PairLedger)}

theorem writeLedger_row (row : (Address × Address) × PairLedger) (token addr : Address) :
    (processor.writeLedger tools cursor out row).1.state[balanceRow token addr]? =
      (if row.1 = (token, addr) ∧ row.2.frozen = false then
        some (tools.balance.encode (processor.entityOf cursor token addr row.2))
      else out.1.state[balanceRow token addr]?) ∧
    (processor.writeLedger tools cursor out row).1.entities[balanceRow token addr]? =
      if row.1 = (token, addr) ∧ row.2.frozen = false then
        some (tools.balance.encode (processor.entityOf cursor token addr row.2))
      else out.1.entities[balanceRow token addr]? := by
  obtain ⟨⟨t, a⟩, ledger⟩ := row
  unfold writeLedger
  cases hfrozen : ledger.frozen with
  | true => simp
  | false =>
    simp only [Bool.false_eq_true, if_false, get?_insert_ite, Prod.mk.injEq, and_true]
    by_cases hpair : t = token ∧ a = addr
    · obtain ⟨rfl, rfl⟩ := hpair; simp
    · rw [if_neg fun heq => hpair ?_, if_neg hpair, if_neg fun heq => hpair ?_, if_neg hpair]
      · exact ⟨rfl, rfl⟩
      · obtain ⟨rfl, rfl⟩ := balanceRow_injective heq; exact ⟨rfl, rfl⟩
      · obtain ⟨rfl, rfl⟩ := balanceRow_injective heq; exact ⟨rfl, rfl⟩

variable (tools processor cursor) in
def rowAfter (token address : Address) (ledger : Option PairLedger) (row : Option (List UInt8)) :
    Option (List UInt8) :=
  match ledger with
  | some ledger =>
    if ledger.frozen then row
    else some (tools.balance.encode (processor.entityOf cursor token address ledger))
  | none => row

theorem writeLedgers_row (hkeys : (rows.map Prod.fst).Nodup) (token addr : Address) :
    let after := (rows.foldl (processor.writeLedger tools cursor) out).1
    let ledger := (rows.find? fun row => decide (row.1 = (token, addr))).map Prod.snd
    after.state[balanceRow token addr]? = rowAfter tools processor cursor token addr ledger
          out.1.state[balanceRow token addr]? ∧
      after.entities[balanceRow token addr]? = rowAfter tools processor cursor token addr ledger
          out.1.entities[balanceRow token addr]? := by
  dsimp only
  induction rows generalizing out with
  | nil => exact ⟨rfl, rfl⟩
  | cons row rows ih =>
    rw [List.map_cons, List.nodup_cons] at hkeys
    obtain ⟨hst, hents⟩ := @writeLedger_row tools processor cursor out row token addr
    obtain ⟨hst', hents'⟩ := @ih (processor.writeLedger tools cursor out row) hkeys.2
    rw [List.foldl_cons, hst', hents', hst, hents]
    by_cases hrow : row.1 = (token, addr)
    · have hnone : (rows.find? fun row => decide (row.1 = (token, addr))) = none := by
        rw [List.find?_eq_none]
        intro other hother heq
        refine hkeys.1 (List.mem_map.2 ⟨other, hother, ?_⟩)
        rw [hrow]; exact of_decide_eq_true heq
      rw [hnone, List.find?_cons_of_pos (by simpa using hrow)]
      simp only [Option.map_none, Option.map_some, rowAfter, hrow, true_and]
      cases row.2.frozen <;> exact ⟨rfl, rfl⟩
    · rw [List.find?_cons_of_neg (by simpa using hrow), if_neg fun h => hrow h.1,
        if_neg fun h => hrow h.1]
      exact ⟨rfl, rfl⟩

theorem find_toList (ledgers : Ledgers) (token addr : Address) : (ledgers.toList.find? fun row =>
    decide (row.1 = (token, addr))).map Prod.snd = ledgers[(token, addr)]? := by
  cases hledger : ledgers[(token, addr)]? with
  | none =>
    rw [Option.map_eq_none_iff, List.find?_eq_none]
    rintro ⟨key, ledger⟩ hmem heq
    have hkey : key = (token, addr) := of_decide_eq_true heq
    rw [hkey, mem_toList, hledger] at hmem; cases hmem
  | some ledger =>
    have hmem := mem_toList.2 hledger
    have hsome : (ledgers.toList.find? fun row => decide (row.1 = (token, addr))).isSome :=
      List.find?_isSome.2 ⟨_, hmem, decide_eq_true rfl⟩
    obtain ⟨⟨key, _⟩, hfound⟩ := Option.isSome_iff_exists.1 hsome
    have hkey : key = (token, addr) := by simpa using List.find?_some hfound
    have hin := List.mem_of_find?_eq_some hfound
    rw [hkey, mem_toList, hledger] at hin
    cases hin; rw [hfound]; rfl

end Writing

variable (tools processor) in
structure Holds (entries : List Entry) (stores : Stores) : Prop where
  agree : ∀ token address,
    stores.entities[balanceRow token address]? = stores.state[balanceRow token address]?
  absent : ∀ token address, processor.derives address = false ∨ touching token address entries = [] →
    stores.state[balanceRow token address]? = none
  present : ∀ token address,
    processor.derives address = true → touching token address entries ≠ [] → ∃ entity,
    stores.state[balanceRow token address]? = some (tools.balance.encode entity) ∧ entity.token =
    token ∧ entity.address = address ∧ entity.coverageFrom = processor.config.startBlock ∧
    entity.complete = (processor.config.completeFromStart && entity.incompleteFrom.isNone) ∧
    Derived address (touching token address entries) entity.balance entity.incompleteFrom

theorem Holds.empty : Holds tools processor [] ⟨∅, ∅⟩ where
  agree _ _ := rfl
  absent token address _ := by
    cases h : (⟨∅, ∅⟩ : Stores).state[balanceRow token address]? with
    | none => rfl
    | some row => exact (not_mem_empty h).elim
  present token address _ hne := absurd rfl hne

theorem Holds.decodes {ents : List Entry} (h : Holds tools processor ents stores) :
    Decodes tools stores := by
  intro token addr _ hbytes
  cases hder : processor.derives addr with
  | false =>
    rw [h.absent token addr (.inl hder)] at hbytes; cases hbytes
  | true =>
    by_cases hnone : touching token addr ents = []
    · rw [h.absent token addr (.inr hnone)] at hbytes; cases hbytes
    · obtain ⟨ent, hent, -⟩ := h.present token addr hder hnone
      rw [hent] at hbytes; cases hbytes; exact ⟨ent, tools.balance.decode_encode ent⟩

theorem storedOf_of_row {token addr : Address} {ent : TokenBalance}
    (h : stores.state[balanceRow token addr]? = some (tools.balance.encode ent)) :
    storedOf tools stores token addr = some ent := by
  unfold storedOf; simp only [h, tools.balance.decode_encode]; rfl

theorem Holds.start {ents : List Entry} (h : Holds tools processor ents stores)
    (block : Nat) : Reduced tools processor block ents stores [] ∅ where
  derived token address hder := by
    have hof : ledgerOf tools stores ∅ token address = .new (storedOf tools stores token address) := by
      cases hledger : (∅ : Ledgers)[(token, address)]? with
      | none => rfl
      | some ledger => exact (not_mem_empty hledger).elim
    rw [hof, entriesOf, List.map_nil, List.append_nil]
    by_cases hnone : touching token address ents = []
    · have hstore : storedOf tools stores token address = none := by
        unfold storedOf; rw [h.absent token address (.inr hnone)]
      rw [hstore, hnone]; exact Derived.empty
    · obtain ⟨_, hent, -, -, -, -, hderd⟩ := h.present token address hder hnone
      rw [storedOf_of_row hent]; exact hderd
  loaded token address := by simp
  frozen token address := by
    cases hledger : (∅ : Ledgers)[(token, address)]? with
    | none => rfl
    | some ledger => exact (not_mem_empty hledger).elim

theorem Derived.frozen_append {addr : Address} {ents : List Entry} {bal : Nat}
    (h : Derived addr ents bal (some block)) (later : List Entry) :
    Derived addr (ents ++ later) bal (some block) := by
  induction later generalizing ents with
  | nil => rwa [List.append_nil]
  | cons entry later ih =>
    have happend : ents ++ entry :: later = ents ++ [entry] ++ later := by simp
    rw [happend]; exact ih (h.frozen entry)

theorem Reduced.touching_nil {ents : List Entry}
    (h : Reduced tools processor block ents stores events ledgers) {token addr : Address}
    (hder : processor.derives addr = true) (hnone : (token, addr) ∉ ledgers) :
    touching token addr (entriesOf block events) = [] := by
  rw [touching, List.filter_eq_nil_iff]
  intro _ hentry htouches
  obtain ⟨event, hevent, rfl⟩ := List.mem_map.1 hentry
  exact hnone ((h.loaded token addr).2 ⟨event, hevent, (side_iff block).2 ⟨hder, htouches⟩⟩)

theorem Holds.write {ents : List Entry} (h : Holds tools processor ents stores)
    (hreduced : Reduced tools processor cursor.blockNumber ents stores events ledgers) :
    let after := (ledgers.toList.foldl (processor.writeLedger tools cursor) (stores, [])).1
    Holds tools processor (ents ++ entriesOf cursor.blockNumber events) after ∧ ∀ token addr ent,
        stores.state[balanceRow token addr]? = some (tools.balance.encode ent) →
          ent.incompleteFrom.isSome = true →
            after.state[balanceRow token addr]? = stores.state[balanceRow token addr]? := by
  have hkeys : (ledgers.toList.map Prod.fst).Nodup := by
    rw [ExtTreeMap.map_fst_toList_eq_keys]; exact ExtTreeMap.nodup_keys
  have hrow := fun token addr => @writeLedgers_row tools processor cursor (stores, [])
    ledgers.toList hkeys token addr
  simp only [find_toList] at hrow
  have hunloaded : ∀ token addr, (token, addr) ∉ ledgers →
      ledgers[(token, addr)]? = none := fun _ _ hnot => ExtTreeMap.getElem?_eq_none hnot
  have hfrozen : ∀ token addr led, ledgers[(token, addr)]? = some led →
      led.frozen = ((storedOf tools stores token addr).bind TokenBalance.incompleteFrom).isSome := by
    intro token addr led hledger; rw [← hreduced.frozen, ledgerOf, hledger]; rfl
  refine ⟨⟨fun token addr => ?_, fun token addr habsent => ?_,
    fun token addr hder htouches => ?_⟩, fun token addr ent hent hincomplete => ?_⟩
  · rw [(hrow token addr).1, (hrow token addr).2, h.agree]
  · have hnot : (token, addr) ∉ ledgers := by
      rw [hreduced.loaded]
      rintro ⟨event, hevent, hside⟩
      rcases habsent with hder | hnone
      · rw [hside.1] at hder; cases hder
      · rw [touching_append, List.append_eq_nil_iff] at hnone
        have hmem : (cursor.blockNumber, event) ∈ entriesOf cursor.blockNumber events :=
          List.mem_map.2 ⟨event, hevent, rfl⟩
        exact List.filter_eq_nil_iff.1 hnone.2 _ hmem ((side_iff cursor.blockNumber).1 hside).2
    rw [(hrow token addr).1, hunloaded token addr hnot]
    refine h.absent token addr (habsent.imp_right fun hnone => ?_)
    rw [touching_append, List.append_eq_nil_iff] at hnone; exact hnone.1
  · cases hledger : ledgers[(token, addr)]? with
    | none =>
      have hnot : (token, addr) ∉ ledgers := by
        intro hmem; rw [ExtTreeMap.getElem?_eq_some_getElem hmem] at hledger; cases hledger
      have hold := hreduced.touching_nil hder hnot
      rw [touching_append, hold, List.append_nil] at htouches ⊢
      rw [(hrow token addr).1, hledger]; exact h.present token addr hder htouches
    | some led =>
      have hof : ledgerOf tools stores ledgers token addr = led := by
        rw [ledgerOf, hledger]; rfl
      rw [(hrow token addr).1, hledger, rowAfter]
      split
      · rename_i hledgerFrozen
        rw [hfrozen token addr led hledger] at hledgerFrozen
        by_cases hnone : touching token addr ents = []
        · have hstore : storedOf tools stores token addr = none := by
            unfold storedOf; rw [h.absent token addr (.inr hnone)]
          rw [hstore] at hledgerFrozen; cases hledgerFrozen
        · obtain ⟨ent, hent, htoken, haddr, hcovg, hcompl, hderd⟩ :=
            h.present token addr hder hnone
          refine ⟨ent, hent, htoken, haddr, hcovg, hcompl, ?_⟩
          rw [storedOf_of_row hent] at hledgerFrozen
          obtain ⟨block, hblk⟩ := Option.isSome_iff_exists.1 hledgerFrozen
          have hblk : ent.incompleteFrom = some block := hblk
          rw [hblk] at hderd ⊢; rw [touching_append]; exact hderd.frozen_append _
      · refine ⟨_, rfl, rfl, rfl, rfl, rfl, ?_⟩
        have hderd := hreduced.derived token addr hder; rw [hof] at hderd; exact hderd
  · rw [(hrow token addr).1]
    cases hledger : ledgers[(token, addr)]? with
    | none => rfl
    | some led =>
      have hledgerFrozen := hfrozen token addr led hledger
      rw [storedOf_of_row hent] at hledgerFrozen
      rw [rowAfter, if_pos (hledgerFrozen.trans hincomplete)]

structure ProcessorCursor.At (cursor : ProcessorCursor) (processor : BalanceProcessor)
    (frame : ChainFrame) : Prop where
  processorId : cursor.processorId = processor.descriptor.id
  processorVersion : cursor.processorVersion = processor.descriptor.version
  chainId : cursor.chainId = frame.chainId
  blockNumber : cursor.blockNumber = frame.block.number
  blockHash : cursor.blockHash = frame.block.hash

variable (tools processor) in
def transfersOf (frame : ChainFrame) : List TransferEvent :=
  sortEvents ((frame.logs.asPresent.getD []).filterMap (processor.transferOf tools))

variable (tools processor) in
inductive Reached (entries : List Entry) (stores : Stores) : List Entry → Stores → Prop where
  | refl : Reached entries stores entries stores
  | block {before : List Entry} {between stores' : Stores} {frame : ChainFrame}
      {delta : EncodedDelta} {cursor : ProcessorCursor} {changes : List DomainChange}
      (h : Reached entries stores before between)
      (hmap : processor.map tools frame = .ok delta) (hcursor : cursor.At processor frame)
      (hreduce : processor.reduce tools cursor between delta = .ok (stores', changes)) :
      Reached entries stores
        (before ++ entriesOf frame.block.number (transfersOf tools processor frame)) stores'

variable {frame : ChainFrame} {delta : EncodedDelta}

theorem asPresent_of_acceptedLogs {mat : Filtering.Material (List Log)} {logs : List Log}
    (h : acceptedLogs mat = .ok logs) : mat.asPresent = some logs := by
  cases mat with
  | complete given => exact congrArg some (Except.ok.inj h)
  | filtered given scope completeness =>
    simp only [acceptedLogs, eq_ok] at h
    obtain ⟨-, -, rfl⟩ := h; rfl
  | missing => cases h

theorem reduce_map (hmap : processor.map tools frame = .ok delta) (hcur : cursor.At processor frame)
    (stores : Stores) : processor.reduce tools cursor stores delta =
    (foldExcept (processor.reduceEvent tools cursor stores) ∅ (transfersOf tools processor frame) >>=
    fun ledgers =>
          pure (ledgers.toList.foldl (processor.writeLedger tools cursor) (stores, []))) := by
  simp only [map, eq_ok] at hmap
  obtain ⟨-, -, logs, hlogs, rfl⟩ := hmap
  have htransfers : transfersOf tools processor frame =
      sortEvents (logs.filterMap (processor.transferOf tools)) := by
    rw [transfersOf, asPresent_of_acceptedLogs hlogs]; rfl
  have hvalid : ∀ pay, validateCursor tools processor.descriptor cursor
      (newDelta tools processor.descriptor frame.chainId frame.block pay) = .ok () := by
    intro pay
    have hchecksum : (newDelta tools processor.descriptor frame.chainId frame.block pay).checksum =
          tools.blake3 (newDelta tools processor.descriptor frame.chainId frame.block
            pay).checksumInput := rfl
    rw [validateCursor, ensure_of _ ⟨rfl, rfl, rfl, rfl⟩, ok_bind, ensure_of _ hchecksum, ok_bind,
      ensure_of _ ⟨hcur.processorId, hcur.processorVersion, hcur.chainId,
        hcur.blockNumber, hcur.blockHash⟩]
  rw [reduce, hvalid, ok_bind, htransfers]
  have hdec := tools.delta.decode_encode ⟨sortEvents (logs.filterMap (processor.transferOf tools)),
      min (logs.countP (processor.isSkipped tools)) (2 ^ 32 - 1)⟩
  simp only [newDelta, hdec]; rfl

theorem Holds.reduce {ents : List Entry} (h : Holds tools processor ents stores)
    (hmap : processor.map tools frame = .ok delta) (hcur : cursor.At processor frame) :
    (∃ failure before event after,
      processor.reduce tools cursor stores delta = .error (.state failure) ∧
        transfersOf tools processor frame = before ++ event :: after ∧
          FailsAt processor (ents ++ entriesOf frame.block.number before) event) ∨
    ∃ stores' changes, processor.reduce tools cursor stores delta = .ok (stores', changes) ∧
      Holds tools processor
        (ents ++ entriesOf frame.block.number (transfersOf tools processor frame)) stores' ∧
      ∀ token address entity,
        stores.state[balanceRow token address]? = some (tools.balance.encode entity) →
          entity.incompleteFrom.isSome = true →
            stores'.state[balanceRow token address]? = stores.state[balanceRow token address]? := by
  rw [reduce_map hmap hcur, ← hcur.blockNumber]
  rcases (h.start cursor.blockNumber).loop h.decodes (transfersOf tools processor frame) with
    ⟨failure, before, event, after, herror, hsplit, hfails⟩ | ⟨ledgers, hok, hreduced⟩
  · rw [herror]; exact .inl ⟨failure, before, event, after, rfl, hsplit, hfails⟩
  · rw [hok]
    obtain ⟨hafter, hkept⟩ := h.write hreduced; exact .inr ⟨_, _, rfl, hafter, hkept⟩

theorem Holds.reached {ents ents' : List Entry} {stores stores' : Stores}
    (h : Holds tools processor ents stores)
    (hreach : Reached tools processor ents stores ents' stores') :
    Holds tools processor ents' stores' ∧ ∀ token addr ent,
      stores.state[balanceRow token addr]? = some (tools.balance.encode ent) →
        ent.incompleteFrom.isSome = true →
          stores'.state[balanceRow token addr]? = stores.state[balanceRow token addr]? := by
  induction hreach with
  | refl => exact ⟨h, fun _ _ _ _ _ => rfl⟩
  | block _ hmap hcur hreduce ih =>
    obtain ⟨hbef, hkept⟩ := ih
    rcases hbef.reduce hmap hcur with
      ⟨failure, before, event, after, herror, -⟩ | ⟨stores', changes, hok, hafter, hkeeps⟩
    · rw [herror] at hreduce; cases hreduce
    · rw [hok] at hreduce
      cases hreduce
      refine ⟨hafter, fun token addr ent hent hincomplete => ?_⟩
      have hbetween := hkept token addr ent hent hincomplete
      rw [hkeeps token addr ent (hbetween.trans hent) hincomplete, hbetween]

variable (tools processor) in
/-- The rows of each pair hold what its canonical transfers leave up to the first that cannot be
applied, the same in the state and in the entities; a pair marked incomplete keeps its rows; and a
block's reduction fails only at a transfer that cannot be applied, of an allowlisted token that is
declared complete. -/
structure Follows (config : Config) (entries : List Entry) (stores : Stores) : Prop where
  derives : ∀ address, processor.derives address = true ↔
    address ≠ zeroAddress ∧ address ∈ config.addresses
  tokens : ∀ token, processor.tokens.contains token = true ↔ token ∈ config.tokens
  completeFromStart : processor.config.completeFromStart = config.completeFromStart
  holds : Holds tools processor entries stores
  frozen : ∀ entries' stores', Reached tools processor entries stores entries' stores' →
    ∀ token address entity, stores.state[balanceRow token address]? =
    some (tools.balance.encode entity) → entity.incompleteFrom.isSome =
    true → stores'.state[balanceRow token address]? = stores.state[balanceRow token address]? ∧
    stores'.entities[balanceRow token address]? = stores.entities[balanceRow token address]?
  fails : ∀ frame delta cursor e, processor.map tools frame =
    .ok delta → cursor.At processor frame → processor.reduce tools cursor stores delta = .error e →
    ∃ failure before event after, e = .state failure ∧ transfersOf tools processor frame = before ++
    event :: after ∧ FailsAt processor (entries ++ entriesOf frame.block.number before) event

/-- After every sequence of blocks the balances follow the transfers. -/
theorem balances_follow_transfers {config : Config} (hnew : new tools config = .ok processor)
    {entries : List Entry} (hreached : Reached tools processor [] ⟨∅, ∅⟩ entries stores) :
    Follows tools processor config entries stores := by
  have hholds := (Holds.empty.reached hreached).1
  simp only [new, eq_ok] at hnew
  obtain ⟨-, -, rfl⟩ := hnew
  refine ⟨fun address => ?_, fun token => ?_, rfl, hholds, ?_, ?_⟩
  · simp [derives]
  · simp
  · intro _ stores' hlater token address entity hentity hincomplete
    obtain ⟨hholds', hkept⟩ := hholds.reached hlater
    have hstate := hkept token address entity hentity hincomplete
    exact ⟨hstate, by rw [hholds'.agree, hholds.agree, hstate]⟩
  · intro _ _ _ _ hmap hcursor herror
    rcases hholds.reduce hmap hcursor with
      ⟨failure, before, event, after, hfails, hsplit, hat⟩ | ⟨stores', changes, hok, -⟩
    · rw [hfails] at herror; cases herror; exact ⟨failure, before, event, after, rfl, hsplit, hat⟩
    · rw [hok] at herror; cases herror

instance countableAddress : Countable Address := by
  have hvector : Function.Injective fun v : Vector UInt8 20 => v.toList.map UInt8.toNat := by
    intro v w h
    exact Vector.toList_inj.mp
      (List.map_injective_iff.mpr (fun _ _ hbyte => UInt8.toNat_inj.mp hbyte) h)
  exact hvector.countable

instance countableTransferDelta : Countable TransferDelta := by
  have hevent : Function.Injective fun e : TransferEvent =>
      (e.token, e.sender, e.recipient, e.value, e.logIndex) := by
    rintro ⟨⟩ ⟨⟩ h
    simp_all
  have : Countable TransferEvent := hevent.countable
  have hdelta : Function.Injective fun d : TransferDelta => (d.events, d.skippedLogs) := by
    rintro ⟨⟩ ⟨⟩ h
    simp_all
  exact hdelta.countable

instance countableTokenBalance : Countable TokenBalance := by
  have hbalance : Function.Injective fun b : TokenBalance =>
      (b.token, b.address, b.balance, b.asOfBlock, b.blockHash.toNat,
        (decide (b.finality = .attested), decide (b.finality = .finalized)), b.coverageFrom,
          b.complete, b.incompleteFrom, b.method.toList.map Char.toNat) := by
    rintro ⟨_, _, _, _, _, finality, _, _, _, _⟩ ⟨_, _, _, _, _, finality', _, _, _, _⟩ h
    simp only [Prod.mk.injEq] at h
    obtain ⟨rfl, rfl, rfl, rfl, hhash, hfinality, rfl, rfl, rfl, hmethod⟩ := h
    cases BitVec.eq_of_toNat_eq hhash
    cases String.toList_inj.mp
      (List.map_injective_iff.mpr (fun _ _ hchar => Char.toNat_inj.mp hchar) hmethod)
    cases finality <;> cases finality' <;> first | rfl | simp at hfinality
  exact hbalance.countable

noncomputable def mintTools : Tools where
  keccak256 _ := .replicate 32 7
  blake3 _ := 0
  encodeConfig _ := []
  delta := Codec.nonempty_of_countable.some
  balance := Codec.nonempty_of_countable.some

def mintConfig : Config := ⟨1, [.replicate 20 1], [], true⟩

def mintFrame : ChainFrame where
  chainId := 1
  block := ⟨1, 11, 0, 12⟩
  finality := .finalized
  header := .missing
  transactions := .missing
  receipts := .missing
  logs := .complete [⟨.replicate 20 3, [.replicate 32 7, .replicate 32 0,
    (Vector.replicate 12 0 : Vector UInt8 12) ++ (Vector.replicate 20 1 : Vector UInt8 20)],
    List.replicate 31 0 ++ [5], none, 0, 0⟩]
  withdrawals := .missing
  blobSidecars := .missing
  traces := .missing
  stateDiffs := .missing
  verification := ⟨.verified, .verified, .verified, .verified, .verified, .verified, none⟩

noncomputable def mintProcessor : BalanceProcessor where
  config := mintConfig
  watched := .ofList mintConfig.addresses
  tokens := .ofList mintConfig.tokens
  descriptor := ⟨"erc20-balances", "1.1.0", 0, {
    capabilities := .of .logs
    logFields := .none
    allowFiltered := true
    filter := { FilterScope.wildcard with topics := [⟨0, [.replicate 32 7]⟩] }
    minimumFinality := .unattested }, 2⟩

def mintCursor : ProcessorCursor := ⟨"erc20-balances", "1.1.0", 1, 1, 11, .finalized, 1⟩

/-- The minted balance follows the block's one transfer. -/
theorem balances_follow_transfers_mint : ∃ entries stores, entries ≠ [] ∧
    Follows mintTools mintProcessor mintConfig entries stores := by
  have hnew : new mintTools mintConfig = .ok mintProcessor := rfl
  obtain ⟨delta, hmap⟩ : ∃ delta, mintProcessor.map mintTools mintFrame = .ok delta := ⟨_, rfl⟩
  have hcursor : mintCursor.At mintProcessor mintFrame := ⟨rfl, rfl, rfl, rfl, rfl⟩
  obtain ⟨stores, changes, hreduce⟩ : ∃ stores changes,
      mintProcessor.reduce mintTools mintCursor ⟨∅, ∅⟩ delta = .ok (stores, changes) := by
    rcases Holds.empty.reduce hmap hcursor with
      ⟨_, _, event, _, _, _, -, htoken, -⟩ | ⟨stores, changes, hok, -⟩
    · simp [mintProcessor, mintConfig] at htoken
    · exact ⟨stores, changes, hok⟩
  refine ⟨_, stores, ?_, balances_follow_transfers hnew (.block .refl hmap hcursor hreduce)⟩
  have hlength : (transfersOf mintTools mintProcessor mintFrame).length = 1 := by
    rw [transfersOf, sortEvents, List.length_mergeSort]; decide +kernel
  intro hnil
  have hzero := congrArg List.length hnil; simp [entriesOf, hlength] at hzero

end Leani.Erc20
