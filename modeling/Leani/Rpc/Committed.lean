import Leani.Rpc.Decoding

/-!
# What the header commits to

Two answers with one block hash have one header, and so the same encoded receipts, and the same encoded
transactions if all are encoded again. What their frames take from the JSON beside the encodings, the
header commits to nothing of: the frames agree exactly where this JSON does (`sameMaterials_iff`).
-/

namespace Leani.Rpc.Decoding

open Library Filtering List Option Except ReceiptEnvelope TransactionEnvelope

variable {η : Type} {formats : Formats η}

structure CollisionFree (formats : Formats η) : Prop where
  hashSlow : Function.Injective formats.hashSlow
  orderedTrieRoot : Function.Injective formats.orderedTrieRoot
  receipts : ∀ (receipt receipt' : Receipt η) (json json' : Object) (withNonce withNonce' : Bool)
    (bytes : Bytes), formats.receipt json = .ok receipt → formats.receipt json' = .ok receipt' →
      receiptBytes formats receipt json withNonce = .ok bytes →
      receiptBytes formats receipt' json' withNonce' = .ok bytes → receipt = receipt'

def TransactionEnvelope.withoutSender (envelope : TransactionEnvelope η) : TransactionEnvelope η :=
  { envelope with sender := none }

variable {index : Nat}

theorem frameTransaction_eq_ok {tx : Object} {enc : Option Bytes}
    {out : TransactionEnvelope η} : frameTransaction formats tx enc index = .ok out ↔
      index ≤ u32Max ∧ ∃ fields, servedFields formats tx = .ok fields ∧
        ⟨fields, index, enc, (tx "from").asStr.bind formats.address,
          enc.map fun bytes => min bytes.length u32Max⟩ = out := by
  simp only [frameTransaction, eq_ok, exists_const]

theorem frameTransactions_same {items₁ : List (Object × Option Bytes)} :
    ∀ {items₂ : List (Object × Option Bytes)} {index : Nat} {out₁ out₂ : List (TransactionEnvelope η)},
      frameTransactions formats items₁ index = .ok out₁ →
      frameTransactions formats items₂ index = .ok out₂ →
      (out₁.map TransactionEnvelope.withoutSender = out₂.map TransactionEnvelope.withoutSender ↔
        (items₁.map fun item => servedFields formats item.1) =
            items₂.map (fun item => servedFields formats item.1) ∧
          items₁.map Prod.snd = items₂.map Prod.snd) := by
  induction items₁ with
  | nil =>
    intro items₂ index out₁ out₂ h₁ h₂
    cases h₁
    cases items₂ with
    | nil =>
      cases h₂; simp
    | cons item rest =>
      simp only [frameTransactions, eq_ok] at h₂
      obtain ⟨_, -, _, -, rfl⟩ := h₂; simp
  | cons item₁ rest₁ ih =>
    intro items₂ index out₁ out₂ h₁ h₂
    simp only [frameTransactions, eq_ok] at h₁
    obtain ⟨_, henvelope₁, _, hmore₁, rfl⟩ := h₁
    cases items₂ with
    | nil =>
      cases h₂; simp
    | cons item₂ rest₂ =>
      simp only [frameTransactions, eq_ok] at h₂
      obtain ⟨_, henvelope₂, _, hmore₂, rfl⟩ := h₂
      obtain ⟨-, _, hflds₁, rfl⟩ := frameTransaction_eq_ok.1 henvelope₁
      obtain ⟨-, _, hflds₂, rfl⟩ := frameTransaction_eq_ok.1 henvelope₂
      simp only [map_cons, cons.injEq, ih hmore₁ hmore₂, hflds₁, hflds₂, Except.ok.injEq,
        TransactionEnvelope.withoutSender, TransactionEnvelope.mk.injEq, true_and]
      constructor
      · rintro ⟨⟨hflds, hencd, -⟩, hrest, hencodings⟩; exact ⟨⟨hflds, hrest⟩, hencd, hencodings⟩
      · rintro ⟨⟨hflds, hrest⟩, hencd, hencodings⟩
        exact ⟨⟨hflds, hencd, by rw [hencd]⟩, hrest, hencodings⟩

def ReceiptEnvelope.withoutPrices (envelope : ReceiptEnvelope η) : ReceiptEnvelope η :=
  { envelope with effectiveGasPrice := none, blobGasPrice := none }

def receiptFields (formats : Formats η) (json : Object) : Except (RpcError η) (η × Option Nat) := do
  let hash ← parsed formats.hash json "transactionHash"
  let gas ← blobGas formats json
  pure (hash, gas)

def logHash (formats : Formats η) (logs : List LogData) (json : Object) :
    Option (Except (RpcError η) η) :=
  if logs = [] then none else some (parsed formats.hash json "transactionHash")

theorem frameReceipt_eq_ok {rcpt : Receipt η} {json : Object} {enc : Bytes}
    {previousGas logIdx : Nat} {out : ReceiptEnvelope η} :
    frameReceipt formats rcpt json enc index previousGas logIdx = .ok out →
      ∃ (hash : η) (price gas blobPrice : Option Nat),
        parsed formats.hash json "transactionHash" = (.ok hash : Except (RpcError η) η) ∧
        blobGas formats json = .ok gas ∧
        ⟨hash, rcpt.transactionType, index, some enc, some rcpt.status.coerce,
          some (rcpt.cumulativeGasUsed - previousGas), price, gas, blobPrice,
          frameLogs hash index rcpt.logs logIdx⟩ = out := by
  simp only [frameReceipt, eq_ok, exists_const]
  rintro ⟨-, hash, hhash, -, price, -, gas, hgas, blobPrice, -, rfl⟩
  exact ⟨hash, price, gas, blobPrice, hhash, hgas, rfl⟩

theorem length_frameLogs (hash : η) (index : Nat) (logs : List LogData) :
    ∀ logIdx, (frameLogs hash index logs logIdx).length = logs.length := by
  induction logs with
  | nil => exact fun _ => rfl
  | cons source rest ih => exact fun logIdx => congrArg Nat.succ (ih (logIdx + 1))

theorem frameLogs_same {hash₁ hash₂ : η} {logs : List LogData} {logIdx : Nat} :
    frameLogs hash₁ index logs logIdx = frameLogs hash₂ index logs logIdx ↔
      logs = [] ∨ hash₁ = hash₂ := by
  constructor
  · intro h
    cases logs with
    | nil => exact .inl rfl
    | cons source rest =>
      rw [frameLogs, frameLogs, cons.injEq, Log.mk.injEq] at h; exact .inr (some.inj h.1.2.2.2.1)
  · rintro (rfl | rfl)
    · rfl
    · rfl

variable {items₁ : List (Receipt η × Object × Bytes)}

theorem frameReceipts_same :
    ∀ {items₂ : List (Receipt η × Object × Bytes)} {index previousGas logIdx : Nat}
      {out₁ out₂ : List (ReceiptEnvelope η)},
      (items₁.map fun item => (item.1, item.2.2)) = items₂.map (fun item => (item.1, item.2.2)) →
      frameReceipts formats items₁ index previousGas logIdx = .ok out₁ →
      frameReceipts formats items₂ index previousGas logIdx = .ok out₂ →
      (out₁.map ReceiptEnvelope.withoutPrices = out₂.map ReceiptEnvelope.withoutPrices ↔
          (items₁.map fun item => receiptFields formats item.2.1) =
            items₂.map fun item => receiptFields formats item.2.1) ∧
        (out₁.flatMap ReceiptEnvelope.logs = out₂.flatMap ReceiptEnvelope.logs ↔
          (items₁.map fun item => logHash formats item.1.logs item.2.1) =
            items₂.map fun item => logHash formats item.1.logs item.2.1) := by
  induction items₁ with
  | nil =>
    intro items₂ index previousGas logIdx out₁ out₂ hsame h₁ h₂
    have hnil := map_eq_nil_iff.1 hsame.symm
    subst hnil
    cases h₁; cases h₂; simp
  | cons item₁ rest₁ ih =>
    intro items₂ index previousGas logIdx out₁ out₂ hsame h₁ h₂
    cases items₂ with
    | nil => cases hsame
    | cons item₂ rest₂ =>
      obtain ⟨rcpt, json₁, _⟩ := item₁
      obtain ⟨_, json₂, _⟩ := item₂
      simp only [map_cons, cons.injEq, Prod.mk.injEq] at hsame
      obtain ⟨⟨rfl, rfl⟩, hrest⟩ := hsame
      simp only [frameReceipts, eq_ok] at h₁ h₂
      obtain ⟨_, henvelope₁, more₁, hmore₁, rfl⟩ := h₁
      obtain ⟨_, henvelope₂, more₂, hmore₂, rfl⟩ := h₂
      obtain ⟨hash₁, _, gas₁, _, hhash₁, hgas₁, rfl⟩ := frameReceipt_eq_ok henvelope₁
      obtain ⟨hash₂, _, gas₂, _, hhash₂, hgas₂, rfl⟩ := frameReceipt_eq_ok henvelope₂
      obtain ⟨hrcpts, hlogs⟩ := ih hrest hmore₁ hmore₂
      have hflds₁ : receiptFields formats json₁ = .ok (hash₁, gas₁) := by
        rw [receiptFields, hhash₁, ok_bind, hgas₁, ok_bind]; rfl
      have hflds₂ : receiptFields formats json₂ = .ok (hash₂, gas₂) := by
        rw [receiptFields, hhash₂, ok_bind, hgas₂, ok_bind]; rfl
      constructor
      · simp only [map_cons, cons.injEq, hrcpts, hflds₁, hflds₂, Except.ok.injEq,
          Prod.mk.injEq, ReceiptEnvelope.withoutPrices, ReceiptEnvelope.mk.injEq, true_and]
        constructor
        · rintro ⟨⟨rfl, rfl, -⟩, hmore⟩; exact ⟨⟨rfl, rfl⟩, hmore⟩
        · rintro ⟨⟨rfl, rfl⟩, hmore⟩; exact ⟨⟨rfl, rfl, rfl⟩, hmore⟩
      · rw [flatMap_cons, flatMap_cons, map_cons, map_cons, cons.injEq, ← hlogs]
        have hlen : (frameLogs hash₁ index rcpt.logs logIdx).length =
            (frameLogs hash₂ index rcpt.logs logIdx).length := by
          rw [length_frameLogs, length_frameLogs]
        have happend : frameLogs hash₁ index rcpt.logs logIdx ++ more₁.flatMap ReceiptEnvelope.logs =
            frameLogs hash₂ index rcpt.logs logIdx ++ more₂.flatMap ReceiptEnvelope.logs ↔
              frameLogs hash₁ index rcpt.logs logIdx = frameLogs hash₂ index rcpt.logs logIdx ∧
                more₁.flatMap ReceiptEnvelope.logs = more₂.flatMap ReceiptEnvelope.logs :=
          ⟨fun h => append_inj h hlen, fun h => by rw [h.1, h.2]⟩
        rw [happend, frameLogs_same, logHash, logHash, hhash₁, hhash₂]
        by_cases hlogs : rcpt.logs = []
        · simp [hlogs]
        · simp [hlogs]

def encoding (formats : Formats η) (tx : Object) : Except (RpcError η) (Option Bytes) :=
  Prod.snd <$> encodeTransaction formats tx

def Reencodes (formats : Formats η) (tx : Object) : Prop := ∃ bytes, encoding formats tx = .ok (some bytes)

def Block.objects (block : Block) : Option (List Object) := block.transactions.bind Decoding.objects

def Block.count (block : Block) : Nat := min (block.objects.elim 0 List.length) u32Max

structure Answered (formats : Formats η) (block : Block) (receipts : Receipts)
    (decoded : DecodedBlock η) : Prop where
  size : servedSize formats block = .ok decoded.sizeBytes
  header : formats.hashSlow decoded.header = decoded.hash
  objects : block.objects = decoded.transactions.map (List.map Prod.fst)
  encodings : ∀ items, decoded.transactions = some items →
    ∀ item ∈ items, encoding formats item.1 = .ok item.2
  transactionsRoot : ∀ items, decoded.transactions = some items → (∀ item ∈ items, item.2.isSome) →
    formats.orderedTrieRoot (items.map fun item => item.2.getD []) = decoded.header.transactionsRoot
  listed : ∀ items, receipts = .list items ↔ ∃ decodedItems, decoded.receipts = some decodedItems ∧
    decodedItems.map (fun item => item.2.1) = items
  receiptsRoot : ∀ items, decoded.receipts = some items →
    (∀ item ∈ items, formats.receipt item.2.1 = .ok item.1) ∧
      (∃ withNonces, ∀ item ∈ items, receiptBytes formats item.1 item.2.1 withNonces = .ok item.2.2) ∧
      formats.orderedTrieRoot (items.map fun item => item.2.2) = decoded.header.receiptsRoot

variable {α : Type}

theorem zip_of_mapM_eq_ok {β γ : Type} {f : α → Except (RpcError η) β} {g : β → γ} {as : List α} :
    ∀ {bs : List β}, as.mapM f = .ok bs → (as.zip (bs.map g)).map Prod.fst = as ∧
      (as.zip (bs.map g)).map Prod.snd = bs.map g ∧
      ∀ pair ∈ as.zip (bs.map g), ∃ b, f pair.1 = .ok b ∧ g b = pair.2 := by
  induction as with
  | nil =>
    intro bs h; cases h; simp
  | cons a as ih =>
    intro bs h
    obtain ⟨b, _, hb, hbs, rfl⟩ := mapM_cons_eq_ok.1 h
    obtain ⟨hfst, hsnd, hpairs⟩ := ih hbs
    rw [map_cons, zip_cons_cons, map_cons, map_cons, hfst, hsnd]
    refine ⟨rfl, rfl, fun pair hpair => ?_⟩
    rcases mem_cons.1 hpair with rfl | hpair
    · exact ⟨b, hb, rfl⟩
    · exact hpairs pair hpair

variable {header : Header η} {root : Check}

theorem decodeTransactions_spec [DecidableEq η] {served : List (Option Object)}
    {transactions : Option (List (Object × Option Bytes))}
    (h : decodeTransactions formats header served = .ok (transactions, root)) (hroot : root ≠ .mismatch) :
    objects served = transactions.map (map Prod.fst) ∧
      (∀ items, transactions = some items → ∀ item ∈ items, encoding formats item.1 = .ok item.2) ∧
      ∀ items, transactions = some items → (∀ item ∈ items, item.2.isSome) →
        formats.orderedTrieRoot (items.map fun item => item.2.getD []) = header.transactionsRoot := by
  unfold decodeTransactions at h
  split at h
  · rename_i txs hobjects
    simp only [eq_ok, Prod.mk.injEq] at h
    obtain ⟨enc, hencd, rfl, rfl⟩ := h
    obtain ⟨hfst, hsnd, hpairs⟩ := zip_of_mapM_eq_ok (g := Prod.snd) hencd
    refine ⟨by rw [hobjects, map_some, hfst], ?_, ?_⟩
    · rintro items ⟨⟩ item hitem
      obtain ⟨b, hb, hbytes⟩ := hpairs item hitem; exact map_eq_ok.2 ⟨b, hb, hbytes⟩
    · rintro items ⟨⟩ hsome
      have hencodings : enc.find? (fun tx => tx.2.isNone) = none := by
        rw [find?_eq_none]
        intro b hb _
        have hmem : b.2 ∈ (txs.zip (enc.map Prod.snd)).map Prod.snd := by
          rw [hsnd]; exact mem_map_of_mem hb
        obtain ⟨item, hitem, hsame⟩ := mem_map.1 hmem
        have := hsome item hitem
        rw [hsame] at this
        simp_all
      rw [checkTransactions, hencodings] at hroot
      have hbytes : ((txs.zip (enc.map Prod.snd)).map fun item => item.2.getD []) =
          enc.map fun tx => tx.2.getD [] := by
        have := congrArg (List.map fun bytes : Option Bytes => bytes.getD []) hsnd
        rwa [List.map_map, List.map_map] at this
      rw [hbytes]
      by_contra hne
      exact hroot (if_neg hne)
  · rename_i hobjects; cases h; exact ⟨hobjects, by simp, by simp⟩

theorem receiptsEncoded_eq_ok [DecidableEq η] {rcpts : List (Receipt η × Object)}
    {enc : List Bytes} (h : receiptsEncoded formats header rcpts = .ok enc) :
    ∃ withNonces, encodeReceipts formats rcpts withNonces = .ok enc := by
  rw [receiptsEncoded, bind_eq_ok] at h
  obtain ⟨_, hfull, h⟩ := h
  split at h
  · obtain ⟨_, hstripped, h⟩ := bind_eq_ok.1 h
    rw [pure_eq_ok] at h
    split at h
    · exact ⟨false, h ▸ hstripped⟩
    · exact ⟨true, h ▸ hfull⟩
  · rw [pure_eq_ok] at h; exact ⟨true, h ▸ hfull⟩

theorem decodeReceipt_mapM {items : List Object} :
    ∀ {rcpts : List (Receipt η × Object)}, items.mapM (decodeReceipt formats) = .ok rcpts →
      rcpts.map Prod.snd = items ∧ ∀ rcpt ∈ rcpts, formats.receipt rcpt.2 = .ok rcpt.1 := by
  induction items with
  | nil =>
    intro rcpts h; cases h; simp
  | cons json rest ih =>
    intro rcpts h
    obtain ⟨rcpt, _, hrcpt, hmore, rfl⟩ := mapM_cons_eq_ok.1 h
    obtain ⟨hjson, hrest⟩ := ih hmore
    rw [decodeReceipt] at hrcpt
    split at hrcpt
    · rename_i dec hdecd
      cases hrcpt; rw [map_cons, hjson]; exact ⟨rfl, forall_mem_cons.2 ⟨hdecd, hrest⟩⟩
    · cases hrcpt

theorem zipWith_encodeReceipts {withNonces : Bool} {rcpts : List (Receipt η × Object)} :
    ∀ {enc : List Bytes}, encodeReceipts formats rcpts withNonces = .ok enc →
      let items := rcpts.zipWith (fun rcpt bytes => (rcpt.1, rcpt.2, bytes)) enc
      (items.map fun item => (item.1, item.2.1)) = rcpts ∧ (items.map fun item => item.2.2) =
        enc ∧ ∀ item ∈ items, receiptBytes formats item.1 item.2.1 withNonces = .ok item.2.2 := by
  induction rcpts with
  | nil =>
    intro enc h; cases h; simp
  | cons rcpt rest ih =>
    intro enc h
    obtain ⟨bytes, _, hbytes, hmore, rfl⟩ := mapM_cons_eq_ok.1 h
    obtain ⟨hrcpts, hencd, hitems⟩ := ih hmore
    dsimp only
    rw [zipWith_cons_cons, map_cons, map_cons, hrcpts, hencd]
    exact ⟨rfl, rfl, forall_mem_cons.2 ⟨hbytes, hitems⟩⟩

variable {receipts : Receipts}

theorem decodeReceipts_spec [DecidableEq η] {count : Nat}
    {dec : Option (List (Receipt η × Object × Bytes))}
    (h : decodeReceipts formats header count receipts = .ok (dec, root)) (hroot : root ≠ .mismatch) :
    (∀ items, receipts = .list items ↔ ∃ decodedItems, dec = some decodedItems ∧
        decodedItems.map (fun item => item.2.1) = items) ∧
      ∀ items, dec = some items → (∀ item ∈ items, formats.receipt item.2.1 = .ok item.1) ∧
          (∃ withNonces, ∀ item ∈ items,
            receiptBytes formats item.1 item.2.1 withNonces = .ok item.2.2) ∧
          formats.orderedTrieRoot (items.map fun item => item.2.2) = header.receiptsRoot := by
  cases receipts with
  | null =>
    cases h; exact ⟨fun items => ⟨nofun, nofun⟩, nofun⟩
  | other => cases h
  | list items =>
    simp only [decodeReceipts, eq_ok, Prod.mk.injEq] at h
    obtain ⟨list, hlist, encoded, hencd, rfl, rfl⟩ := h
    obtain ⟨hjson, hrcpts⟩ := decodeReceipt_mapM hlist
    obtain ⟨withNonces, hbytes⟩ := receiptsEncoded_eq_ok hencd
    obtain ⟨hpairs, hencodings, hitems⟩ := zipWith_encodeReceipts hbytes
    set zipped := list.zipWith (fun rcpt bytes => (rcpt.1, rcpt.2, bytes)) encoded with hzipped
    have hjsons : (zipped.map fun item => item.2.1) = items := by
      have := congrArg (List.map Prod.snd) hpairs; rwa [List.map_map, hjson] at this
    refine ⟨fun items' => ?_, ?_⟩
    · constructor
      · rintro ⟨⟩; exact ⟨zipped, rfl, hjsons⟩
      · rintro ⟨decodedItems, ⟨⟩, rfl⟩; rw [hjsons]
    · rintro items' ⟨⟩
      refine ⟨fun item hitem => ?_, ⟨withNonces, hitems⟩, ?_⟩
      · have hmem : (item.1, item.2.1) ∈ list := by
          rw [← hpairs]; exact mem_map_of_mem (f := fun item => (item.1, item.2.1)) hitem
        exact hrcpts _ hmem
      · rw [hencodings]
        by_contra hne
        exact hroot (if_neg fun hall => hne hall.2.2)

variable {block : Block}

theorem answered_of_ok [DecidableEq η] {dec : DecodedBlock η}
    (h : decodeBlock formats block receipts = .ok dec) (hheader : dec.check.header = .verified)
    (hrcpts : dec.check.receiptsRoot ≠ .mismatch) (htxs : dec.check.transactionsRoot ≠ .mismatch) :
    Answered formats block receipts dec := by
  simp only [decodeBlock, eq_ok] at h
  obtain ⟨hdr, -, _, -, _, hserv, ⟨_, _⟩, hdecd, ⟨_, _⟩, hlist, _, hsize, rfl⟩ := h
  obtain ⟨hobjects, hencodings, hroot⟩ := decodeTransactions_spec hdecd htxs
  obtain ⟨hlisted, hreceiptsRoot⟩ := decodeReceipts_spec hlist hrcpts
  refine ⟨hsize, ?_, ?_, hencodings, hroot, hlisted, hreceiptsRoot⟩
  · by_contra hne
    rw [check, if_neg hne] at hheader; cases hheader
  · rw [Block.objects, hserv]; exact hobjects

structure SameMaterials (frame₁ frame₂ : Frame η) : Prop where
  header : ∀ header₁ header₂, frame₁.header = .complete header₁ → frame₂.header = .complete header₂ →
    header₁ = header₂
  transactions : ∀ list₁ list₂, frame₁.transactions = .complete list₁ →
    frame₂.transactions = .complete list₂ →
      list₁.map TransactionEnvelope.withoutSender = list₂.map TransactionEnvelope.withoutSender
  receipts : ∀ list₁ list₂, frame₁.receipts = .complete list₁ → frame₂.receipts = .complete list₂ →
    list₁.map ReceiptEnvelope.withoutPrices = list₂.map ReceiptEnvelope.withoutPrices
  logs : ∀ list₁ list₂, frame₁.logs = .complete list₁ → frame₂.logs = .complete list₂ → list₁ = list₂
  withdrawals : ∀ list₁ list₂, frame₁.withdrawals = .complete list₁ →
    frame₂.withdrawals = .complete list₂ → list₁ = list₂

def servedLogs (formats : Formats η) (json : Object) : List LogData :=
  match formats.receipt json with
  | .ok receipt => receipt.logs
  | .error _ => []

structure SameBeside (formats : Formats η) (request : Option CapabilitySet) (block₁ block₂ : Block)
    (receipts₁ receipts₂ : Receipts) : Prop where
  header : requested request .header = true →
    servedSize formats block₁ = servedSize formats block₂ ∧ block₁.count = block₂.count
  transactions : requested request .transactions = true → ∀ txs₁ txs₂,
    block₁.objects = some txs₁ → block₂.objects = some txs₂ → txs₁.map (servedFields formats) =
    txs₂.map (servedFields formats) ∧ ((∀ tx ∈ txs₁ ++ txs₂, Reencodes formats tx) ∨
    txs₁.map (encoding formats) = txs₂.map (encoding formats))
  receipts : requested request .receipts = true → ∀ items₁ items₂, receipts₁ = .list items₁ →
    receipts₂ = .list items₂ → items₁.map (receiptFields formats) = items₂.map (receiptFields formats)
  logs : requested request .logs = true → ∀ items₁ items₂, receipts₁ = .list items₁ → receipts₂ =
    .list items₂ → (items₁.map fun json => logHash formats (servedLogs formats json) json) =
    items₂.map fun json => logHash formats (servedLogs formats json) json

theorem agree_material {x y : α} {p q : Bool} {r : α → α → Prop} : (∀ a b, material x p =
    .complete a → material y q = .complete b → r a b) ↔ (p = true → q = true → r x y) := by
  constructor
  · intro h hp hq; exact h x y (by rw [material, if_pos hp]) (by rw [material, if_pos hq])
  · intro h a b ha hb
    rw [material] at ha hb
    split at ha
    · split at hb
      · rename_i hp hq
        cases ha; cases hb; exact h hp hq
      · cases hb
    · cases ha

variable {request : Option CapabilitySet}

theorem frameOf_eq_ok [DecidableEq η]
    {out : Frame η} (h : frameOf formats block receipts request = .ok out) :
    ∃ dec transactions list, Answered formats block receipts dec ∧
      frameTransactions formats (dec.transactions.getD []) 0 = .ok transactions ∧
      frameReceipts formats (dec.receipts.getD []) 0 0 0 = .ok list ∧ out.block.hash = dec.hash ∧
      out.header = material (headerEnvelope formats dec.header dec.sizeBytes
        (dec.transactions.elim transactions.length length)) (requested request .header) ∧
      out.transactions = material transactions
        (requested request .transactions && dec.transactions.isSome) ∧
      out.receipts = material list (requested request .receipts && dec.receipts.isSome) ∧
      out.logs = material (list.flatMap ReceiptEnvelope.logs)
        (requested request .logs && dec.receipts.isSome) ∧
      out.withdrawals = material [] (requested request .withdrawals) := by
  simp only [frameOf, frame, eq_ok] at h
  obtain ⟨dec, hdecd, _, ⟨hheader, hrcpts, htxs⟩, transactions, hframed, list, hlist,
    rfl⟩ := h
  exact ⟨dec, transactions, list, answered_of_ok hdecd hheader hrcpts htxs, hframed,
    hlist, rfl, rfl, rfl, rfl, rfl, rfl⟩

theorem Answered.count {dec : DecodedBlock η}
    (h : Answered formats block receipts dec) {txs : List (TransactionEnvelope η)}
    (hframed : frameTransactions formats (dec.transactions.getD []) 0 = .ok txs) :
    min (dec.transactions.elim txs.length length) u32Max = block.count := by
  rw [Block.count, h.objects]
  cases htxs : dec.transactions with
  | none =>
    rw [htxs] at hframed; cases hframed; rfl
  | some items =>
    rw [map_some, elim_some, elim_some, length_map]

theorem headerEnvelope_same {size₁ size₂ : Option Nat} {count₁ count₂ : Nat} :
    headerEnvelope formats header size₁ count₁ = headerEnvelope formats header size₂ count₂ ↔
      size₁ = size₂ ∧ min count₁ u32Max = min count₂ u32Max := by
  simp only [headerEnvelope, HeaderEnvelope.mk.injEq, some.injEq, true_and]

variable {items : List (Object × Option Bytes)}

theorem map_snd_eq (h : ∀ item ∈ items, item.2.isSome) :
    items.map Prod.snd = (items.map fun item => item.2.getD []).map some := by
  rw [List.map_map]
  refine List.map_congr_left fun item hitem => ?_
  obtain ⟨_, hbytes⟩ := isSome_iff_exists.1 (h item hitem)
  rw [Function.comp_apply, hbytes, getD_some]

theorem Answered.encodings_same (hfree : CollisionFree formats)
    {block₁ block₂ : Block} {receipts₁ receipts₂ : Receipts} {decoded₁ decoded₂ : DecodedBlock η}
    (h₁ : Answered formats block₁ receipts₁ decoded₁) (h₂ : Answered formats block₂ receipts₂ decoded₂)
    (hheader₁ : decoded₁.header = header) (hheader₂ : decoded₂.header = header)
    {items₁ items₂ : List (Object × Option Bytes)} (hitems₁ : decoded₁.transactions = some items₁)
    (hitems₂ : decoded₂.transactions = some items₂)
    (hall : ∀ tx ∈ items₁.map Prod.fst ++ items₂.map Prod.fst, Reencodes formats tx) :
    items₁.map Prod.snd = items₂.map Prod.snd := by
  have hsome₁ (item : Object × Option Bytes) (hitem : item ∈ items₁) : item.2.isSome := by
    obtain ⟨bytes, hbytes⟩ := hall item.1 (mem_append_left _ (mem_map_of_mem hitem))
    rw [h₁.encodings items₁ hitems₁ item hitem] at hbytes; rw [ok.inj hbytes]; rfl
  have hsome₂ (item : Object × Option Bytes) (hitem : item ∈ items₂) : item.2.isSome := by
    obtain ⟨bytes, hbytes⟩ := hall item.1 (mem_append_right _ (mem_map_of_mem hitem))
    rw [h₂.encodings items₂ hitems₂ item hitem] at hbytes; rw [ok.inj hbytes]; rfl
  have hroot₁ := h₁.transactionsRoot items₁ hitems₁ hsome₁
  have hroot₂ := h₂.transactionsRoot items₂ hitems₂ hsome₂
  rw [hheader₁] at hroot₁
  rw [hheader₂] at hroot₂
  have hbytes := hfree.orderedTrieRoot (hroot₁.trans hroot₂.symm)
  rw [map_snd_eq hsome₁, map_snd_eq hsome₂, hbytes]

theorem same_of_encodings (hfree : CollisionFree formats) {withNonces₁ withNonces₂ : Bool}
 : ∀ {items₂ : List (Receipt η × Object × Bytes)},
      (∀ item ∈ items₁, formats.receipt item.2.1 = .ok item.1) →
      (∀ item ∈ items₂, formats.receipt item.2.1 = .ok item.1) →
      (∀ item ∈ items₁, receiptBytes formats item.1 item.2.1 withNonces₁ = .ok item.2.2) →
      (∀ item ∈ items₂, receiptBytes formats item.1 item.2.1 withNonces₂ = .ok item.2.2) →
      (items₁.map fun item => item.2.2) = items₂.map (fun item => item.2.2) →
      (items₁.map fun item => (item.1, item.2.2)) = items₂.map fun item => (item.1, item.2.2) := by
  induction items₁ with
  | nil =>
    intro items₂ _ _ _ _ hsame; rw [map_eq_nil_iff.1 hsame.symm]
  | cons item₁ rest₁ ih =>
    intro items₂ hparsed₁ hparsed₂ h₁ h₂ hsame
    cases items₂ with
    | nil => cases hsame
    | cons item₂ rest₂ =>
      obtain ⟨hrcpt₁, hrcpts₁⟩ := forall_mem_cons.1 hparsed₁
      obtain ⟨hrcpt₂, hrcpts₂⟩ := forall_mem_cons.1 hparsed₂
      obtain ⟨hitem₁, hrest₁⟩ := forall_mem_cons.1 h₁
      obtain ⟨hitem₂, hrest₂⟩ := forall_mem_cons.1 h₂
      rw [map_cons, map_cons, cons.injEq] at hsame
      rw [← hsame.1] at hitem₂
      have hrcpt := hfree.receipts _ _ _ _ _ _ _ hrcpt₁ hrcpt₂ hitem₁ hitem₂
      rw [map_cons, map_cons, ih hrcpts₁ hrcpts₂ hrest₁ hrest₂ hsame.2, hrcpt, hsame.1]

theorem Answered.receipts_same (hfree : CollisionFree formats)
    {block₁ block₂ : Block} {receipts₁ receipts₂ : Receipts} {decoded₁ decoded₂ : DecodedBlock η}
    (h₁ : Answered formats block₁ receipts₁ decoded₁) (h₂ : Answered formats block₂ receipts₂ decoded₂)
    (hheader₁ : decoded₁.header = header) (hheader₂ : decoded₂.header = header)
    {items₂ : List (Receipt η × Object × Bytes)} (hitems₁ : decoded₁.receipts = some items₁)
    (hitems₂ : decoded₂.receipts = some items₂) :
    (items₁.map fun item => (item.1, item.2.2)) = items₂.map fun item => (item.1, item.2.2) := by
  obtain ⟨hparsed₁, ⟨_, hbytes₁⟩, hroot₁⟩ := h₁.receiptsRoot items₁ hitems₁
  obtain ⟨hparsed₂, ⟨_, hbytes₂⟩, hroot₂⟩ := h₂.receiptsRoot items₂ hitems₂
  rw [hheader₁] at hroot₁
  rw [hheader₂] at hroot₂
  exact same_of_encodings hfree hparsed₁ hparsed₂ hbytes₁ hbytes₂
    (hfree.orderedTrieRoot (hroot₁.trans hroot₂.symm))

theorem map_encoding (h : ∀ item ∈ items, encoding formats item.1 = .ok item.2) :
    (items.map Prod.fst).map (encoding formats) = (items.map Prod.snd).map .ok := by
  rw [List.map_map, List.map_map]; exact List.map_congr_left h

section Pair

variable {block₁ block₂ : Block} {receipts₁ receipts₂ : Receipts} {decoded₁ decoded₂ : DecodedBlock η}
  {wanted : Bool}

variable {transactions₁ transactions₂ : List (TransactionEnvelope η)}

theorem Answered.header_iff (h₁ : Answered formats block₁ receipts₁ decoded₁)
    (h₂ : Answered formats block₂ receipts₂ decoded₂) (hheader : decoded₁.header = decoded₂.header)
    (hframed₁ : frameTransactions formats (decoded₁.transactions.getD []) 0 = .ok transactions₁)
    (hframed₂ : frameTransactions formats (decoded₂.transactions.getD []) 0 = .ok transactions₂) :
    (wanted = true → wanted = true → headerEnvelope formats decoded₁.header decoded₁.sizeBytes
          (decoded₁.transactions.elim transactions₁.length length) =
        headerEnvelope formats decoded₂.header decoded₂.sizeBytes
          (decoded₂.transactions.elim transactions₂.length length)) ↔ (wanted = true →
        servedSize formats block₁ = servedSize formats block₂ ∧ block₁.count = block₂.count) := by
  rw [hheader, headerEnvelope_same, h₁.count hframed₁, h₂.count hframed₂, h₁.size, h₂.size, ok.injEq]
  exact ⟨fun h hwanted => h hwanted hwanted, fun h hwanted _ => h hwanted⟩

theorem Answered.transactions_iff (hfree : CollisionFree formats)
    (h₁ : Answered formats block₁ receipts₁ decoded₁)
    (h₂ : Answered formats block₂ receipts₂ decoded₂) (hheader : decoded₁.header = decoded₂.header)
    (hframed₁ : frameTransactions formats (decoded₁.transactions.getD []) 0 = .ok transactions₁)
    (hframed₂ : frameTransactions formats (decoded₂.transactions.getD []) 0 = .ok transactions₂) :
    ((wanted && decoded₁.transactions.isSome) = true → (wanted && decoded₂.transactions.isSome) = true →
      transactions₁.map withoutSender = transactions₂.map withoutSender) ↔
      (wanted = true → ∀ txs₁ txs₂, block₁.objects = some txs₁ → block₂.objects = some txs₂ →
        txs₁.map (servedFields formats) = txs₂.map (servedFields formats) ∧
          ((∀ tx ∈ txs₁ ++ txs₂, Reencodes formats tx) ∨
            txs₁.map (encoding formats) = txs₂.map (encoding formats))) := by
  rw [h₁.objects, h₂.objects]
  cases hitems₁ : decoded₁.transactions with
  | none => exact ⟨fun _ _ _ _ h => (nomatch h), fun _ h => by simp at h⟩
  | some items₁ =>
    cases hitems₂ : decoded₂.transactions with
    | none => exact ⟨fun _ _ _ _ _ h => (nomatch h), fun _ _ h => by simp at h⟩
    | some items₂ =>
      rw [hitems₁, getD_some] at hframed₁
      rw [hitems₂, getD_some] at hframed₂
      rw [frameTransactions_same hframed₁ hframed₂]
      have hencodings₁ := map_encoding (h₁.encodings items₁ hitems₁)
      have hencodings₂ := map_encoding (h₂.encodings items₂ hitems₂)
      simp only [isSome_some, Bool.and_true, map_some, some.injEq]
      constructor
      · rintro h hwanted _ _ rfl rfl
        obtain ⟨hflds, hencd⟩ := h hwanted hwanted
        rw [List.map_map, List.map_map, hencodings₁, hencodings₂, hencd]; exact ⟨hflds, .inr rfl⟩
      · intro h hwanted _
        obtain ⟨hflds, hencd⟩ := h hwanted _ _ rfl rfl
        rw [List.map_map, List.map_map] at hflds
        refine ⟨hflds, ?_⟩
        rcases hencd with hall | hencd
        · exact h₁.encodings_same hfree h₂ hheader rfl hitems₁ hitems₂ hall
        · rw [hencodings₁, hencodings₂] at hencd
          exact map_injective_iff.2 (fun _ _ => ok.inj) hencd

theorem Answered.listed_iff (h₁ : Answered formats block₁ receipts₁ decoded₁)
    (h₂ : Answered formats block₂ receipts₂ decoded₂) {p : Prop} {q : List Object → List Object → Prop}
    (hpq : ∀ items₁ items₂, decoded₁.receipts = some items₁ → decoded₂.receipts = some items₂ →
      (p ↔ q (items₁.map fun item => item.2.1) (items₂.map fun item => item.2.1))) :
    ((wanted && decoded₁.receipts.isSome) = true → (wanted && decoded₂.receipts.isSome) = true → p) ↔
      (wanted = true → ∀ items₁ items₂, receipts₁ = .list items₁ → receipts₂ = .list items₂ →
        q items₁ items₂) := by
  constructor
  · intro h hwanted _ _ hrcpts₁ hrcpts₂
    obtain ⟨items₁, hitems₁, rfl⟩ := (h₁.listed _).1 hrcpts₁
    obtain ⟨items₂, hitems₂, rfl⟩ := (h₂.listed _).1 hrcpts₂
    exact (hpq items₁ items₂ hitems₁ hitems₂).1 (h (by simp [hwanted, hitems₁]) (by simp [hwanted, hitems₂]))
  · intro h hsome₁ hsome₂
    rw [Bool.and_eq_true, isSome_iff_exists] at hsome₁ hsome₂
    obtain ⟨hwanted, items₁, hitems₁⟩ := hsome₁
    obtain ⟨-, items₂, hitems₂⟩ := hsome₂
    exact (hpq items₁ items₂ hitems₁ hitems₂).2 (h hwanted _ _ ((h₁.listed _).2 ⟨items₁, hitems₁, rfl⟩)
      ((h₂.listed _).2 ⟨items₂, hitems₂, rfl⟩))

theorem map_logHash {items : List (Receipt η × Object × Bytes)}
    (h : ∀ item ∈ items, formats.receipt item.2.1 = .ok item.1) :
    (items.map fun item => logHash formats item.1.logs item.2.1) =
      items.map ((fun json => logHash formats (servedLogs formats json) json) ∘ fun item => item.2.1) := by
  refine map_congr_left fun item hitem => ?_
  rw [Function.comp_apply, servedLogs, h item hitem]

section

variable {list₁ list₂ : List (ReceiptEnvelope η)} (hfree : CollisionFree formats)
  (h₁ : Answered formats block₁ receipts₁ decoded₁)
  (h₂ : Answered formats block₂ receipts₂ decoded₂) (hheader : decoded₁.header = decoded₂.header)
  (hlist₁ : frameReceipts formats (decoded₁.receipts.getD []) 0 0 0 = .ok list₁)
  (hlist₂ : frameReceipts formats (decoded₂.receipts.getD []) 0 0 0 = .ok list₂)

include hfree h₁ h₂ hheader hlist₁ hlist₂

theorem Answered.receipts_iff :
    ((wanted && decoded₁.receipts.isSome) = true → (wanted && decoded₂.receipts.isSome) = true →
      list₁.map ReceiptEnvelope.withoutPrices = list₂.map ReceiptEnvelope.withoutPrices) ↔
      (wanted = true → ∀ items₁ items₂, receipts₁ = .list items₁ → receipts₂ = .list items₂ →
        items₁.map (receiptFields formats) = items₂.map (receiptFields formats)) := by
  refine h₁.listed_iff h₂ fun items₁ items₂ hitems₁ hitems₂ => ?_
  rw [hitems₁] at hlist₁
  rw [hitems₂] at hlist₂
  rw [(frameReceipts_same (h₁.receipts_same hfree h₂ hheader rfl hitems₁ hitems₂) hlist₁ hlist₂).1,
    List.map_map, List.map_map]
  rfl

theorem Answered.logs_iff :
    ((wanted && decoded₁.receipts.isSome) = true → (wanted && decoded₂.receipts.isSome) = true →
      list₁.flatMap ReceiptEnvelope.logs = list₂.flatMap ReceiptEnvelope.logs) ↔
      (wanted = true → ∀ items₁ items₂, receipts₁ = .list items₁ → receipts₂ = .list items₂ →
        (items₁.map fun json => logHash formats (servedLogs formats json) json) =
          items₂.map fun json => logHash formats (servedLogs formats json) json) := by
  refine h₁.listed_iff h₂ fun items₁ items₂ hitems₁ hitems₂ => ?_
  rw [hitems₁] at hlist₁
  rw [hitems₂] at hlist₂
  rw [(frameReceipts_same (h₁.receipts_same hfree h₂ hheader rfl hitems₁ hitems₂) hlist₁ hlist₂).2,
    List.map_map, List.map_map, map_logHash (h₁.receiptsRoot items₁ hitems₁).1,
    map_logHash (h₂.receiptsRoot items₂ hitems₂).1]

end

end Pair

def sized (lists : List (List Nat)) : List Nat := lists.flatMap fun list => list.length :: list

theorem sized_injective : Function.Injective sized := by
  intro lists
  induction lists with
  | nil =>
    rintro (_ | ⟨list, rest⟩) h
    · rfl
    · cases h
  | cons list rest ih =>
    rintro (_ | ⟨_, _⟩) h
    · cases h
    · rw [sized, sized, flatMap_cons, flatMap_cons, cons_append, cons_append, cons.injEq] at h
      obtain ⟨rfl, hrest⟩ := append_inj h.2 h.1; rw [ih hrest]

def listingRoot (encoded : List Bytes) : List Nat := sized (encoded.map (List.map UInt8.toNat))

theorem listingRoot_injective : Function.Injective listingRoot := by
  have hbytes : Function.Injective UInt8.toNat := fun _ _ => UInt8.toNat_inj.1
  exact sized_injective.comp (map_injective_iff.2 (map_injective_iff.2 hbytes))

def listingHash (header : Header (List Nat)) : List Nat :=
  sized [[header.number], header.parentHash, [header.timestamp], header.transactionsRoot,
    header.receiptsRoot, sized header.withdrawalsRoot.toList, [header.gasLimit], [header.gasUsed],
    header.baseFeePerGas.toList, header.blobGasUsed.toList, header.excessBlobGas.toList,
    header.rest.map UInt8.toNat]

theorem toList_injective : Function.Injective (toList (α := α)) := by
  rintro (_ | _) (_ | _) h
  · rfl
  · cases h
  · cases h
  · rw [cons.inj h |>.1]

theorem listingHash_injective : Function.Injective listingHash := by
  have hbytes : Function.Injective UInt8.toNat := fun _ _ => UInt8.toNat_inj.1
  rintro ⟨⟩ ⟨⟩ h
  have h := sized_injective h
  simp only [cons.injEq, and_true, toList_injective.eq_iff, sized_injective.eq_iff,
    (map_injective_iff.2 hbytes).eq_iff] at h
  simpa only [Header.mk.injEq] using h

def plainTransaction : Bytes :=
  [0x02, 0xcc, 0x01, 0x80, 0x80, 0x80, 0x80, 0x80, 0x80, 0x80, 0xc0, 0x80, 0x80, 0x80]

def plainReceipt : Receipt (List Nat) := ⟨0x02, .success true, 21000, [], List.replicate 256 0⟩

def plainReceiptBytes : Bytes :=
  [0x02, 0xf9, 0x01, 0x08, 0x01, 0x82, 0x52, 0x08, 0xb9, 0x01, 0x00] ++ List.replicate 256 0 ++ [0xc0]

def plainHeader : Header (List Nat) :=
  ⟨1, [], 12, listingRoot [plainTransaction], listingRoot [plainReceiptBytes], none, 30000, 21000, none,
    none, none, []⟩

def plainFormats : Formats (List Nat) where
  u256 text := if text = "0x2" then some 2 else none
  hash text := if text = "block" then some (listingHash plainHeader) else some (text.toList.map Char.toNat)
  address _ := none
  bytes text := if text = "0x" then some [] else none
  header _ := .ok plainHeader
  headerRlp _ := []
  hashSlow := listingHash
  transaction _ := some plainTransaction
  receipt _ := .ok plainReceipt
  encoded2718 _ := plainReceiptBytes
  bloomSlow _ := List.replicate 256 0
  typedRlp _ _ := []
  orderedTrieRoot := listingRoot

theorem collisionFree_plainFormats : CollisionFree plainFormats where
  hashSlow := listingHash_injective
  orderedTrieRoot := listingRoot_injective
  receipts _ _ _ _ _ _ _ hrcpt hrcpt' _ _ :=
    (ok.inj hrcpt).symm.trans (ok.inj hrcpt')

def servedTransaction (hash : String) : Object
  | "type" => .string "0x2"
  | "hash" => .string hash
  | _ => .null

def servedBlock (hash : String) : Block where
  fields
    | "hash" => .string "block"
    | _ => .null
  transactions := some [some (servedTransaction hash)]

def servedReceipts (hash : String) : Receipts := .list [fun
  | "transactionHash" => .string hash
  | _ => .null]

def transactionHashes (frame : Frame (List Nat)) : Option (List (List Nat)) :=
  match frame.transactions with
  | .complete list => some (list.map fun envelope => envelope.fields.hash)
  | _ => none

def okAnd {ε α : Type} (x : Except ε α) (p : α → Bool) : Bool :=
  match x with
  | .ok a => p a
  | .error _ => false

theorem exists_of_okAnd {ε : Type} {x : Except ε α} {p : α → Bool} (h : okAnd x p = true) :
    ∃ a, x = .ok a ∧ p a = true := by
  cases x with
  | ok a => exact ⟨a, rfl, h⟩
  | error e => cases h

theorem transactionHashes_of_same {frame₁ frame₂ : Frame (List Nat)} {hashes₁ hashes₂ : List (List Nat)}
    (h : SameMaterials frame₁ frame₂) (h₁ : transactionHashes frame₁ = some hashes₁)
    (h₂ : transactionHashes frame₂ = some hashes₂) : hashes₁ = hashes₂ := by
  unfold transactionHashes at h₁ h₂
  split at h₁
  · split at h₂
    · rename_i list₁ hlist₁ _ list₂ hlist₂
      cases h₁
      cases h₂
      have := congrArg (map fun envelope => envelope.fields.hash)
        (h.transactions list₁ list₂ hlist₁ hlist₂)
      rwa [List.map_map, List.map_map] at this
    · cases h₂
  · cases h₁

def framesAs (text : String) (hash : List Nat) : Bool :=
  okAnd (frameOf plainFormats (servedBlock text) (servedReceipts text) none) fun frame =>
    decide (frame.block.hash = listingHash plainHeader) && decide (transactionHashes frame = some [hash])

theorem framesAs_a : framesAs "a" [97] = true := by decide +kernel

theorem framesAs_b : framesAs "b" [98] = true := by decide +kernel

theorem exists_of_framesAs {text : String} {hash : List Nat} (h : framesAs text hash = true) :
    ∃ frame : Frame (List Nat),
      frameOf plainFormats (servedBlock text) (servedReceipts text) none = .ok frame ∧
        frame.block.hash = listingHash plainHeader ∧ transactionHashes frame = some [hash] := by
  obtain ⟨frame, hframe, htest⟩ := exists_of_okAnd h
  rw [Bool.and_eq_true, decide_eq_true_iff, decide_eq_true_iff] at htest
  exact ⟨frame, hframe, htest⟩

end Leani.Rpc.Decoding
