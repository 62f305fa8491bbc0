import Leani.Deltas.RollupTxs
import Leani.Deltas.Blobs

/-!
# Deltas do not depend on how the material came

Two frames of one block that a requirement accepts derive the same delta or none, but for the
finality that each frame has. The blobs processor wants filtered transactions declared as type 3
alone: it refuses a wider scope.
-/

namespace Leani.Deltas

open Library Filtering Wasm.Frame List BlobsDelta BlobsProcessor RollupTxsDelta RollupTxsProcessor

variable {truth : TrueBlock} {frame frame' : SourceFrame}

def DerivesAs {Delta : Type} (derive : SourceFrame → Except ProcessorError Delta)
    (mark : Delta → Finality → Delta) (frame frame' : SourceFrame) : Prop :=
  ∀ delta, derive frame = .ok delta → derive frame' = .ok (mark delta frame'.finality)

def Alike {Delta : Type} (derive : SourceFrame → Except ProcessorError Delta)
    (mark : Delta → Finality → Delta) (frame frame' : SourceFrame) : Prop :=
  DerivesAs derive mark frame frame' ∧ DerivesAs derive mark frame' frame

def BlobsDelta.mark (delta : BlobsDelta) (finality : Finality) : BlobsDelta :=
  { delta with block := { delta.block with finality } }

def RollupTxsDelta.mark (delta : RollupTxsDelta) (finality : Finality) : RollupTxsDelta :=
  { delta with block := { delta.block with finality } }

theorem BlobsProcessor.DerivesFrom.mark {processor : BlobsProcessor} {fin fin' : Finality}
    {delta : BlobsDelta} (h : processor.DerivesFrom truth fin delta) :
    processor.DerivesFrom truth fin' (delta.mark fin') := by
  obtain ⟨hchain, parameters, hparms, fees, hfees, rows, hrows, hfits, hcount, rfl⟩ := h
  exact ⟨hchain, parameters, hparms, fees, hfees, rows, hrows, hfits, hcount, rfl⟩

theorem blobs_derivesAs {processor : BlobsProcessor} (hpaired : Paired truth)
    (hfrm : FrameOf projection truth frame) (hfrm' : FrameOf projection truth frame')
    (hdeclares : DeclaresBlobs frame'.transactions) :
    DerivesAs processor.derive mark frame frame' := by
  intro _ h
  obtain ⟨-, hfrom⟩ := (derive_eq_ok hpaired hfrm).1 h
  exact (derive_eq_ok hpaired hfrm').2 ⟨hdeclares, hfrom.mark⟩

variable {processor : RollupTxsProcessor}

theorem RollupTxsProcessor.DerivesFrom.mark {fin fin' : Finality} {delta : RollupTxsDelta}
    (h : processor.DerivesFrom truth fin delta) :
    processor.DerivesFrom truth fin' (delta.mark fin') := by
  obtain ⟨hchain, baseFee, hfee, rows, hrows, rfl⟩ := h
  exact ⟨hchain, baseFee, hfee, rows, hrows, rfl⟩

theorem rollupTxs_derivesAs {config : RollupTxsConfig}
    (hnew : new config = .ok processor) (hpaired : Paired truth)
    (hfrm : FrameOf processor.projection truth frame)
    (hfrm' : FrameOf processor.projection truth frame') :
    DerivesAs processor.derive mark frame frame' := by
  have hrules := new_byRecipient hnew
  intro _ h
  have hfrom := (derive_eq_ok hrules hpaired hfrm).1 h
  exact (derive_eq_ok hrules hpaired hfrm').2 hfrom.mark

def oneFork : BlobSchedule where
  chainId := 1
  network := "mainnet"
  forks := [⟨"dencun", 1, 1, "00000000", 3, 6, 3338477, false⟩]

def inboxRules : RollupTxsConfig where
  network := "mainnet"
  startBlock := londonBlock
  rules := [⟨"rollup", .data, .replicate 20 1, none, none, none, none, none⟩]

def inboxBlob : TrueTransaction where
  envelope := ⟨⟨.replicate 32 5, 3, 0, some (.replicate 20 2), some 0, some 21000, some 0, some [],
    some 1, [7]⟩, some (.replicate 20 1)⟩
  receipt := ⟨.replicate 32 5, 3, 0, some true, some 21000, some 10, some blobGasPerBlob, []⟩

def inboxBlock : TrueBlock where
  chainId := 1
  block := ⟨londonBlock, 2, 1, 1⟩
  header := ⟨⟨some 30000000, some 21000, some 500, some 1⟩, some 10, some blobGasPerBlob, some 0⟩
  transactions := [inboxBlob]
  withdrawals := []

def inboxFrame (transactions : Filtering.Material (List Transaction)) : SourceFrame where
  chainId := 1
  block := inboxBlock.block
  finality := .finalized
  header := .complete inboxBlock.header
  transactions := transactions
  receipts := .complete [inboxBlob.receipt]
  logs := .missing
  withdrawals := .missing
  blobSidecars := .missing
  traces := .missing
  stateDiffs := .missing
  verification := ⟨.verified, .verified, .verified, .verified, .verified, .verified, none⟩

def widerScope : FilterScope :=
  coveringFilterScope [BlobsProcessor.requirement.filter,
    { FilterScope.wildcard with transactionTypes := [2] }]

theorem inboxBlock_paired : Paired inboxBlock where
  receipts := by decide
  indexes := by decide
  hashes := by decide

theorem inboxFrame_of {proj : Projection} {txs : Filtering.Material (List Transaction)}
    (hacc : proj.requirement.validateFrame (inboxFrame txs).base = .ok ())
    (htxs : SuppliedBy txs fun items scope => items = [inboxBlob.envelope] ∧
        scope.coversAt proj.filter inboxBlock.block.number = true)
    (hcovers : FilterScope.wildcard.coversAt proj.filter inboxBlock.block.number = true) :
    FrameOf proj inboxBlock (inboxFrame txs) := by
  have htx : TransactionAgrees proj.groups inboxBlob.envelope inboxBlob.envelope :=
    ⟨⟨rfl, rfl, rfl⟩, fun _ => rfl, fun _ => ⟨rfl, rfl, rfl, rfl⟩, fun _ => rfl, fun _ => ⟨rfl, rfl⟩⟩
  have hrcpt : ReceiptAgrees proj.groups inboxBlob.receipt inboxBlob.receipt :=
    ⟨⟨rfl, rfl, rfl⟩, fun _ => ⟨rfl, rfl, rfl⟩, fun _ => rfl⟩
  have hholds : ∀ {items : List Transaction} {sel : TrueTransaction → Prop},
      items = [inboxBlob.envelope] → Holds items inboxBlock.transactions (fun given t =>
      TransactionAgrees proj.groups given t.envelope) sel fun given => given.index := by
    rintro _ sel rfl
    constructor
    · intro _ hitem; cases mem_singleton.1 hitem; exact ⟨inboxBlob, mem_singleton_self _, htx⟩
    · intro t ht _; cases mem_singleton.1 ht; exact ⟨_, mem_singleton_self _, htx⟩
    · exact nodup_singleton _
  have hlogs : Holds inboxBlob.receipt.logs inboxBlob.receipt.logs Log.Shows
      (SelectsLog .wildcard) Log.logIndex := ⟨nofun, nofun, nodup_nil⟩
  refine ⟨hacc, rfl, rfl, ?_, ?_, ⟨hcovers, ?_, ?_, nodup_singleton _⟩, trivial,
    trivial⟩
  · intro _ hhdr; cases hhdr; exact ⟨fun _ => ⟨rfl, rfl, rfl, rfl, rfl⟩, fun _ => ⟨rfl, rfl⟩⟩
  · cases txs with
    | missing => trivial
    | complete items => exact ⟨htxs.2, hholds htxs.1⟩
    | filtered items scope completeness =>
      exact ⟨htxs.1, htxs.2.2, hholds htxs.2.1⟩
  · intro rcpt hmem
    cases mem_singleton.1 hmem; exact ⟨inboxBlob, mem_singleton_self _, hrcpt, hlogs⟩
  · intro t ht _; cases mem_singleton.1 ht; exact ⟨_, mem_singleton_self _, hrcpt, hlogs⟩

def wholeTransactions : Filtering.Material (List Transaction) := .complete [inboxBlob.envelope]

def scopedTransactions (scope : FilterScope) : Filtering.Material (List Transaction) :=
  .filtered [inboxBlob.envelope] scope .verifiedPredicate

def oneForkProcessor : BlobsProcessor := ⟨oneFork⟩

def inboxProcessor : RollupTxsProcessor := ⟨inboxRules, groupBy Rule.recipient inboxRules.rules⟩

theorem newAt_oneFork : newAt oneFork 1 = .ok oneForkProcessor := by
  have hfol : BlobFork.Follows ⟨"dencun", 1, 1, "00000000", 3, 6, 3338477, false⟩ none := by
    refine ⟨by decide, by decide, by decide, by decide, ?_, by decide, by decide, by decide, nofun⟩
    intro digit hdigit
    have hzero : digit = '0' := by simpa using hdigit
    subst hzero; decide
  have hvalid : oneFork.validate = .ok () := by
    simp [BlobSchedule.validate, oneFork, ensure_of _ hfol]; rfl
  unfold newAt; rw [hvalid]; rfl

theorem new_inboxRules : new inboxRules = .ok inboxProcessor := by
  rfl

theorem wholeFrame_of : FrameOf projection inboxBlock (inboxFrame wholeTransactions) :=
  inboxFrame_of rfl ⟨rfl, rfl⟩ rfl

theorem scopedFrame_of {scope : FilterScope} (hacc : projection.requirement.validateFrame
      (inboxFrame (scopedTransactions scope)).base = .ok ())
    (hcovers : scope.coversAt projection.filter inboxBlock.block.number = true) :
    FrameOf projection inboxBlock (inboxFrame (scopedTransactions scope)) :=
  inboxFrame_of hacc ⟨nofun, rfl, hcovers⟩ rfl

theorem inboxFrame_of_rules :
    FrameOf inboxProcessor.projection inboxBlock (inboxFrame wholeTransactions) :=
  inboxFrame_of rfl ⟨rfl, rfl⟩ rfl

theorem exists_ok {ε α : Type} {answer : Except ε α} (h : answer.toOption.isSome = true) :
    ∃ value, answer = .ok value := by
  cases answer with
  | error e => cases h
  | ok value => exact ⟨value, rfl⟩

theorem derives_whole : ∃ delta, oneForkProcessor.derive (inboxFrame wholeTransactions) = .ok delta :=
  exists_ok (by decide +kernel)

theorem derives_inbox : ∃ delta, inboxProcessor.derive (inboxFrame wholeTransactions) = .ok delta ∧
    delta.transactions = [] :=
  ⟨_, rfl, by decide +kernel⟩

end Leani.Deltas
