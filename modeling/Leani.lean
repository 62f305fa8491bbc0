import Leani.Canonical.Runs
import Leani.Historical.Joining
import Leani.Processor.Publication
import Leani.LiveLane.Failure
import Leani.Delivery.Fencing
import Leani.Processor.Deletions
import Leani.Processor.Restoring
import Leani.Processor.Handoffs
import Leani.Turns.WriterArbiter
import Leani.Wasm.Queueing
import Leani.Wasm.Blocks
import Leani.RawHistory.Budget
import Leani.Wasm.Views
import Leani.L1Anchor.Ledger
import Leani.Erc20.Ledger
import Leani.Beacon.Subscription
import Leani.Beacon.TrustRoots
import Leani.P2p.LiveMaterial
import Leani.Rpc.Outbound
import Leani.Deltas.Alike
import Leani.Deltas.BlobFee
import Leani.P2p.RequestGate
import Leani.P2p.PeerPool
import Leani.Rpc.LiveStream
import Leani.P2p.PeerReplies
import Leani.EvmEvents.Views
import Leani.P2p.SparseLogs
import Leani.P2p.HeadEvidence
import Leani.Turns.Credit
import Leani.Historical.Memory
import Leani.Historical.Opening
import Leani.Processor.Scanning
import Leani.Processor.BackfillCompletion
import Leani.Processor.Inverses
import Leani.Aws.Flights
import Leani.Rpc.AnchoredServing
import Leani.Rpc.Committed
import Leani.Wasm.NetChanges
import Leani.OpGossip.Records
import Leani.RawHistory.RetainedPlan
import Leani.RawHistory.SourceContract
import Leani.Rpc.Subscriptions
import Leani.Subscribe.EventBuffer
import Leani.Subscribe.RunBackfill
import Leani.Wasm.U256
import Leani.SequencerFeed.WebSocket
import Leani.Historical.Demands
import Leani.Historical.Microbatch
import Leani.Chain.Cadence
import Leani.Chain.Beacon
import Leani.Processor.RangeSets
import Leani.Delivery.LiveReader
