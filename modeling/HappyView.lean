import HappyView.Backfill.FoldOrder
import HappyView.Backfill.ReplaySafety
import HappyView.Backfill.SegmentBlock
import HappyView.Backfill.SweepLoop
import HappyView.Consumer.CrashSafety
import HappyView.Consumer.MarkerSweep
import HappyView.Ingest.Takedown
import HappyView.Jobs.Fencing
import HappyView.Jobs.ReconcileSafety
import HappyView.Labeler.CacheCoherence
import HappyView.OAuth.DpopProof
import HappyView.Outbound.Exemptions
import HappyView.RateLimit
import HappyView.Records.CidColumn
import HappyView.Records.InternCache
import HappyView.Records.MicrosColumn
import HappyView.Records.Resurrection
import HappyView.Scopes.ExpansionText
import HappyView.Scopes.Issuance
import HappyView.Scopes.PermissionEntries
import HappyView.Scopes.RpcBounds
import HappyView.Spaces.CarBlocks
import HappyView.Spaces.FutureRev
import HappyView.Spaces.InviteAccounting
import HappyView.Spaces.MemberCompleteness
import HappyView.Spaces.ModeUpdates
import HappyView.Spaces.OpCollection
import HappyView.Spaces.OplogPages
import HappyView.Spaces.ReadConfinement
import HappyView.Spaces.Revocation
import HappyView.Spaces.ServedRepo
import HappyView.Spaces.SignedContexts
import HappyView.Spaces.SingleUse
import HappyView.Spaces.SwapCommit
import HappyView.Spaces.SyncConvergence
import HappyView.Spaces.WebhookOrder
import HappyView.Spaces.WriteOrder
import HappyView.Spaces.WriterSequence
import HappyView.Sql.RawSqlGuard
import HappyView.Star
import HappyView.Xrpc.RepoWriteRights
