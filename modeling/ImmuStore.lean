import ImmuStore.Handles
import ImmuStore.DirectWrites
import ImmuStore.EngineSnapshots
import ImmuStore.Snapshots
import ImmuStore.CollectionRefine
import ImmuStore.CollectionBackfill
import ImmuStore.CollectionSweep
import ImmuStore.AuditSound
import ImmuStore.ServerReplies
import ImmuStore.ServerSpec
import ImmuStore.LazyTree
import ImmuStore.Leftovers
import ImmuStore.BPlusHeight
import ImmuStore.RaftSaved
import ImmuStore.RaftCatchUp
import ImmuStore.RaftKV
