import ChainNode.Sample
import ChainNode.Gossip
import ChainNode.Production
import ChainNode.Reconcile
import ChainNode.Simulation.Peers
import ChainNode.Simulation.Timeline
import ChainNode.Proofs.Fingerprint
import ChainNode.Proofs.Chain.Valid
import ChainNode.Proofs.Chain.Commitment
import ChainNode.Proofs.Chain.Rollback
import ChainNode.Proofs.Reconcile.Apply
import ChainNode.Proofs.Reconcile.Convergence
import ChainNode.Proofs.View.Majority
import ChainNode.Proofs.Reconcile.Extension
import ChainNode.Proofs.Reconcile.Safety
import ChainNode.Proofs.Reconcile.Minority
import ChainNode.Proofs.Reconcile.Progress
import ChainNode.Proofs.Node.Returns
import ChainNode.Proofs.Node.Uses
import ChainNode.Proofs.Production
import ChainNode.Proofs.Reconcile.Failure
import ChainNode.Proofs.Reconcile.Commands
import ChainNode.Proofs.Reconcile.Report
import ChainNode.Proofs.Simulation.Delivery
import ChainNode.Proofs.Simulation.Gossip
import ChainNode.Proofs.Simulation.Growth
import ChainNode.Proofs.Simulation.Hub
import ChainNode.Proofs.Forge.Acceptance
import ChainNode.Proofs.SeenCache
import ChainNode.Proofs.SeenCache.Origin
import ChainNode.Proofs.Gossip.AnyOrder
import ChainNode.Proofs.Production.Outcome
import ChainNode.Proofs.Mempool.Queue
import ChainNode.Proofs.Mempool.Resync
import ChainNode.Proofs.Mempool.Spelling
import ChainNode.Proofs.Production.Drain
import ChainNode.Proofs.Reconcile.Synced
import ChainNode.Proofs.Production.Waiting
import ChainNode.Proofs.View.Coverage
import ChainNode.Proofs.Reconcile.Windows
import ChainNode.Proofs.Reconcile.Divergence
import ChainNode.Proofs.Reconcile.Findings
import ChainNode.Proofs.Forge.Search
import ChainNode.Proofs.Entity
import ChainNode.Proofs.CanonicalBytes
import ChainNode.Proofs.Merkle.Binding
import ChainNode.Proofs.Merkle.Removal
import ChainNode.Proofs.Forge.Difficulty
import ChainNode.Proofs.Peer.Paging
import ChainNode.Proofs.Reconcile.Download
import ChainNode.Proofs.Fanout.Quorum
import ChainNode.Proofs.Node.Settings
import ChainNode.Proofs.Reconcile.Polling
import ChainNode.Proofs.SeenCache.Sweep
import ChainNode.Proofs.View.Union
