import ChainNode.Reconcile.CatchUp
import ChainNode.Reconcile.Scan

/-!
# Reconciling with the network

A node that starts finds where its chain leaves the majority's, takes over what it lacks, catches
up with what was added meanwhile, and compares its pool with the chain it ends up with. A network
that cannot be asked, or that has no usable answer, ends the first three early; the node then
keeps what it has. Divergence down to the first position is fatal, and so is a store that fails.
-/
namespace ChainNode

structure Reconciliation where
  fork : Option UInt64
  applied : Nat
  resynced : Nat
  deriving DecidableEq, Repr

namespace Reconcile

/-- The chain part: how far it came, and the error that ended it early, if any. -/
def reconcileChain (self : NodeId) (settings : SyncSettings) (rounds : Nat) (head : UInt64) :
    Program SyncError (Reconciliation × Option SyncError) := do
  match ← (scan self settings head).attempt with
  | .error e => pure (⟨none, 0, 0⟩, some e)
  | .ok found =>
    match ← (apply self settings found.missing).attempt with
    | .error e => pure (⟨some found.fork, 0, 0⟩, some e)
    | .ok applied =>
      match ← (catchUp self settings rounds).attempt with
      | .error e => pure (⟨some found.fork, applied, 0⟩, some e)
      | .ok more => pure (⟨some found.fork, applied + more, 0⟩, none)

def reconcile (self : NodeId) (settings : SyncSettings) (rounds : Nat) :
    Program SyncError Reconciliation := do
  let head ← .store .store Store.latestBlock
  let (report, ended) ← reconcileChain self settings rounds head.position
  match ended with
  | some e =>
    if e.isNetworkUnavailable then do
      let resynced ← .step id Node.resync
      pure { report with resynced }
    else .fail e
  | none => do
    let resynced ← .step id Node.resync
    pure { report with resynced }

end Reconcile

end ChainNode
