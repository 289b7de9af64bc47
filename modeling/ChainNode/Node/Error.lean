import ChainNode.Forge.Error
import ChainNode.Node.Settings
import ChainNode.Reconcile.Error

/-!
# What can go wrong in a node
-/
namespace ChainNode

inductive NodeError where
  | sync (cause : SyncError)
  | forge (cause : ForgeError)
  | store (cause : StoreError)
  | settings (cause : SettingsError)
  deriving DecidableEq, Repr

def NodeError.name : NodeError → String
  | .sync cause => s!"Sync.{cause.name}"
  | .forge cause => s!"Consensus.{cause.name}"
  | .store cause => s!"Store.{cause.name}"
  | .settings cause => s!"Config.{cause.name}"

def NodeError.message : NodeError → String
  | .sync cause => s!"Sync error: {cause.message}"
  | .forge cause => s!"Consensus error: {cause.message}"
  | .store cause => s!"Store error: {cause.message}"
  | .settings cause => s!"Config error: {cause.message}"

instance : Fault NodeError := ⟨NodeError.name, NodeError.message⟩

end ChainNode
