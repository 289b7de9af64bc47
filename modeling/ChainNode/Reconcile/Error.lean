import ChainNode.Chain
import ChainNode.Peer.Message

/-!
# What can go wrong between nodes

The failure of a single peer stays with that peer. A network that cannot be asked leaves the
local chain as it is. Only divergence down to the first position and failures of the store or
the pool reach the caller.
-/
namespace ChainNode

inductive SyncError where
  | peerRequest (node : NodeId) (reason : String)
  | unexpectedResponse (node : NodeId) (topic : Topic)
  | unsupportedMessage (topic : Topic)
  | duplicateRequest (id : RequestId)
  | noActivePeers
  | noPeerView (position : Nat)
  | divergence
  | blocksUnavailable (position : Nat)
  | store (cause : StoreError)
  | poolResync (reason : String)
  deriving DecidableEq, Repr

namespace SyncError

def name : SyncError → String
  | .peerRequest .. => "PeerRequest"
  | .unexpectedResponse .. => "UnexpectedResponse"
  | .unsupportedMessage _ => "UnsupportedMessage"
  | .duplicateRequest _ => "DuplicateRequest"
  | .noActivePeers => "NoActivePeers"
  | .noPeerView _ => "NoPeerView"
  | .divergence => "SyncDivergence"
  | .blocksUnavailable _ => "BlocksUnavailable"
  | .store cause => s!"Store.{cause.name}"
  | .poolResync _ => "PoolResync"

def message : SyncError → String
  | .peerRequest node reason => s!"Request to {node} failed: {reason}"
  | .unexpectedResponse node topic => s!"Unexpected response from {node} on {topic.name}"
  | .unsupportedMessage topic => s!"Unsupported message on {topic.name}"
  | .duplicateRequest id => s!"Duplicate request {id.text}"
  | .noActivePeers => "No active peers"
  | .noPeerView position => s!"No peer view available from position {position}"
  | .divergence => "Chain diverges from the network down to position 1: full resync required"
  | .blocksUnavailable position => s!"Blocks from position {position} unavailable"
  | .store cause => s!"Store error: {cause.message}"
  | .poolResync reason => s!"Transaction pool resync failed: {reason}"

instance : Fault SyncError := ⟨name, message⟩

def isPeerLocal : SyncError → Bool
  | .peerRequest _ _ | .unexpectedResponse _ _ | .unsupportedMessage _ | .duplicateRequest _ => true
  | _ => false

def isNetworkUnavailable : SyncError → Bool
  | .noActivePeers | .noPeerView _ | .blocksUnavailable _ => true
  | _ => false

def requiresFullResync : SyncError → Bool
  | .divergence => true
  | _ => false

end SyncError

end ChainNode
