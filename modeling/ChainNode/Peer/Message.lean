import ChainNode.Block
import ChainNode.Peer.Membership

/-!
# What peers say to each other

A batch request asks for the infos or the blocks from a position on; a batch reply carries them
and says whether they reach the replier's head. Fresh blocks are announced without a request.
-/
namespace ChainNode

inductive Topic where
  | freshBlock
  | blockInfoSync
  | blockSync
  | transactionSync
  deriving DecidableEq, Repr

def Topic.name : Topic → String
  | .freshBlock => "fresh-block"
  | .blockInfoSync => "block-info-sync"
  | .blockSync => "block-sync"
  | .transactionSync => "transaction-sync"

def Topic.encode : Topic → Bytes
  | .freshBlock => Canonical.tag 0
  | .blockInfoSync => Canonical.tag 1
  | .blockSync => Canonical.tag 2
  | .transactionSync => Canonical.tag 3

/-- A 128-bit number that tells requests apart. -/
structure RequestId where
  high : UInt64
  low : UInt64
  deriving DecidableEq, Repr

namespace RequestId

def bytes (id : RequestId) : Bytes := Bytes.be64 id.high ++ Bytes.be64 id.low

/-- Groups of 8, 4, 4, 4 and 12 digits. -/
def text (id : RequestId) : String :=
  let digits := id.bytes.hexChars
  let group (start size : Nat) := String.ofList ((digits.drop start).take size)
  "-".intercalate [group 0 8, group 8 4, group 12 4, group 16 4, group 20 12]

def encode (id : RequestId) : Bytes := Canonical.list ([·]) id.bytes

/-- The id with a given number. -/
def ofNat (n : Nat) : RequestId := ⟨UInt64.ofNat (n / UInt64.size), UInt64.ofNat n⟩

/-- The ids of a node, counted up. They bear the marks of ids that are drawn at random: version 4
in the high half, variant 2 in the low half. -/
def numbered (n : Nat) : RequestId := ⟨0x4000, 0x8000000000000000 + UInt64.ofNat n⟩

end RequestId

structure BatchRequest where
  id : RequestId
  start : UInt64
  size : UInt32
  topic : Topic
  receivers : UInt32
  retries : UInt32
  selected : Option (List NodeId)
  deriving DecidableEq, Repr

namespace BatchRequest

def encode (r : BatchRequest) : Bytes :=
  r.id.encode ++ Bytes.le64 r.start ++ Bytes.le32 r.size ++ r.topic.encode ++
    Bytes.le32 r.receivers ++ Bytes.le32 r.retries ++
    Canonical.option (Canonical.list Canonical.text) r.selected

/-- The last position asked for; positions are below `UInt64.size`. -/
def lastPosition (r : BatchRequest) : Nat :=
  min (r.start.toNat + r.size.toNat) (UInt64.size - 1) - 1

/-- The same request under another id. -/
def retried (r : BatchRequest) (id : RequestId) : BatchRequest := { r with id := id }

end BatchRequest

/-- A reply whose entities have positions. -/
structure BatchReply (α : Type) where
  start : UInt64
  entities : List α
  last : UInt64
  reached : Bool
  node : NodeId
  deriving DecidableEq, Repr

namespace BatchReply

/-- An empty reply ends one before its start. -/
def ofEntities {α : Type} (position : α → UInt64) (node : NodeId) (start : UInt64)
    (entities : List α) (head : UInt64) : BatchReply α :=
  let last := (entities.map position).max?.getD (if start = 0 then 0 else start - 1)
  ⟨start, entities, last, head ≤ last, node⟩

def encode {α : Type} (write : α → Bytes) (r : BatchReply α) : Bytes :=
  Bytes.le64 r.start ++ Canonical.list write r.entities ++ Bytes.le64 r.last ++
    Canonical.flag r.reached ++ Canonical.text r.node

end BatchReply

inductive Message where
  | infoRequest (request : BatchRequest)
  | infos (reply : BatchReply BlockInfo)
  | blockRequest (request : BatchRequest)
  | blocks (reply : BatchReply Block)
  | freshBlock (block : Block)
  deriving DecidableEq, Repr

namespace Message

def kind : Message → String
  | .infoRequest _ => "block-info-request"
  | .infos _ => "block-infos"
  | .blockRequest _ => "block-request"
  | .blocks _ => "blocks"
  | .freshBlock _ => "fresh-block"

def encode : Message → Bytes
  | .infoRequest r => Canonical.tag 0 ++ r.encode
  | .infos r => Canonical.tag 1 ++ r.encode BlockInfo.encode
  | .blockRequest r => Canonical.tag 2 ++ r.encode
  | .blocks r => Canonical.tag 3 ++ r.encode Block.encode
  | .freshBlock b => Canonical.tag 4 ++ b.encode

end Message

end ChainNode
