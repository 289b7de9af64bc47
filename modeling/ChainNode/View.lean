import ChainNode.Peer.Message

/-!
# Views of a range

A `Report` is what one peer says the blocks of a range are; a `View` is what several peers agree
on. Infos of a view are sorted by position when it is made, and stay so when another view is
absorbed into it: the view that absorbs keeps its own info wherever it has one.
-/
namespace ChainNode

structure Report where
  node : NodeId
  infos : List BlockInfo
  deriving DecidableEq, Repr

structure View where
  nodes : List NodeId
  infos : List BlockInfo
  deriving DecidableEq, Repr

def Report.encode (r : Report) : Bytes :=
  Canonical.text r.node ++ Canonical.list BlockInfo.encode r.infos

namespace View

def encode (v : View) : Bytes :=
  Canonical.list Canonical.text v.nodes ++ Canonical.list BlockInfo.encode v.infos

def empty : View := ⟨[], []⟩

def ofInfos (nodes : List NodeId) (infos : List BlockInfo) : View := ⟨nodes, BlockInfo.sort infos⟩

def isEmpty (v : View) : Bool := v.infos.isEmpty

def firstPosition (v : View) : Option UInt64 := v.infos.head?.map BlockInfo.position

def lastPosition (v : View) : Option UInt64 := v.infos.getLast?.map BlockInfo.position

def infoAt (v : View) (position : UInt64) : Option BlockInfo :=
  v.infos.find? (·.position = position)

/-- Drop what lies below a height. -/
def retainFrom (v : View) (height : Nat) : View :=
  { v with infos := v.infos.filter (height ≤ ·.height) }

/-- Add an info unless its position is taken. -/
def addInfo (infos : List BlockInfo) (i : BlockInfo) : List BlockInfo :=
  if infos.any (·.position = i.position) then infos else infos ++ [i]

def addNode (nodes : List NodeId) (id : NodeId) : List NodeId :=
  if id ∈ nodes then nodes else nodes ++ [id]

/-- The union of two views; where both have an info, that of `v` stays. -/
def absorb (v other : View) : View :=
  ⟨other.nodes.foldl addNode v.nodes, BlockInfo.sort (other.infos.foldl addInfo v.infos)⟩

end View

end ChainNode
