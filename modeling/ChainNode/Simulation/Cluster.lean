import ChainNode.Node.Run

/-!
# Nodes on one hub

The members of a hub ask each other and announce blocks to all others, in the order of their ids.
An announcement is not delivered at once: it waits in a queue, and what its receiver does with it
may put further announcements behind it. A request to a node that is no member fails.

`network self` is the cluster as one of its nodes sees it.
-/
namespace ChainNode.Simulation

structure Member where
  node : Node
  /-- How long the node takes to answer a peer. -/
  latency : Nat
  /-- Time between two production cycles. -/
  interval : Nat
  joined : Bool
  /-- The node was shut down: it starts no more cycles. -/
  stopped : Bool
  /-- A stop reaches the node as soon as it searches for a nonce. -/
  interrupted : Bool

def Member.id (m : Member) : NodeId := m.node.id

def Member.new (node : Node) (latency interval : Nat) : Member :=
  { node, latency, interval, joined := true, stopped := false, interrupted := false }

/-- A block on its way to a node. -/
structure Announcement where
  receiver : NodeId
  block : Block
  deriving DecidableEq, Repr

structure Cluster where
  /-- By id. -/
  members : List Member
  /-- How many request ids were given out. -/
  issued : Nat
  /-- Oldest first. -/
  announcements : List Announcement

namespace Cluster

def ofMembers (members : List Member) : Cluster :=
  ⟨members.mergeSort fun a b => keyLE (0, a.id) (0, b.id), 0, []⟩

def find (c : Cluster) (id : NodeId) : Option Member := c.members.find? (·.id = id)

def joined (c : Cluster) : Membership := (c.members.filter (·.joined)).map Member.id

/-- All members of the hub but one. -/
def others (c : Cluster) (self : NodeId) : List NodeId := c.joined.leave self

def modify (id : NodeId) (f : Member → Member) (c : Cluster) : Cluster :=
  { c with members := c.members.map fun m => if m.id = id then f m else m }

/-- Put a node back after it has changed. -/
def put (n : Node) (c : Cluster) : Cluster := c.modify n.id fun m => { m with node := n }

def leave (id : NodeId) (c : Cluster) : Cluster := c.modify id fun m => { m with joined := false }

def notMember (id : NodeId) : SyncError := .peerRequest id "not a cluster member"

/-- A node's answer, whether or not it is still a member. -/
def answer (id : NodeId) (m : Message) (c : Cluster) : Except SyncError Message × Cluster :=
  match c.find id with
  | none => (.error (notMember id), c)
  | some member =>
    match member.node.handle m with
    | (r, n) => (r, c.put n)

def handle (id : NodeId) (m : Message) (c : Cluster) : Except SyncError Message × Cluster :=
  if id ∈ c.joined then c.answer id m else (.error (notMember id), c)

/-- Only fresh blocks are announced. -/
def broadcast (self : NodeId) (topic : Topic) (m : Message) (c : Cluster) :
    Except SyncError Unit × Cluster :=
  match m with
  | .freshBlock b =>
    (.ok (), { c with
      announcements := c.announcements ++ (c.others self).map fun id => ⟨id, b⟩ })
  | _ => (.error (.unsupportedMessage topic), c)

def network (self : NodeId) : Network Cluster where
  members c := c.others self
  shuffle ids c := (ids, c)
  newId c := (.numbered c.issued, { c with issued := c.issued + 1 })
  latency id _ c := ((c.find id).map Member.latency).getD 0
  handle := handle
  broadcast := broadcast self
  meanwhile n c := (n, c)

end Cluster

end ChainNode.Simulation
