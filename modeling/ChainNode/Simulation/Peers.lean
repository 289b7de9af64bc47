import ChainNode.Node.Run

/-!
# Simulated peers

A network of peers with a latency and a behaviour each: honest ones answer from their own chain,
others lie, refuse or answer what was not asked. It lists what is announced to it.
-/
namespace ChainNode.Simulation

/-- A responder and the store it answers from. -/
structure Served where
  responder : Responder
  store : Store

inductive Behaviour where
  | honest (served : Served)
  /-- Makes up a hash for every position it is asked for, and has no blocks. -/
  | liar
  /-- Honest about infos, but gives no blocks. -/
  | infosOnly (served : Served)
  /-- Infos from one chain, blocks from another. -/
  | split (infos blocks : Served)
  /-- The same answer whatever was asked. -/
  | fixed (infos : List BlockInfo) (blocks : List Block)
  | failing
  /-- Infos when asked for blocks and blocks when asked for infos. -/
  | wrong

structure Peer where
  id : NodeId
  latency : Nat
  behaviour : Behaviour

namespace Behaviour

def unavailable (id : NodeId) : Except SyncError Message := .error (.peerRequest id "unavailable")

/-- Every position that a request asks for, under a hash of no block. -/
def bogus (request : BatchRequest) : List BlockInfo :=
  (List.range (request.lastPosition + 1 - request.start.toNat)).map fun k =>
    let position := request.start.toNat + k
    ⟨UInt64.ofNat position, .ofString s!"bogus-{position}"⟩

def infosReply (id : NodeId) (request : BatchRequest) (infos : List BlockInfo) :
    Except SyncError Message :=
  .ok (.infos (.ofEntities BlockInfo.position id request.start infos 0))

def blocksReply (id : NodeId) (request : BatchRequest) (blocks : List Block) :
    Except SyncError Message :=
  .ok (.blocks (.ofEntities Block.position id request.start blocks 0))

def serve (now : Nat) (m : Message) (x : Served) : Except SyncError Message × Served :=
  match x.responder.handle now m x.store with
  | (r, responder, store) => (r, ⟨responder, store⟩)

/-- The answer to a message, and the behaviour from then on. -/
def answer (id : NodeId) (now : Nat) (m : Message) (b : Behaviour) :
    Except SyncError Message × Behaviour :=
  match b, m with
  | .honest x, m =>
    match serve now m x with
    | (r, x) => (r, .honest x)
  | .liar, .infoRequest request => (infosReply id request (bogus request), .liar)
  | .infosOnly x, .infoRequest request =>
    match serve now (.infoRequest request) x with
    | (r, x) => (r, .infosOnly x)
  | .split x y, .infoRequest request =>
    match serve now (.infoRequest request) x with
    | (r, x) => (r, .split x y)
  | .split x y, .blockRequest request =>
    match serve now (.blockRequest request) y with
    | (r, y) => (r, .split x y)
  | .fixed infos blocks, .infoRequest request =>
    (infosReply id request infos, .fixed infos blocks)
  | .fixed infos blocks, .blockRequest request =>
    (blocksReply id request blocks, .fixed infos blocks)
  | .wrong, .infoRequest request => (blocksReply id request [], .wrong)
  | .wrong, .blockRequest request => (infosReply id request [], .wrong)
  | b, _ => (unavailable id, b)

end Behaviour

structure Peers where
  peers : List Peer
  /-- Peers that fail at once, whatever they are asked. -/
  failing : List NodeId
  members : List NodeId
  /-- How many request ids were given out. -/
  issued : Nat
  /-- What was announced, oldest first. -/
  announced : List (Topic × Message)
  refusesBroadcasts : Bool
  now : Nat

namespace Peers

def find (p : Peers) (id : NodeId) : Option Peer :=
  if id ∈ p.failing then none else p.peers.find? (·.id = id)

/-- Add a peer, or replace the one of that id. -/
def register (peer : Peer) (p : Peers) : Peers :=
  if p.peers.any (·.id = peer.id) then
    { p with peers := p.peers.map fun q => if q.id = peer.id then peer else q }
  else { p with peers := p.peers ++ [peer] }

def handle (id : NodeId) (m : Message) (p : Peers) : Except SyncError Message × Peers :=
  match p.find id with
  | none => (Behaviour.unavailable id, p)
  | some peer =>
    match peer.behaviour.answer id p.now m with
    | (r, b) => (r, p.register { peer with behaviour := b })

/-- The order of a list is left as it is, and request ids are counted up. -/
def network : Network Peers where
  members p := p.members
  shuffle ids p := (ids, p)
  newId p := (.numbered p.issued, { p with issued := p.issued + 1 })
  latency id _ p := ((p.find id).map Peer.latency).getD 0
  handle := handle
  broadcast topic m p :=
    if p.refusesBroadcasts then (.error (.peerRequest "all" "unavailable"), p)
    else (.ok (), { p with announced := p.announced ++ [(topic, m)] })
  meanwhile n p := (n, p)

end Peers

end ChainNode.Simulation
