import ChainNode.Peer.Message
import ChainNode.Reconcile.Error
import ChainNode.Reconcile.Settings
import ChainNode.SeenCache
import ChainNode.Store

/-!
# Answering peers

A responder serves batches of infos and blocks from its store. A request whose id it has seen is
refused, and a batch never exceeds twice the larger of the batch size and the scan window, which
is enough for a peer that asks for a window and a batch at once.
-/
namespace ChainNode

structure Responder where
  node : NodeId
  maxBatch : Nat
  served : SeenCache RequestId

namespace Responder

/-- A window counts by its low 32 bits. -/
def new (node : NodeId) (s : SyncSettings) : Responder :=
  ⟨node, max s.batchSize.toNat (s.scanWindow % UInt32.size), .empty s.cacheCapacity s.cacheTtlMs⟩

/-- How many entities a request gets at most. -/
def cap (r : Responder) (request : BatchRequest) : Nat :=
  min request.size.toNat (2 * r.maxBatch)

/-- What a responder returns, and what it and its store are afterwards. -/
abbrev Answer := Except SyncError Message × Responder × Store

/-- Serve what `read` finds, unless the id was seen. -/
def serve {α : Type} (position : α → UInt64) (read : Nat → Nat → Store.Op (List α))
    (wrap : BatchReply α → Message) (now : Nat) (request : BatchRequest) (r : Responder)
    (s : Store) : Answer :=
  match r.served.insertIfAbsent now request.id with
  | (false, _) => (.error (.duplicateRequest request.id), r, s)
  | (true, served) =>
    let r' := { r with served := served }
    match Store.latestBlock s with
    | (.error e, s) => (.error (.store e), r', s)
    | (.ok head, s) =>
      match read request.start.toNat (r.cap request) s with
      | (.error e, s) => (.error (.store e), r', s)
      | (.ok found, s) =>
        (.ok (wrap (.ofEntities position r.node request.start found head.position)), r', s)

def handle (now : Nat) (m : Message) (r : Responder) (s : Store) : Answer :=
  match m with
  | .infoRequest request => serve BlockInfo.position Store.infosInRange .infos now request r s
  | .blockRequest request => serve Block.position Store.blocksInRange .blocks now request r s
  | .freshBlock _ => (.error (.unsupportedMessage .freshBlock), r, s)
  | .infos _ => (.error (.unsupportedMessage .blockInfoSync), r, s)
  | .blocks _ => (.error (.unsupportedMessage .blockSync), r, s)

/-- Sweep the ids whose time is over. -/
def purge (now : Nat) (r : Responder) : Nat × Responder :=
  match r.served.purge now with
  | (n, served) => (n, { r with served := served })

end Responder

end ChainNode
