import ChainNode.Proofs.Chain.Span
import ChainNode.Proofs.Fanout
import ChainNode.Proofs.Node.Ensures
import ChainNode.Proofs.Peer.Responder
import ChainNode.Reconcile.Ask

/-!
# Honest peers

`HonestPeers` describes a network in which everybody but the node itself is a responder over one
and the same chain, with the settings that the node has, and answers in time. Who is active, the
order of a shuffle, the latencies, the clock, and what else the peers remember are left open.

A responder refuses a request whose id it remembers, so ids must not repeat: one that was just given
out is remembered by no peer, and shuffling a list does not change that.

* `handle_infoRequest`, `handle_blockRequest`, `mem_of_handle_infos`, `mem_of_handle_blocks`: what a
  responder says.
* `HonestPeers.handle_infos`, `HonestPeers.handle_blocks`: what an honest peer says.
-/
namespace ChainNode

/-! ## Responders -/

namespace Responder

variable (r : Responder) (now : Nat) (q : BatchRequest) (h : Chain)

theorem handle_infoRequest : (r.handle now (.infoRequest q) (.ofChain h)).1 =
    if r.served.contains now q.id then .error (.duplicateRequest q.id)
    else .ok (.infos (.ofEntities BlockInfo.position r.node q.start
      (h.span q.start.toNat (r.cap q)) h.head.position)) := by
  rw [handle_infoRequest_eq]
  split <;> rfl

theorem handle_blockRequest : (r.handle now (.blockRequest q) (.ofChain h)).1 =
    if r.served.contains now q.id then .error (.duplicateRequest q.id)
    else .ok (.blocks (.ofEntities Block.position r.node q.start
      (h.range q.start.toNat (r.cap q)) h.head.position)) := by
  rw [handle_blockRequest_eq, replyTo, List.map_id]
  split <;> rfl

/-- Whatever a responder is asked, the infos that it gives are those of its chain. -/
theorem mem_of_handle_infos {m : Message} {reply : BatchReply BlockInfo}
    (given : (r.handle now m (.ofChain h)).1 = .ok (.infos reply)) :
    ∀ i ∈ reply.entities, i ∈ h.infos := by
  cases m with
  | infoRequest q =>
    rw [handle_infoRequest] at given
    split at given
    · cases given
    · cases given
      exact fun i hi => Chain.mem_infos_of_mem_span hi
  | blockRequest q =>
    rw [handle_blockRequest] at given
    split at given <;> cases given
  | infos | blocks | freshBlock => cases given

/-- Likewise for blocks. -/
theorem mem_of_handle_blocks {m : Message} {reply : BatchReply Block}
    (given : (r.handle now m (.ofChain h)).1 = .ok (.blocks reply)) :
    ∀ b ∈ reply.entities, b ∈ h.blocks := by
  cases m with
  | infoRequest q =>
    rw [handle_infoRequest] at given
    split at given <;> cases given
  | blockRequest q =>
    rw [handle_blockRequest] at given
    split at given
    · cases given
    · cases given
      exact fun b hb => Chain.mem_of_mem_range hb
  | infos | blocks | freshBlock => cases given

end Responder

/-- How many entities a responder with these settings gives for a request of some size. -/
def SyncSettings.served (s : SyncSettings) (size : UInt32) : Nat :=
  min size.toNat (2 * max s.batchSize.toNat (s.scanWindow % UInt32.size))

theorem Responder.cap_eq {r : Responder} {id : NodeId} {settings : SyncSettings}
    (alike : r.maxBatch = (Responder.new id settings).maxBatch) (q : BatchRequest) :
    r.cap q = settings.served q.size := by
  rw [Responder.cap, alike, SyncSettings.served, Responder.new]

variable {σ : Type}

/-- None of the peers remembers the request id. -/
def Unheard (ids : List NodeId) (responder : σ → NodeId → Responder) (clock : σ → Nat) (s : σ)
    (request : RequestId) : Prop :=
  ∀ id ∈ ids, (responder s id).served.contains (clock s) request = false

/-- Everybody but the node itself answers from the chain `h`, with the node's own settings. -/
structure HonestPeers (net : Network σ) (node : NodeId) (settings : SyncSettings)
    (h : Chain) where
  ids : List NodeId
  responder : σ → NodeId → Responder
  clock : σ → Nat
  others : node ∉ ids
  active : ∀ s, ∃ id ∈ net.members s, id ≠ node
  known : ∀ s, ∀ id ∈ net.members s, id ≠ node → id ∈ ids
  shuffled : ∀ s list, (net.shuffle list s).1.Perm list
  intime : ∀ id ∈ ids, ∀ m s, net.latency id m s ≤ settings.requestTimeoutMs
  alike : ∀ id ∈ ids, ∀ s, (responder s id).maxBatch = (Responder.new id settings).maxBatch
  answers : ∀ id ∈ ids, ∀ m s,
    (net.handle id m s).1 = ((responder s id).handle (clock s) m (.ofChain h)).1
  new : ∀ s, Unheard ids responder clock (net.newId s).2 (net.newId s).1
  undisturbed : ∀ list s request, Unheard ids responder clock s request →
    Unheard ids responder clock (net.shuffle list s).2 request

namespace HonestPeers

variable {net : Network σ} {node : NodeId} {settings : SyncSettings} {h : Chain}
  (p : HonestPeers net node settings h)

/-- None of the peers remembers the request id. -/
abbrev Unused (s : σ) (request : RequestId) : Prop := Unheard p.ids p.responder p.clock s request

theorem cap_responder {id : NodeId} (hid : id ∈ p.ids) (s : σ) (q : BatchRequest) :
    (p.responder s id).cap q = settings.served q.size :=
  Responder.cap_eq (p.alike id hid s) q

theorem handle_infos {id : NodeId} (hid : id ∈ p.ids) (s : σ) (q : BatchRequest) :
    (net.handle id (.infoRequest q) s).1 =
      if (p.responder s id).served.contains (p.clock s) q.id then .error (.duplicateRequest q.id)
      else .ok (.infos (.ofEntities BlockInfo.position (p.responder s id).node q.start
        (h.span q.start.toNat (settings.served q.size)) h.head.position)) := by
  rw [p.answers id hid, Responder.handle_infoRequest, p.cap_responder hid]

theorem handle_blocks {id : NodeId} (hid : id ∈ p.ids) (s : σ) (q : BatchRequest) :
    (net.handle id (.blockRequest q) s).1 =
      if (p.responder s id).served.contains (p.clock s) q.id then .error (.duplicateRequest q.id)
      else .ok (.blocks (.ofEntities Block.position (p.responder s id).node q.start
        (h.range q.start.toNat (settings.served q.size)) h.head.position)) := by
  rw [p.answers id hid, Responder.handle_blockRequest, p.cap_responder hid]

end HonestPeers

end ChainNode
