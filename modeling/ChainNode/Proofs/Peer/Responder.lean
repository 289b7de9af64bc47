import ChainNode.Peer.Responder
import ChainNode.Proofs.SeenCache

/-!
# What a responder does

Over a store without faults a responder refuses a request whose id it remembers, and that changes
nothing. It answers any other from its store, which stays as it is, and remembers the id.

* `serve_eq`: what it replies, and what it and its store are afterwards.
* `handle_keeps`: what no message changes.
-/
namespace ChainNode.Responder

variable {c : Chain} {r : Responder} {now : Nat} {q : BatchRequest}

/-- The responder once it has noted an id. -/
def noting (now : Nat) (id : RequestId) (r : Responder) : Responder :=
  { r with served := r.served.put now id }

/-- The reply that lists, under some view, the blocks of the range that is asked for. -/
def replyTo {α : Type} (r : Responder) (position : α → UInt64) (view : Block → α) (c : Chain)
    (q : BatchRequest) : BatchReply α :=
  .ofEntities position r.node q.start ((c.range q.start.toNat (r.cap q)).map view) c.head.position

/-- A request whose id is remembered changes nothing; otherwise the id is noted and the range
served. -/
theorem serve_eq {α : Type} {position : α → UInt64} {read : Nat → Nat → Store.Op (List α)}
    {wrap : BatchReply α → Message} {view : Block → α}
    (hread : ∀ p n, read p n (.ofChain c) = (.ok ((c.range p n).map view), .ofChain c)) :
    serve position read wrap now q r (.ofChain c) =
      if r.served.contains now q.id then (.error (.duplicateRequest q.id), r, .ofChain c)
      else (.ok (wrap (r.replyTo position view c q)), r.noting now q.id, .ofChain c) := by
  unfold serve
  cases seen : r.served.contains now q.id with
  | true => rw [SeenCache.insertIfAbsent_of_contains seen, if_pos rfl]
  | false =>
    rw [SeenCache.insertIfAbsent_of_not_contains seen, if_neg Bool.false_ne_true]
    simp only [Store.latestBlock_ofChain]
    rw [hread]
    rfl

theorem handle_infoRequest_eq : r.handle now (.infoRequest q) (.ofChain c) =
    if r.served.contains now q.id then (.error (.duplicateRequest q.id), r, .ofChain c)
    else (.ok (.infos (r.replyTo BlockInfo.position Block.info c q)), r.noting now q.id,
      .ofChain c) :=
  serve_eq fun p n => Store.infosInRange_ofChain p n c

theorem handle_blockRequest_eq : r.handle now (.blockRequest q) (.ofChain c) =
    if r.served.contains now q.id then (.error (.duplicateRequest q.id), r, .ofChain c)
    else (.ok (.blocks (r.replyTo Block.position id c q)), r.noting now q.id, .ofChain c) := by
  have hread : ∀ p n, Store.blocksInRange p n (.ofChain c) =
      (.ok ((c.range p n).map id), .ofChain c) := by
    intro p n
    rw [Store.blocksInRange_ofChain, List.map_id]
  exact serve_eq hread

/-- Whatever a responder is asked, its store stays and so does the size of its batches. -/
theorem handle_keeps (r : Responder) (now : Nat) (m : Message) (c : Chain) :
    (r.handle now m (.ofChain c)).2.2 = .ofChain c ∧
      (r.handle now m (.ofChain c)).2.1.maxBatch = r.maxBatch := by
  cases m with
  | infoRequest q =>
    rw [handle_infoRequest_eq]
    split <;> exact ⟨rfl, rfl⟩
  | blockRequest q =>
    rw [handle_blockRequest_eq]
    split <;> exact ⟨rfl, rfl⟩
  | infos | blocks | freshBlock => exact ⟨rfl, rfl⟩

end ChainNode.Responder
