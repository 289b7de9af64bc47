import ChainNode.Proofs.Chain.Span
import ChainNode.Proofs.Peer.Responder

/-!
# Which range a responder serves

A responder reads as many blocks as are asked for and as it is willing to give, from the position
that is asked for on. `Serves` says what this comes to in positions: the ends of the range, and when
the reply says that the head is in it. An empty reply counts as one that ends before its start, so
the last position of a reply and the number of its entries always tell the same. Infos and blocks
are two kinds of one thing, and what a reply says is proved for any kind.

* `range_eq_filter`, `last_ofEntities`: a range and a reply, by positions.
* `serves_replyTo`: its reply to any request.
* `replyTo_page`: its reply to a client that has the blocks before.
-/
namespace ChainNode

namespace Chain

/-- What a reply carries and says to a request for `n` blocks from a position on. -/
structure Serves (c : Chain) (start n : Nat) (found : List Block) (reached : Bool) : Prop where
  entries : 1 ≤ start → found =
    c.blocks.filter fun b => start ≤ b.height ∧ b.height ≤ min (start + n - 1) c.head.height
  ascending : 1 ≤ start → found.map Block.height =
    List.range' start (min (start + n - 1) c.head.height + 1 - start)
  outside : start = 0 ∨ c.head.height < start → found = []
  reached : 1 ≤ start → (reached = true ↔ c.head.height ≤ start + n - 1)

variable {c : Chain} (genesis : c.first.height = 1)

include genesis

theorem length_range {p : Nat} (hp : 1 ≤ p) (n : Nat) :
    (c.range p n).length = min n (c.blocks.length - (p - 1)) := by
  rw [← length_span genesis hp n, span, List.length_map]

namespace Valid

omit genesis in
theorem heights_range (valid : c.Valid) (p n : Nat) :
    (c.range p n).map Block.height = List.range' p (c.range p n).length := by
  have consecutive := valid.consecutive_span p n
  rw [Consecutive, span, List.map_map, List.length_map] at consecutive
  exact consecutive

/-- The blocks of a range are those whose positions lie in it. -/
theorem range_eq_filter (valid : c.Valid) {p : Nat} (hp : 1 ≤ p) (n : Nat) :
    c.range p n =
      c.blocks.filter fun b => p ≤ b.height ∧ b.height ≤ min (p + n - 1) c.head.height := by
  have height : ∀ (i : Nat) (hi : i < c.blocks.length), c.blocks[i].height = i + 1 := by
    intro i hi
    rw [valid.height_getElem hi, genesis, Nat.add_comm]
  have top := valid.height_head_eq genesis
  have split : c.blocks = c.blocks.take (p - 1) ++ (c.range p n ++ c.blocks.drop (p - 1 + n)) := by
    rw [range_eq genesis hp, ← List.drop_drop, List.take_append_drop, List.take_append_drop]
  have below : (c.blocks.take (p - 1)).filter
      (fun b => p ≤ b.height ∧ b.height ≤ min (p + n - 1) c.head.height) = [] := by
    rw [List.filter_eq_nil_iff]
    intro b hb
    obtain ⟨i, hi, rfl⟩ := List.mem_take_iff_getElem.mp hb
    rw [height, decide_eq_true_eq]
    omega
  have above : (c.blocks.drop (p - 1 + n)).filter
      (fun b => p ≤ b.height ∧ b.height ≤ min (p + n - 1) c.head.height) = [] := by
    rw [List.filter_eq_nil_iff]
    intro b hb
    obtain ⟨i, hi, rfl⟩ := List.mem_drop_iff_getElem.mp hb
    rw [height, decide_eq_true_eq]
    omega
  have inside : (c.range p n).filter
      (fun b => p ≤ b.height ∧ b.height ≤ min (p + n - 1) c.head.height) = c.range p n := by
    rw [List.filter_eq_self]
    intro b hb
    have high : b.height ∈ (c.range p n).map Block.height := List.mem_map_of_mem hb
    have length := length_range genesis hp n
    rw [valid.heights_range, List.mem_range'_1] at high
    rw [decide_eq_true_eq]
    omega
  rw [split, List.filter_append, List.filter_append, below, inside, above, List.nil_append,
    List.append_nil]

end Valid

end Chain

/-! ## Replies -/

namespace BatchReply

variable {α : Type}

instance : Std.LawfulOrderMax UInt64 where
  max_eq_or a b := by
    show (if a ≤ b then b else a) = a ∨ (if a ≤ b then b else a) = b
    split
    · exact .inr rfl
    · exact .inl rfl
  max_le_iff a b c := by
    show (if a ≤ b then b else a) ≤ c ↔ a ≤ c ∧ b ≤ c
    split
    · rename_i le
      exact ⟨fun h => ⟨UInt64.le_trans le h, h⟩, And.right⟩
    · rename_i gt
      exact ⟨fun h => ⟨h, UInt64.le_trans (UInt64.le_of_lt (UInt64.not_le.mp gt)) h⟩, And.left⟩

/-- What a reply says besides its entries depends on their positions only. -/
theorem ofEntities_map {position : α → UInt64} {view : Block → α}
    (same : ∀ b, position (view b) = b.position) (node : NodeId) (start head : UInt64)
    (found : List Block) :
    (ofEntities position node start (found.map view) head).last =
        (ofEntities Block.position node start found head).last ∧
      (ofEntities position node start (found.map view) head).reached =
        (ofEntities Block.position node start found head).reached := by
  have positions : (found.map view).map position = found.map Block.position := by
    rw [List.map_map]
    exact List.map_congr_left fun b _ => same b
  simp only [ofEntities, positions, and_self]

/-- A reply ends where its entries do, and before its start if it has none. -/
theorem last_ofEntities {start : UInt64} {found : List Block} (positive : 1 ≤ start.toNat)
    (heights : found.map Block.height = List.range' start.toNat found.length) (node : NodeId)
    (head : UInt64) :
    (ofEntities Block.position node start found head).last.toNat + 1 =
      start.toNat + found.length := by
  show ((found.map Block.position).max?.getD (if start = 0 then 0 else start - 1)).toNat + 1 = _
  by_cases empty : found = []
  · have nonzero : start ≠ 0 := by
      rintro rfl
      exact absurd positive (by decide)
    have before : (start - 1).toNat = start.toNat - 1 :=
      UInt64.toNat_sub_of_le _ _ (UInt64.le_iff_toNat_le.mpr positive)
    rw [empty, List.map_nil, List.max?_nil, Option.getD_none, if_neg nonzero, before,
      List.length_nil]
    omega
  · have some_entry := List.length_pos_iff.mpr empty
    obtain ⟨b, hb, height⟩ : ∃ b ∈ found, b.height = start.toNat + found.length - 1 := by
      refine List.mem_map.mp ?_
      rw [heights, List.mem_range'_1]
      omega
    have highest : (found.map Block.position).max? = some b.position := by
      refine List.max?_eq_some_iff.mpr ⟨List.mem_map_of_mem hb, fun p hp => ?_⟩
      obtain ⟨a, ha, rfl⟩ := List.mem_map.mp hp
      have bounded : a.height ∈ found.map Block.height := List.mem_map_of_mem ha
      rw [heights, List.mem_range'_1] at bounded
      refine UInt64.le_iff_toNat_le.mpr ?_
      show a.height ≤ b.height
      omega
    rw [highest, Option.getD_some]
    show b.height + 1 = _
    omega

theorem reached_ofEntities {position : α → UInt64} {node : NodeId} {start head : UInt64}
    {entities : List α} :
    (ofEntities position node start entities head).reached = true ↔
      head.toNat ≤ (ofEntities position node start entities head).last.toNat := by
  rw [← UInt64.le_iff_toNat_le]
  exact decide_eq_true_iff

end BatchReply

/-! ## Infos and blocks -/

/-- What a client can ask for in batches: how it asks, what it reads off a reply, and what it is
given. -/
structure BatchKind (α : Type) where
  position : α → UInt64
  view : Block → α
  ask : BatchRequest → Message
  read : Message → Option (BatchReply α)
  same : ∀ b, position (view b) = b.position
  answered : ∀ (r : Responder) now q c, r.served.contains now q.id = false →
    ∃ m, r.handle now (ask q) (.ofChain c) = (.ok m, r.noting now q.id, .ofChain c) ∧
      read m = some (r.replyTo position view c q)
  refused : ∀ (r : Responder) now q c, r.served.contains now q.id = true →
    r.handle now (ask q) (.ofChain c) = (.error (.duplicateRequest q.id), r, .ofChain c)

namespace BatchKind

def infos : BatchKind BlockInfo where
  position := BlockInfo.position
  view := Block.info
  ask := .infoRequest
  read
    | .infos reply => some reply
    | _ => none
  same _ := rfl
  answered r now q c fresh := by
    refine ⟨.infos (r.replyTo BlockInfo.position Block.info c q), ?_, rfl⟩
    rw [Responder.handle_infoRequest_eq, fresh, if_neg Bool.false_ne_true]
  refused r now q c seen := by rw [Responder.handle_infoRequest_eq, seen, if_pos rfl]

def blocks : BatchKind Block where
  position := Block.position
  view := id
  ask := .blockRequest
  read
    | .blocks reply => some reply
    | _ => none
  same _ := rfl
  answered r now q c fresh := by
    refine ⟨.blocks (r.replyTo Block.position id c q), ?_, rfl⟩
    rw [Responder.handle_blockRequest_eq, fresh, if_neg Bool.false_ne_true]
  refused r now q c seen := by rw [Responder.handle_blockRequest_eq, seen, if_pos rfl]

variable {α : Type} (kind : BatchKind α) {c : Chain}

/-- What a reply says, by the number of its entries. -/
theorem replyTo_says (valid : c.Valid) (genesis : c.first.height = 1) (r : Responder)
    {q : BatchRequest} (positive : 1 ≤ q.start.toNat) :
    let found := c.range q.start.toNat (r.cap q)
    let reply := r.replyTo kind.position kind.view c q
    reply.last.toNat + 1 = q.start.toNat + found.length ∧
      (reply.reached = true ↔ c.blocks.length < q.start.toNat + found.length) := by
  intro found reply
  obtain ⟨last, reached⟩ := BatchReply.ofEntities_map kind.same r.node q.start c.head.position found
  have ends : reply.last.toNat + 1 = q.start.toNat + found.length := by
    rw [show reply.last = _ from last]
    exact BatchReply.last_ofEntities positive (valid.heights_range _ _) r.node c.head.position
  refine ⟨ends, ?_⟩
  have top : c.head.position.toNat = c.blocks.length := valid.height_head_eq genesis
  have told : reply.reached = true ↔ c.head.position.toNat ≤ reply.last.toNat :=
    BatchReply.reached_ofEntities
  rw [told, top]
  omega

/-- The reply to a request for `n` entries behind the first `m`. -/
theorem replyTo_page (valid : c.Valid) (genesis : c.first.height = 1) (r : Responder)
    {q : BatchRequest} {m n : Nat} (start : q.start.toNat = m + 1) (cap : r.cap q = n)
    (inside : m < c.blocks.length) :
    let reply := r.replyTo kind.position kind.view c q
    reply.entities = ((c.blocks.drop m).take n).map kind.view ∧
      (reply.reached = true ↔ c.blocks.length ≤ m + n) ∧
      (reply.reached = false → (reply.last + 1).toNat = m + n + 1) := by
  have positive : 1 ≤ q.start.toNat := by omega
  have entries : c.range q.start.toNat (r.cap q) = (c.blocks.drop m).take n := by
    rw [Chain.range_eq genesis positive, start, cap, Nat.add_sub_cancel]
  have length : (c.range q.start.toNat (r.cap q)).length = min n (c.blocks.length - m) := by
    rw [entries, List.length_take, List.length_drop]
  intro reply
  have last : reply.last.toNat + 1 = m + 1 + min n (c.blocks.length - m) := by
    rw [← length, ← start]
    exact (kind.replyTo_says valid genesis r positive).1
  have reached : reply.reached = true ↔ c.blocks.length < m + 1 + min n (c.blocks.length - m) := by
    rw [← length, ← start]
    exact (kind.replyTo_says valid genesis r positive).2
  refine ⟨congrArg (List.map kind.view) entries, ?_, fun more => ?_⟩
  · rw [reached]
    omega
  · -- the head is further on, and has a position
    have further : ¬c.blocks.length < m + 1 + min n (c.blocks.length - m) := by
      rw [← reached]
      exact Bool.eq_false_iff.mp more
    have top : c.head.position.toNat = c.blocks.length := valid.height_head_eq genesis
    have room := c.head.position.toNat_lt
    rw [UInt64.toNat_add, show UInt64.toNat 1 = 1 from rfl, Nat.mod_eq_of_lt (by omega)]
    omega

end BatchKind

namespace Chain

theorem serves_replyTo {α : Type} (kind : BatchKind α) {c : Chain} (valid : c.Valid)
    (genesis : c.first.height = 1) (r : Responder) (q : BatchRequest) :
    c.Serves q.start.toNat (r.cap q) (c.range q.start.toNat (r.cap q))
      (r.replyTo kind.position kind.view c q).reached where
  entries positive := valid.range_eq_filter genesis positive _
  ascending positive := by
    rw [valid.heights_range, length_range genesis positive, valid.height_head_eq genesis]
    congr 1
    omega
  outside := by
    rintro (zero | beyond)
    · rw [zero, Chain.range, if_pos (by omega)]
    · rw [valid.height_head_eq genesis] at beyond
      rw [range_eq genesis (by omega), List.drop_eq_nil_of_le (by omega), List.take_nil]
  reached positive := by
    rw [(kind.replyTo_says valid genesis r positive).2, length_range genesis positive,
      valid.height_head_eq genesis]
    omega

end Chain

end ChainNode
