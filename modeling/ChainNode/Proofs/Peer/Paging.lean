import ChainNode.Proofs.Peer.Batch
import ChainNode.Proofs.Peer.Honest
import ChainNode.Proofs.Sample

/-!
# Paging through what a responder has

A client asks for its next page from the position after the last one that it has been told of, each
time under an id that the responder does not remember, and stops when a reply says that the head is
reached. In between the responder may be asked anything by anybody. The client gets every block
once: its pages are full up to the last, which ends with the head.

* `Paging.step`, `Paging.run`: what client and responder do.
* `Paging.Sound.step`, `Paging.Sound.run`: the pages that the client has.
* `pages_cover`: what a responder serves, and what paging brings.
-/
namespace ChainNode

/-- A responder with its store, and a client that pages through it: the position that the client
asks for next, whether it has seen the head, and the pages that it has. -/
structure Paging (α : Type) where
  responder : Responder
  store : Store
  next : UInt64
  done : Bool
  pages : List (List α)

namespace Paging

variable {α : Type}

/-- Before the first request. -/
def start (r : Responder) (c : Chain) : Paging α := ⟨r, .ofChain c, 1, false, []⟩

/-- What happens: the client asks for its next page under some id, or the responder hears another
message or sweeps its cache. -/
inductive Event where
  | ask (now : Nat) (id : RequestId)
  | other (now : Nat) (m : Message)
  | sweep (now : Nat)
  deriving DecidableEq, Repr

/-- The client takes an answer: a reply is its next page, and a refusal changes nothing for it. -/
def hear (kind : BatchKind α) (p : Paging α) (a : Responder.Answer) : Paging α :=
  match a.1.toOption.bind kind.read with
  | none => { p with responder := a.2.1, store := a.2.2 }
  | some reply => ⟨a.2.1, a.2.2, reply.last + 1, reply.reached, p.pages ++ [reply.entities]⟩

/-- A client that has seen the head asks no more. -/
def step (kind : BatchKind α) (q : BatchRequest) (p : Paging α) : Event → Paging α
  | .ask now id =>
    if p.done then p
    else p.hear kind
      (p.responder.handle now (kind.ask { q with id := id, start := p.next }) p.store)
  | .other now m =>
    let a := p.responder.handle now m p.store
    { p with responder := a.2.1, store := a.2.2 }
  | .sweep now => { p with responder := (p.responder.purge now).2 }

def run (kind : BatchKind α) (q : BatchRequest) (events : List Event) (p : Paging α) : Paging α :=
  events.foldl (step kind q) p

/-- The client asks under an id that the responder does not remember. -/
def fresh (p : Paging α) : Event → Nat
  | .ask now id => if p.responder.served.contains now id then 0 else 1
  | .other _ _ => 0
  | .sweep _ => 0

/-- How often it does so. -/
def freshCount (kind : BatchKind α) (q : BatchRequest) : List Event → Paging α → Nat
  | [], _ => 0
  | e :: es, p => p.fresh e + freshCount kind q es (p.step kind q e)

/-- How many pages of `n` blocks a chain has. -/
def pageCount (c : Chain) (n : Nat) : Nat := (c.blocks.length + n - 1) / n

theorem lt_pageCount {c : Chain} {n : Nat} (positive : 1 ≤ n) (k : Nat) :
    k < pageCount c n ↔ k * n < c.blocks.length := by
  rw [pageCount, ← Nat.succ_le_iff, Nat.le_div_iff_mul_le positive, Nat.succ_mul]
  omega

/-- A client that asks for `n` entries at a time has full pages, up to the one with the head. -/
structure Sound (kind : BatchKind α) (c : Chain) (maxBatch n : Nat) (p : Paging α) : Prop where
  store : p.store = .ofChain c
  cap : p.responder.maxBatch = maxBatch
  pages : p.pages.flatten = (c.blocks.take (p.pages.length * n)).map kind.view
  bounded : p.pages.length ≤ pageCount c n
  done : p.done = true ↔ p.pages.length = pageCount c n
  next : p.done = false → p.next.toNat = p.pages.length * n + 1

variable {kind : BatchKind α} {c : Chain} {n : Nat} {q : BatchRequest} {p : Paging α}

/-! ### Step -/

section Asking

variable {now : Nat} {id : RequestId}

theorem step_ask_of_done (done : p.done = true) : p.step kind q (.ask now id) = p := if_pos done

theorem step_ask (asking : p.done = false) : p.step kind q (.ask now id) = p.hear kind
    (p.responder.handle now (kind.ask { q with id := id, start := p.next }) p.store) :=
  if_neg (by simp [asking])

theorem step_ask_of_seen (asking : p.done = false) (store : p.store = .ofChain c)
    (seen : p.responder.served.contains now id = true) : p.step kind q (.ask now id) = p := by
  rw [step_ask asking, store, kind.refused _ _ _ _ seen]
  show { p with responder := p.responder, store := Store.ofChain c } = p
  rw [← store]

theorem step_ask_of_fresh (asking : p.done = false) (store : p.store = .ofChain c)
    (unseen : p.responder.served.contains now id = false) :
    let reply := p.responder.replyTo kind.position kind.view c { q with id := id, start := p.next }
    p.step kind q (.ask now id) = ⟨p.responder.noting now id, .ofChain c, reply.last + 1,
      reply.reached, p.pages ++ [reply.entities]⟩ := by
  intro reply
  obtain ⟨m, handled, read⟩ :=
    kind.answered p.responder now { q with id := id, start := p.next } c unseen
  have taken : (Except.ok m : Except SyncError Message).toOption.bind kind.read = some reply := read
  rw [step_ask asking, store, handled, hear, taken]

end Asking

namespace Sound

variable {maxBatch : Nat}

/-- What the responder is told besides changes nothing for the client. -/
theorem responder (h : p.Sound kind c maxBatch n) {r : Responder} (cap : r.maxBatch = maxBatch) :
    Sound kind c maxBatch n { p with responder := r } where
  store := h.store
  cap := cap
  pages := h.pages
  bounded := h.bounded
  done := h.done
  next := h.next

/-- One page more. -/
theorem page (h : p.Sound kind c maxBatch n) (valid : c.Valid) (genesis : c.first.height = 1)
    (size : n = min q.size.toNat (2 * maxBatch)) (positive : 1 ≤ n) (asking : p.done = false)
    {now : Nat} {id : RequestId} (unseen : p.responder.served.contains now id = false) :
    (p.step kind q (.ask now id)).Sound kind c maxBatch n ∧
      (p.step kind q (.ask now id)).pages.length = p.pages.length + 1 := by
  have below : p.pages.length < pageCount c n := by
    have unfinished : p.pages.length ≠ pageCount c n := fun full => by
      rw [h.done.mpr full] at asking
      cases asking
    exact Nat.lt_of_le_of_ne h.bounded unfinished
  have cap : p.responder.cap { q with id := id, start := p.next } = n := by
    rw [Responder.cap, h.cap, size]
  have inside := (lt_pageCount positive _).mp below
  have more := lt_pageCount (c := c) positive (p.pages.length + 1)
  rw [Nat.succ_mul] at more
  obtain ⟨entities, reached, next⟩ := kind.replyTo_page valid genesis p.responder
    (q := { q with id := id, start := p.next }) (h.next asking) cap inside
  rw [step_ask_of_fresh asking h.store unseen]
  generalize p.responder.replyTo kind.position kind.view c { q with id := id, start := p.next } =
    reply at entities reached next
  have length : (p.pages ++ [reply.entities]).length = p.pages.length + 1 := by simp
  refine ⟨⟨rfl, h.cap, ?_, ?_, ?_, ?_⟩, length⟩
  · simp only [length, Nat.succ_mul]
    rw [List.flatten_concat, h.pages, entities, List.take_add, List.map_append]
  · exact length.symm ▸ below
  · simp only [length]
    rw [reached]
    omega
  · simp only [length, Nat.succ_mul]
    exact next

/-- **Step.** A request under an id that the responder does not remember brings a page, as long as
there is one. -/
theorem step (h : p.Sound kind c maxBatch n) (valid : c.Valid) (genesis : c.first.height = 1)
    (size : n = min q.size.toNat (2 * maxBatch)) (positive : 1 ≤ n) (e : Event) :
    (p.step kind q e).Sound kind c maxBatch n ∧
      (p.step kind q e).pages.length = min (p.pages.length + p.fresh e) (pageCount c n) := by
  have unchanged : p.pages.length = min (p.pages.length + 0) (pageCount c n) :=
    (Nat.min_eq_left h.bounded).symm
  cases e with
  | other now m =>
    obtain ⟨store, cap⟩ := p.responder.handle_keeps now m c
    have kept : p.step kind q (.other now m) =
        { p with responder := (p.responder.handle now m (.ofChain c)).2.1 } := by
      rw [Paging.step, h.store, store, ← h.store]
    rw [kept]
    exact ⟨h.responder (cap.trans h.cap), unchanged⟩
  | sweep now => exact ⟨h.responder h.cap, unchanged⟩
  | ask now id =>
    cases done : p.done with
    | true =>
      rw [step_ask_of_done done]
      have full := h.done.mp done
      exact ⟨h, by omega⟩
    | false =>
      cases seen : p.responder.served.contains now id with
      | true =>
        rw [step_ask_of_seen done h.store seen, fresh, if_pos seen]
        exact ⟨h, unchanged⟩
      | false =>
        obtain ⟨sound, length⟩ := h.page valid genesis size positive done seen
        have bounded := sound.bounded
        rw [fresh, if_neg (by simp [seen])]
        exact ⟨sound, by omega⟩

/-- **Run.** By induction on what happens, for any number of pages at its beginning. -/
theorem run (h : p.Sound kind c maxBatch n) (valid : c.Valid) (genesis : c.first.height = 1)
    (size : n = min q.size.toNat (2 * maxBatch)) (positive : 1 ≤ n) (events : List Event) :
    (p.run kind q events).Sound kind c maxBatch n ∧
      (p.run kind q events).pages.length =
        min (p.pages.length + p.freshCount kind q events) (pageCount c n) := by
  induction events generalizing p with
  | nil => exact ⟨h, (Nat.min_eq_left h.bounded).symm⟩
  | cons e events ih =>
    obtain ⟨sound, length⟩ := h.step valid genesis size positive e
    obtain ⟨sound', length'⟩ := ih sound
    refine ⟨sound', ?_⟩
    rw [freshCount]
    rw [length] at length'
    refine length'.trans ?_
    omega

/-- The first request asks for position 1. -/
theorem start (kind : BatchKind α) (c : Chain) (r : Responder) {n : Nat} (positive : 1 ≤ n) :
    (start r c : Paging α).Sound kind c r.maxBatch n where
  store := rfl
  cap := rfl
  pages := by simp [Paging.start]
  bounded := Nat.zero_le _
  done := by
    have some_page : 0 < pageCount c n := by
      rw [lt_pageCount positive, Nat.zero_mul, c.length_blocks]
      omega
    exact ⟨nofun, fun none => absurd none.symm (Nat.ne_of_gt some_page).symm.symm⟩
  next _ := by simp [Paging.start]

end Sound

/-- What a client has that asked for `n` entries at a time, under fresh ids `asked` times. -/
structure Covers (kind : BatchKind α) (c : Chain) (n asked : Nat) (p : Paging α) : Prop where
  length : p.pages.length = min asked (pageCount c n)
  pages : p.pages.flatten = (c.blocks.take (asked * n)).map kind.view
  done : p.done = true ↔ pageCount c n ≤ asked
  whole : p.done = true → p.pages.flatten = c.blocks.map kind.view

theorem covers {r : Responder} (valid : c.Valid) (genesis : c.first.height = 1)
    (size : n = min q.size.toNat (2 * r.maxBatch)) (positive : 1 ≤ n) (events : List Event) :
    ((start r c).run kind q events).Covers kind c n ((start r c).freshCount kind q events) := by
  obtain ⟨sound, length⟩ := (Sound.start kind c r positive).run valid genesis size positive events
  generalize (start r c).run kind q events = p at sound length
  generalize (start r c).freshCount kind q events = asked at length
  have length : p.pages.length = min asked (pageCount c n) := by
    simpa [start] using length
  have full : c.blocks.length ≤ pageCount c n * n :=
    Nat.le_of_not_lt fun more => Nat.lt_irrefl _ ((lt_pageCount positive _).mpr more)
  have pages : p.pages.flatten = (c.blocks.take (asked * n)).map kind.view := by
    rw [sound.pages, length]
    rcases Nat.le_total asked (pageCount c n) with few | many
    · rw [Nat.min_eq_left few]
    · rw [Nat.min_eq_right many, List.take_of_length_le full,
        List.take_of_length_le (full.trans (Nat.mul_le_mul_right n many))]
  have done : p.done = true ↔ pageCount c n ≤ asked := by
    rw [sound.done, length]
    omega
  refine ⟨length, pages, done, fun all => ?_⟩
  have all := done.mp all
  rw [pages, List.take_of_length_le (full.trans (Nat.mul_le_mul_right n all))]

end Paging

namespace Responder

variable {c : Chain} {r : Responder} {settings : SyncSettings}

/-- **A responder serves exact ranges.** A responder over a valid chain from position 1, whatever
its settings and whatever it has served before, answers every request whose id it does not remember
with the blocks, or their infos, at the positions that were asked for, as many as it is willing to
give; and it says that the head is reached if these positions go as far. A client that asks for at
least one entry at a time, from position 1 on, gets the next page whenever it asks under such an id,
whatever the responder is asked besides. The pages that it has are the chain from its start, so
every block once and in order; it stops when it has all of them, and this takes as many requests as
the chain has pages. -/
theorem pages_cover (valid : c.Valid) (genesis : c.first.height = 1)
    (alike : r.maxBatch = (Responder.new r.node settings).maxBatch) :
    (∀ now q, r.served.contains now q.id = false →
      ∃ blocks infos,
        (r.handle now (.blockRequest q) (.ofChain c)).1 = .ok (.blocks blocks) ∧
        (r.handle now (.infoRequest q) (.ofChain c)).1 = .ok (.infos infos) ∧
        c.Serves q.start.toNat (settings.served q.size) blocks.entities blocks.reached ∧
        infos.entities = blocks.entities.map Block.info ∧ infos.reached = blocks.reached) ∧
    ∀ q, 1 ≤ settings.served q.size → ∀ events,
      ((Paging.start r c).run .blocks q events).Covers .blocks c (settings.served q.size)
        ((Paging.start r c).freshCount .blocks q events) ∧
      ((Paging.start r c).run .infos q events).Covers .infos c (settings.served q.size)
        ((Paging.start r c).freshCount .infos q events) := by
  constructor
  · intro now q unseen
    refine ⟨r.replyTo Block.position id c q, r.replyTo BlockInfo.position Block.info c q,
      ?_, ?_, ?_, ?_, ?_⟩
    · rw [handle_blockRequest_eq, unseen, if_neg Bool.false_ne_true]
    · rw [handle_infoRequest_eq, unseen, if_neg Bool.false_ne_true]
    · have serves := Chain.serves_replyTo .blocks valid genesis r q
      rw [Responder.cap_eq alike] at serves
      show c.Serves _ _ ((c.range q.start.toNat (r.cap q)).map id) _
      rw [List.map_id, Responder.cap_eq alike]
      exact serves
    · show _ = ((c.range q.start.toNat (r.cap q)).map id).map Block.info
      rw [List.map_id]
      rfl
    · have viewed := BatchReply.ofEntities_map BatchKind.infos.same r.node q.start
        c.head.position (c.range q.start.toNat (r.cap q))
      have plain := BatchReply.ofEntities_map BatchKind.blocks.same r.node q.start
        c.head.position (c.range q.start.toNat (r.cap q))
      exact viewed.2.trans plain.2.symm
  · intro q positive events
    have size : settings.served q.size = min q.size.toNat (2 * r.maxBatch) :=
      (Responder.cap_eq alike q).symm
    exact ⟨Paging.covers valid genesis size positive events,
      Paging.covers valid genesis size positive events⟩

/-- Two blocks in pages of one. An id that is used again brings nothing. -/
theorem pages_cover_two :
    let c := Chain.new.push Sample.second
    let settings := { SyncSettings.testing with scanWindow := 1, batchSize := 1 }
    let r := Responder.new "peer" settings
    let q : BatchRequest := ⟨.numbered 0, 1, 1, .blockSync, 1, 0, none⟩
    let events : List Paging.Event := [.ask 0 (.numbered 1), .ask 1 (.numbered 1),
      .other 2 (.blockRequest q), .ask 3 (.numbered 2)]
    c.Valid ∧ c.first.height = 1 ∧ r.maxBatch = (Responder.new r.node settings).maxBatch ∧
      (∃ reply, (r.handle 0 (.blockRequest q) (.ofChain c)).1 = .ok (.blocks reply) ∧
        c.Serves 1 1 reply.entities reply.reached) ∧
      (Paging.start r c).freshCount .blocks q events = 2 ∧ Paging.pageCount c 1 = 2 ∧
      ((Paging.start r c).run .blocks q events).pages.flatten = c.blocks := by
  intro c settings r q events
  have valid : c.Valid := Chain.valid_second
  have genesis : c.first.height = 1 := rfl
  have alike : r.maxBatch = (Responder.new r.node settings).maxBatch := rfl
  obtain ⟨serves, covers⟩ := pages_cover valid genesis alike
  obtain ⟨reply, -, given, -, served, -⟩ := serves 0 q rfl
  have asked : (Paging.start r c).freshCount .blocks q events = 2 := by
    decide +kernel
  have pages : Paging.pageCount c 1 = 2 := by
    rw [Paging.pageCount, show c.blocks.length = 2 from rfl]
  have all := (covers q (Nat.le_refl 1) events).1
  rw [asked] at all
  exact ⟨valid, genesis, alike, ⟨reply, given, served⟩, asked, pages,
    (all.whole (all.done.mpr (Nat.le_of_eq pages))).trans (List.map_id _)⟩

end Responder

end ChainNode
