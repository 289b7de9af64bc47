import ChainNode.Gossip
import ChainNode.Proofs.Node.Run
import ChainNode.Proofs.Simulation.Growth

/-!
# Deliveries of an announced block

An announcement that is under way on a hub is handed to its receiver, any of them first and any time
after it was made, and the receiver is done with it before the next one is handed over.

* `Delivers`: one delivery, with a receipt of what the receiver made of it.
* `onFreshBlock_received`: what a node makes of a fresh block.
* `Delivers.handled`: what becomes of the hub.
* `Delivers.ends`: when a receiver comes to an end with a block.
-/
namespace ChainNode

namespace SeenCache

variable {κ : Type} [DecidableEq κ] {s : SeenCache κ} {key : κ}

/-- What is not remembered any more does not come back by itself. -/
theorem contains_later {now now' : Nat} (unseen : s.contains now key = false) (later : now ≤ now') :
    s.contains now' key = false := by
  unfold contains at *
  cases found : s.entries.find? (·.1 = key) with
  | none => rfl
  | some e =>
    simp only [found, isFresh, decide_eq_false_iff_not, not_lt] at unseen ⊢
    omega

end SeenCache

namespace Node

/-- The node after it has noted an announced block. -/
def noted (hash : Label) (n : Node) : Node := { n with seen := n.seen.put n.now hash }

theorem note_eq (hash : Label) (n : Node) :
    n.note hash = if n.seen.contains n.now hash then (false, n) else (true, n.noted hash) := by
  unfold note SeenCache.insertIfAbsent
  cases n.seen.contains n.now hash <;> rfl

end Node

namespace Chain

theorem save_eq_error {b : Block} {c : Chain} {e : StoreError} (h : c.save b = .error e) :
    ∃ cause, e = .invalid cause := by
  unfold save at h
  split at h
  · cases h
    exact ⟨_, rfl⟩
  · split at h
    · cases h
      exact ⟨_, rfl⟩
    · cases h

theorem save_ne_ok {b : Block} {c : Chain} (elsewhere : b.position ≠ c.head.nextPosition)
    (c' : Chain) : c.save b ≠ .ok c' := by
  intro saved
  obtain ⟨-, follows, -⟩ := save_eq_ok_iff.mp saved
  exact elsewhere follows.position

theorem save_head_ne_ok (c c' : Chain) : c.save c.head ≠ .ok c' :=
  save_ne_ok c.head.position_ne_next c'

end Chain

namespace Simulation

open Program

/-! ## One node -/

/-- What the node `n` with the chain `l` makes of the block `b`: the outcome, and the node and the
hub afterwards. -/
inductive Received (net : Network Cluster) (rounds : Nat) (b : Block) (n : Node) (l : Chain)
    (c : Cluster) : Option (Except SyncError FreshOutcome) → World Cluster → Prop where
  | duplicate (seen : n.seen.contains n.now b.hash = true) :
      Received net rounds b n l c (some (.ok .duplicate)) ⟨n, c, []⟩
  | accepted (unseen : n.seen.contains n.now b.hash = false) {l' : Chain}
      (saved : l.save b = .ok l') :
      Received net rounds b n l c (some (.ok .accepted))
        ⟨{ n.noted b.hash with store := .ofChain l' },
          (c.broadcast n.id .freshBlock (.freshBlock b)).2,
          [.announced .freshBlock (.freshBlock b), .saved b]⟩
  | rejected (unseen : n.seen.contains n.now b.hash = false)
      (next : b.position = l.head.nextPosition) {cause : InvalidBlock}
      (refused : l.save b = .error (.invalid cause)) :
      Received net rounds b n l c (some (.ok .rejected)) ⟨n.noted b.hash, c, []⟩
  | ahead (unseen : n.seen.contains n.now b.hash = false) (above : l.head.nextPosition < b.position)
      {r : Option (Except SyncError Nat)} {w : World Cluster}
      (ran : (Reconcile.catchUp n.id n.syncSettings rounds).run net ⟨n.noted b.hash, c, []⟩ =
        (r, w)) :
      Received net rounds b n l c (r.map fun caught => caught.map .caughtUp) w
  | ignored (unseen : n.seen.contains n.now b.hash = false)
      (below : b.position < l.head.nextPosition) :
      Received net rounds b n l c (some (.ok .ignored)) ⟨n.noted b.hash, c, []⟩

variable {net : Network Cluster} {rounds : Nat} {b : Block} {n : Node} {l : Chain} {c : Cluster}

theorem onFreshBlock_received (hub : Hub n.id net) (stored : n.store = .ofChain l)
    {r : Option (Except SyncError FreshOutcome)} {w : World Cluster}
    (ran : (Gossip.onFreshBlock n.id n.syncSettings rounds b).run net ⟨n, c, []⟩ = (r, w)) :
    Received net rounds b n l c r w := by
  have stored' : (n.noted b.hash).store = .ofChain l := stored
  suffices Received net rounds b n l c
      ((Gossip.onFreshBlock n.id n.syncSettings rounds b).run net ⟨n, c, []⟩).1
      ((Gossip.onFreshBlock n.id n.syncSettings rounds b).run net ⟨n, c, []⟩).2 by rwa [ran] at this
  unfold Gossip.onFreshBlock
  rw [bind_eq, run_bind, run_command]
  simp only [Command.exec, Node.note_eq]
  by_cases seen : n.seen.contains n.now b.hash = true
  · simp only [if_pos seen]
    exact .duplicate seen
  · have unseen : n.seen.contains n.now b.hash = false := by simpa using seen
    simp only [if_neg seen, if_true]
    have head : (Program.store SyncError.store Store.latestBlock).run net ⟨n.noted b.hash, c, []⟩ =
      (some (.ok l.head), ⟨n.noted b.hash, c, []⟩) := run_latestBlock stored'
    unfold Gossip.lookAt
    rw [bind_eq, run_bind, head]
    simp only
    by_cases next : b.position = l.head.nextPosition
    · rw [if_pos next]
      unfold Gossip.extendWith
      simp only [bind_eq, run_bind, run_command, Command.exec, Node.withStore, stored',
        Store.save_ofChain]
      cases saved : l.save b with
      | error e =>
        obtain ⟨cause, rfl⟩ := Chain.save_eq_error saved
        have kept : { n.noted b.hash with store := .ofChain l } = n.noted b.hash := by
          rw [← stored']
        simp only [kept]
        exact .rejected unseen next saved
      | ok l' =>
        simp only [World.note, run_bind, run_command, Command.exec, hub.broadcast]
        exact .accepted unseen saved
    · rw [if_neg next]
      by_cases above : l.head.nextPosition < b.position
      · rw [if_pos above, bind_eq, run_bind]
        generalize ran : (Reconcile.catchUp n.id n.syncSettings rounds).run net
          ⟨n.noted b.hash, c, []⟩ = ended
        obtain ⟨r, w⟩ := ended
        have caught := Received.ahead unseen above ran
        rcases r with _ | _ | _ <;> exact caught
      · rw [if_neg above]
        exact .ignored unseen (UInt64.lt_of_le_of_ne (UInt64.not_lt.mp above) next)

/-- Whether the block was appended and passed on. -/
def wasAccepted (r : Option (Except SyncError FreshOutcome)) : Bool :=
  match r with
  | some (.ok .accepted) => true
  | _ => false

/-- A block above the next position that is not above the head: the head has the last position. -/
theorem last_of_above {b head : Block} (above : head.nextPosition < b.position)
    (high : b.height ≤ head.height) : UInt64.size ≤ head.height + 1 := by
  by_contra room
  have next := Block.toNat_nextPosition_of_lt (Nat.lt_of_not_le room)
  rw [UInt64.lt_iff_toNat_lt, next] at above
  exact absurd high (Nat.not_le_of_lt (Nat.lt_of_succ_lt above))

/-- A node that does not accept a block announces nothing and leaves the hub alone, and if its head
stands as high as the block it leaves its chain alone too. A block that could be saved is not
accepted only if it was announced before. -/
structure PassedOver (b : Block) (n : Node) (l : Chain) (c : Cluster) (w : World Cluster) :
    Prop where
  quiet : ∃ seen, Quieted ⟨{ n with seen }, c, []⟩ w
  high : b.height ≤ l.head.height → w.node.store = .ofChain l
  refused : n.seen.contains n.now b.hash = false → ∀ l', l.save b ≠ .ok l'

namespace PassedOver

theorem of_same {b : Block} {n : Node} {l : Chain} {c : Cluster} (seen : SeenCache Label)
    (stored : n.store = .ofChain l)
    (refused : n.seen.contains n.now b.hash = false → ∀ l', l.save b ≠ .ok l') :
    PassedOver b n l c ⟨{ n with seen }, c, []⟩ where
  quiet := ⟨seen, ⟨l, by rw [← stored]⟩, .refl c, rfl⟩
  high _ := stored
  refused := refused

end PassedOver

theorem Received.passedOver {r : Option (Except SyncError FreshOutcome)} {w : World Cluster}
    (h : Received net rounds b n l c r w) (hub : Hub n.id net) (stored : n.store = .ofChain l)
    (sound : c.Sound) (passed : wasAccepted r = false) : PassedOver b n l c w := by
  cases h with
  | duplicate seen =>
    refine .of_same n.seen stored fun unseen => ?_
    exact absurd (seen.symm.trans unseen) nofun
  | accepted unseen saved => cases passed
  | rejected unseen next refused =>
    refine .of_same _ stored fun _ l' saved => ?_
    cases refused.symm.trans saved
  | ignored unseen below =>
    exact .of_same _ stored fun _ => Chain.save_ne_ok (UInt64.ne_of_lt below)
  | ahead unseen above ran =>
    have quieted := Quieted.run hub
      (Reconcile.catchUp_uses n.id n.syncSettings Reconcile.writing_quiet rounds)
      (w := ⟨n.noted b.hash, c, []⟩) ⟨⟨l, stored⟩, sound⟩
    rw [ran] at quieted
    refine ⟨⟨_, quieted⟩, fun high => ?_, fun _ => Chain.save_ne_ok (UInt64.ne_of_lt above).symm⟩
    have kept := catchUp_at_last net n.id n.syncSettings rounds
      (w := ⟨n.noted b.hash, c, []⟩) stored (last_of_above above high)
    rw [ran] at kept
    rw [kept]
    exact stored

theorem Received.accepted_eq {r : Option (Except SyncError FreshOutcome)} {w : World Cluster}
    (h : Received net rounds b n l c r w) (accepted : wasAccepted r = true) :
    ∃ l', l.save b = .ok l' ∧ w = ⟨{ n.noted b.hash with store := .ofChain l' },
      (c.broadcast n.id .freshBlock (.freshBlock b)).2,
      [.announced .freshBlock (.freshBlock b), .saved b]⟩ := by
  cases h with
  | accepted unseen saved => exact ⟨_, saved, rfl⟩
  | duplicate | rejected | ignored => exact absurd accepted Bool.false_ne_true
  | @ahead _ _ r =>
    rcases r with _ | _ | _ <;> exact absurd accepted Bool.false_ne_true

/-- Whatever a node makes of a block, it keeps its id, and of the members at most the responders
change. -/
theorem Received.members {r : Option (Except SyncError FreshOutcome)} {w : World Cluster}
    (h : Received net rounds b n l c r w) (hub : Hub n.id net) (stored : n.store = .ofChain l)
    (sound : c.Sound) : w.node.id = n.id ∧ ∃ answers : Member → Responder,
      w.peers.members = c.members.map fun m => m.withResponder (answers m) := by
  cases accepted : wasAccepted r with
  | false =>
    obtain ⟨seen, ⟨l', node⟩, served, -⟩ := (h.passedOver hub stored sound accepted).quiet
    exact ⟨by rw [node], served.members⟩
  | true =>
    obtain ⟨l', -, rfl⟩ := h.accepted_eq accepted
    exact ⟨rfl, (Cluster.Served.refl c).members⟩

/-- A node that has heard of all that the hub tells of comes to an end with the block, and its chain
is still one of those. -/
theorem Received.ends {r : Option (Except SyncError FreshOutcome)} {w : World Cluster}
    {I : BlockInfo → Prop} (h : Received net rounds b n l c r w) (hub : Hub n.id net)
    (stored : n.store = .ofChain l) (sound : c.Sound) (tells : Tells I c) (regular : Regular I l)
    (told : I b.info) (plain : Plain I rounds) :
    r ≠ none ∧ ∃ l', w.node.store = .ofChain l' ∧ Regular I l' := by
  cases h with
  | duplicate | rejected | ignored => exact ⟨Option.some_ne_none _, l, stored, regular⟩
  | accepted unseen saved =>
    refine ⟨Option.some_ne_none _, _, rfl, regular.sound.save saved, fun i hi => ?_⟩
    obtain ⟨-, -, rfl⟩ := Chain.save_eq_ok_iff.mp saved
    rw [Chain.infos, Chain.blocks_push, List.map_append, List.mem_append] at hi
    rcases hi with old | new
    · exact regular.told i old
    · rw [List.mem_singleton.mp new]
      exact told
  | @ahead _ _ r w ran =>
    have ended := catchUp_ends hub plain n.id n.syncSettings rounds
      (w := ⟨n.noted b.hash, c, []⟩) ⟨⟨l, stored⟩, sound⟩ tells stored regular (by omega)
    obtain ⟨r', w', ran', regular'⟩ := ended.run
    cases ran.symm.trans ran'
    exact ⟨Option.some_ne_none _, regular'⟩

/-! ## One delivery -/

/-- What became of an announcement. -/
structure Receipt where
  receiver : NodeId
  /-- None if the receiver's rounds have run out. -/
  outcome : Option (Except SyncError FreshOutcome)
  /-- What the receiver announced. -/
  announced : List Event

def Receipt.isAccepted (r : Receipt) : Bool := wasAccepted r.outcome

def Member.later (ms : Nat) (m : Member) : Member :=
  { m with node := { m.node with now := m.node.now + ms } }

/-- Time passes, and what is under way is now `queue`. -/
def Cluster.later (ms : Nat) (queue : List Announcement) (c : Cluster) : Cluster :=
  ⟨c.members.map (Member.later ms), c.issued, queue⟩

/-- After some time an announcement is handed to its receiver, who takes it from there while nothing
else happens. -/
inductive Delivers (rounds : Nat) (c : Cluster) : Receipt → Cluster → Prop where
  | handed {before after : List Announcement} {a : Announcement} {m : Member} (ms : Nat)
      {net : Network Cluster} {r : Option (Except SyncError FreshOutcome)} {w : World Cluster}
      (underWay : c.announcements = before ++ a :: after) (receiver : c.find a.receiver = some m)
      (hub : Hub m.id net)
      (ran : (Gossip.onFreshBlock m.id m.node.syncSettings rounds a.block).run net
        ⟨(m.later ms).node, c.later ms (before ++ after), []⟩ = (r, w)) :
      Delivers rounds c ⟨a.receiver, r, w.announced⟩ (w.peers.put w.node)

/-- Nothing about the member has changed but what it stores and remembers, and the time. -/
def Member.Alike (m m' : Member) : Prop :=
  ∃ store seen responder now, m' = { m with node := { m.node with store, seen, responder, now } }

namespace Member.Alike

variable {m m' m'' : Member}

theorem refl (m : Member) : Alike m m := ⟨_, _, _, _, rfl⟩

theorem trans (h : Alike m m') (h' : Alike m' m'') : Alike m m'' := by
  obtain ⟨_, _, _, _, rfl⟩ := h
  obtain ⟨_, _, _, _, rfl⟩ := h'
  exact ⟨_, _, _, _, rfl⟩

theorem id (h : Alike m m') : m'.id = m.id := by
  obtain ⟨_, _, _, _, rfl⟩ := h
  rfl

theorem joined (h : Alike m m') : m'.joined = m.joined := by
  obtain ⟨_, _, _, _, rfl⟩ := h
  rfl

end Member.Alike

/-- How a member looks after a delivery of the block `b`, whoever has received it. -/
structure Moved (b : Block) (receipt : Receipt) (m m' : Member) : Prop where
  alike : m.Alike m'
  stored : ∃ chain, m'.node.store = .ofChain chain
  later : m.node.now ≤ m'.node.now
  elsewhere : m.id ≠ receipt.receiver →
    m'.node.store = m.node.store ∧ m'.node.seen = m.node.seen
  high : b.height ≤ m.node.head.height → (∀ l', m.node.store.chain.save b ≠ .ok l') →
    m'.node.store = m.node.store
  accepted : m.id = receipt.receiver → receipt.isAccepted = true →
    b.position = m.node.head.nextPosition ∧ m'.node.head = b
  refused : m.id = receipt.receiver → receipt.isAccepted = false →
    m.node.seen.contains m.node.now b.hash = false → ∀ l', m.node.store.chain.save b ≠ .ok l'

/-- How a hub looks after a delivery of the block `b`. -/
structure Handled (b : Block) (c : Cluster) (receipt : Receipt) (c' : Cluster) : Prop where
  members : ∃ f : Member → Member, c'.members = c.members.map f ∧
    ∀ m ∈ c.members, Moved b receipt m (f m)
  queue : ∃ before after, c.announcements = before ++ ⟨receipt.receiver, b⟩ :: after ∧
    c'.announcements = before ++ after ++
      if receipt.isAccepted then (c.others receipt.receiver).map fun id => ⟨id, b⟩ else []
  announced : receipt.announced =
    if receipt.isAccepted then [.announced .freshBlock (.freshBlock b)] else []

namespace Handled

variable {receipt : Receipt} {c' : Cluster}

/-- What is under way was so before, or the receiver has passed it on. -/
theorem relayed (h : Handled b c receipt c') {a : Announcement} (ha : a ∈ c'.announcements) :
    a ∈ c.announcements ∨ a.block = b ∧ a.receiver ∈ c.others receipt.receiver := by
  obtain ⟨before, after, queue, queue'⟩ := h.queue
  rw [queue', List.mem_append] at ha
  rcases ha with old | new
  · left
    rw [queue]
    simp only [List.mem_append, List.mem_cons] at old ⊢
    tauto
  · right
    split at new
    · obtain ⟨id, hid, rfl⟩ := List.mem_map.mp new
      exact ⟨rfl, hid⟩
    · cases new

/-- What was under way still is, unless it was for the receiver. -/
theorem stays (h : Handled b c receipt c') {a : Announcement} (ha : a ∈ c.announcements)
    (other : a.receiver ≠ receipt.receiver) : a ∈ c'.announcements := by
  obtain ⟨before, after, queue, queue'⟩ := h.queue
  have apart : a ≠ ⟨receipt.receiver, b⟩ := fun same => other (by rw [same])
  rw [queue] at ha
  rw [queue']
  simp only [List.mem_append, List.mem_cons, apart, false_or] at ha ⊢
  exact .inl ha

theorem length (h : Handled b c receipt c') : c'.announcements.length + 1 =
    c.announcements.length +
      if receipt.isAccepted then (c.others receipt.receiver).length else 0 := by
  obtain ⟨before, after, queue, queue'⟩ := h.queue
  rw [queue, queue']
  cases receipt.isAccepted <;> simp <;> omega

end Handled

/-! ## What becomes of the members -/

theorem Moved.of_elsewhere {receipt : Receipt} {m : Member}
    (stored : ∃ chain, m.node.store = .ofChain chain) (elsewhere : m.id ≠ receipt.receiver)
    (ms : Nat) (r : Responder) :
    Moved b receipt m ((m.later ms).withResponder r) where
  alike := ⟨_, _, _, _, rfl⟩
  stored := stored
  later := Nat.le_add_right _ _
  elsewhere _ := ⟨rfl, rfl⟩
  high _ _ := rfl
  accepted here _ := absurd here elsewhere
  refused here _ _ := absurd here elsewhere

theorem Moved.of_passedOver {receipt : Receipt} {m : Member} {ms : Nat} {c : Cluster}
    {w : World Cluster} (stored : m.node.store = .ofChain l)
    (passed : PassedOver b (m.later ms).node l c w) (not_accepted : receipt.isAccepted = false)
    (here : m.id = receipt.receiver) : Moved b receipt m { m with node := w.node } := by
  obtain ⟨seen, ⟨l', node⟩, -, -⟩ := passed.quiet
  refine ⟨?_, ⟨l', by rw [node]⟩, ?_, ?_, ?_, ?_, ?_⟩
  · exact ⟨_, _, _, _, by rw [node]; rfl⟩
  · rw [node]
    exact Nat.le_add_right _ _
  · exact fun other => absurd here other
  · intro high _
    rw [Node.head, stored] at high
    rw [stored]
    exact passed.high high
  · intro _ accepted
    cases not_accepted.symm.trans accepted
  · intro _ _ unseen
    rw [stored]
    exact passed.refused (SeenCache.contains_later unseen (Nat.le_add_right _ _))

theorem Moved.of_accepted {receipt : Receipt} {m : Member} {ms : Nat} {l' : Chain}
    (stored : m.node.store = .ofChain l) (saved : l.save b = .ok l')
    (accepted : receipt.isAccepted = true) (here : m.id = receipt.receiver) :
    Moved b receipt m
      { m with node := { (m.later ms).node.noted b.hash with store := .ofChain l' } } := by
  have head : m.node.head = l.head := by rw [Node.head, stored]; rfl
  refine ⟨⟨_, _, _, _, rfl⟩, ⟨_, rfl⟩, Nat.le_add_right _ _, fun other => absurd here other, ?_, ?_,
    ?_⟩
  · intro _ refused
    rw [stored] at refused
    exact absurd saved (refused l')
  · intro _ _
    obtain ⟨-, follows, rfl⟩ := Chain.save_eq_ok_iff.mp saved
    rw [head]
    exact ⟨follows.position, l.head_push b⟩
  · intro _ refused
    cases accepted.symm.trans refused

theorem Cluster.Sound.later (sound : c.Sound) (ms : Nat) (queue : List Announcement) :
    (c.later ms queue).Sound where
  distinct := by
    show ((c.members.map (Member.later ms)).map Member.id).Nodup
    rw [List.map_map]
    exact sound.distinct
  stores m hm := by
    obtain ⟨m, hm', rfl⟩ := List.mem_map.mp hm
    exact sound.stores m hm'

theorem Cluster.others_later (ms : Nat) (queue : List Announcement) (c : Cluster) (id : NodeId) :
    (c.later ms queue).others id = c.others id := by
  have joined : (c.later ms queue).joined = c.joined := by
    show ((c.members.map (Member.later ms)).filter (·.joined)).map Member.id = c.joined
    rw [List.filter_map, List.map_map]
    rfl
  rw [others, joined, others]

/-- A receiver is put back into a hub whose members have answered requests since. -/
theorem Cluster.Sound.exists_put {P : Member → Member → Prop} {m : Member} {c' : Cluster} {ms : Nat}
    {queue : List Announcement} {answers : Member → Responder} (sound : c.Sound)
    (hm : m ∈ c.members)
    (members : c'.members = (c.later ms queue).members.map fun x => x.withResponder (answers x))
    {n : Node} (same : n.id = m.id) (here : P m { m with node := n })
    (elsewhere : ∀ x ∈ c.members, x.id ≠ m.id → ∀ r, P x ((x.later ms).withResponder r)) :
    ∃ f : Member → Member, (c'.put n).members = c.members.map f ∧ ∀ x ∈ c.members, P x (f x) := by
  refine ⟨fun x => if x.id = n.id then { x with node := n }
    else (x.later ms).withResponder (answers (x.later ms)), ?_, ?_⟩
  · show c'.members.map _ = _
    rw [members, Cluster.later, List.map_map, List.map_map]
    rfl
  · intro x hx
    by_cases receiver : x.id = n.id
    · obtain rfl := sound.eq_of_id hx hm (receiver.trans same)
      simpa [receiver] using here
    · simp only [receiver, if_false]
      exact elsewhere x hx (same ▸ receiver) _

/-- What one delivery does. -/
theorem Delivers.handled {receipt : Receipt} {c' : Cluster} (h : Delivers rounds c receipt c')
    (sound : c.Sound) (about : ∀ a ∈ c.announcements, a.block = b) : Handled b c receipt c' := by
  cases h with
  | @handed before after a m ms net r w underWay receiver hub ran =>
    obtain rfl : a.block = b := about a (by simp [underWay])
    obtain ⟨hm, here⟩ := sound.find_eq_some_iff.mp receiver
    obtain ⟨l, stored⟩ := sound.stores m hm
    have received : Received net rounds a.block (m.later ms).node l (c.later ms (before ++ after))
        r w := onFreshBlock_received (n := (m.later ms).node) hub stored ran
    obtain ⟨same, answers, members⟩ := received.members hub stored (sound.later ms _)
    have elsewhere : ∀ x ∈ c.members, x.id ≠ m.id → ∀ answer,
        Moved a.block ⟨a.receiver, r, w.announced⟩ x ((x.later ms).withResponder answer) :=
      fun x hx other answer => .of_elsewhere (sound.stores x hx) (here ▸ other) ms answer
    cases accepted : wasAccepted r with
    | false =>
      have passed := received.passedOver hub stored (sound.later ms _) accepted
      obtain ⟨seen, quieted⟩ := passed.quiet
      have moved : Moved a.block ⟨a.receiver, r, w.announced⟩ m { m with node := w.node } :=
        .of_passedOver stored passed accepted here
      refine ⟨sound.exists_put hm members same moved elsewhere, ⟨before, after, underWay, ?_⟩, ?_⟩
      · rw [Receipt.isAccepted, accepted]
        exact quieted.peers.announcements.trans (List.append_nil _).symm
      · rw [Receipt.isAccepted, accepted]
        exact quieted.announced
    | true =>
      obtain ⟨l', saved, rfl⟩ := received.accepted_eq accepted
      refine ⟨sound.exists_put hm members same (.of_accepted stored saved accepted here) elsewhere,
        ⟨before, after, underWay, ?_⟩, ?_⟩
      · rw [Receipt.isAccepted, accepted, ← here, ← c.others_later ms (before ++ after)]
        rfl
      · rw [Receipt.isAccepted, accepted]
        rfl

/-! ## Deliveries that come to an end -/

/-- Every member has a regular chain. -/
def Ready (I : BlockInfo → Prop) (c : Cluster) : Prop :=
  ∀ m ∈ c.members, ∃ l, m.node.store = .ofChain l ∧ Regular I l

theorem Ready.tells {I : BlockInfo → Prop} (ready : Ready I c) (ms : Nat)
    (queue : List Announcement) : Tells I (c.later ms queue) := by
  intro m hm
  obtain ⟨m, hm', rfl⟩ := List.mem_map.mp hm
  obtain ⟨l, stored, regular⟩ := ready m hm'
  intro i hi
  refine regular.told i ?_
  rwa [show (m.later ms).node.store = .ofChain l from stored] at hi

theorem Delivers.ends {I : BlockInfo → Prop} {receipt : Receipt} {c' : Cluster}
    (h : Delivers rounds c receipt c') (sound : c.Sound) (ready : Ready I c)
    (told : ∀ a ∈ c.announcements, I a.block.info) (plain : Plain I rounds) :
    receipt.outcome ≠ none ∧ Ready I c' := by
  cases h with
  | @handed before after a m ms net r w underWay receiver hub ran =>
    obtain ⟨hm, -⟩ := sound.find_eq_some_iff.mp receiver
    obtain ⟨l, stored, regular⟩ := ready m hm
    have received : Received net rounds a.block (m.later ms).node l (c.later ms (before ++ after))
        r w := onFreshBlock_received (n := (m.later ms).node) hub stored ran
    obtain ⟨same, answers, members⟩ := received.members hub stored (sound.later ms _)
    obtain ⟨ended, here⟩ := received.ends hub stored (sound.later ms _) (ready.tells ms _) regular
      (told a (by simp [underWay])) plain
    obtain ⟨f, members', all⟩ := sound.exists_put
      (P := fun _ m' => ∃ l, m'.node.store = .ofChain l ∧ Regular I l) hm members same here
      fun x hx _ _ => ready x hx
    refine ⟨ended, fun m' hm' => ?_⟩
    rw [members'] at hm'
    obtain ⟨x, hx, rfl⟩ := List.mem_map.mp hm'
    exact all x hx

end Simulation

end ChainNode
