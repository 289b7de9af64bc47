import Mathlib.Data.List.Nodup
import ChainNode.Proofs.Peer.Responder
import ChainNode.Proofs.Reconcile.Commands
import ChainNode.Simulation.Cluster

/-!
# What a quiet program does to a hub

`Hub id net` says that the node `id` works in a network in which requests are answered by the
members and a broadcast is put into their queue. Whom a node takes for active, in which order a list
comes out of a shuffle, which ids requests get and how long members take is left open.

A member that is asked notes the request and does nothing else. So a quiet program leaves the other
members as they are, their responders aside, and nothing new under way.

* `Sound`: the members have ids of their own and stores without faults.
* `Served`: how a hub looks after requests.
* `Quieted.run`: what a quiet program does to the node that runs it and to the hub.
-/
namespace ChainNode

theorem Node.handle_snd {n : Node} {c : Chain} (stored : n.store = .ofChain c) (m : Message) :
    ∃ r, (n.handle m).2 = { n with responder := r } := by
  refine ⟨(n.responder.handle n.now m n.store).2.1, ?_⟩
  show { n with
    responder := (n.responder.handle n.now m n.store).2.1
    store := (n.responder.handle n.now m n.store).2.2 } = _
  rw [stored, (n.responder.handle_keeps n.now m c).1, ← stored]

def Event.isAnnounced : Event → Bool
  | .announced _ _ => true
  | _ => false

/-- What the node has announced. -/
def World.announced {σ : Type} (w : World σ) : List Event := w.events.filter Event.isAnnounced

namespace Simulation

variable {id : NodeId} {net : Network Cluster} {c c' c'' : Cluster}

def Member.withResponder (r : Responder) (m : Member) : Member :=
  { m with node := { m.node with responder := r } }

namespace Cluster

structure Sound (c : Cluster) : Prop where
  distinct : (c.members.map Member.id).Nodup
  stores : ∀ m ∈ c.members, ∃ chain, m.node.store = .ofChain chain

theorem Sound.eq_of_id (sound : c.Sound) {m m' : Member} (hm : m ∈ c.members)
    (hm' : m' ∈ c.members) (same : m.id = m'.id) : m = m' :=
  List.inj_on_of_nodup_map sound.distinct hm hm' same

theorem Sound.find_eq_some_iff (sound : c.Sound) {id : NodeId} {m : Member} :
    c.find id = some m ↔ m ∈ c.members ∧ m.id = id := by
  constructor
  · intro found
    exact ⟨List.mem_of_find?_eq_some found, by simpa using List.find?_some found⟩
  · rintro ⟨hm, rfl⟩
    cases found : c.find m.id with
    | none => simpa using List.find?_eq_none.mp found m hm
    | some m' =>
      have same : m'.id = m.id := by simpa using List.find?_some found
      rw [sound.eq_of_id (List.mem_of_find?_eq_some found) hm same]

/-! ## Requests -/

/-- Members have answered requests. -/
structure Served (c c' : Cluster) : Prop where
  members : ∃ r : Member → Responder, c'.members = c.members.map fun m => m.withResponder (r m)
  announcements : c'.announcements = c.announcements

namespace Served

theorem of_eq (members : c'.members = c.members)
    (announcements : c'.announcements = c.announcements) : Served c c' :=
  ⟨⟨fun m => m.node.responder, by rw [members]; exact (List.map_id' _).symm⟩, announcements⟩

theorem refl (c : Cluster) : Served c c := of_eq rfl rfl

theorem trans (h : Served c c') (h' : Served c' c'') : Served c c'' := by
  obtain ⟨r, hr⟩ := h.members
  obtain ⟨r', hr'⟩ := h'.members
  refine ⟨⟨fun m => r' (m.withResponder (r m)), ?_⟩, h'.announcements.trans h.announcements⟩
  rw [hr', hr, List.map_map]
  rfl

theorem sound (h : Served c c') (sound : c.Sound) : c'.Sound := by
  obtain ⟨r, hr⟩ := h.members
  constructor
  · rw [hr, List.map_map]
    exact sound.distinct
  · intro m hm
    rw [hr] at hm
    obtain ⟨m, hm', rfl⟩ := List.mem_map.mp hm
    exact sound.stores m hm'

end Served

theorem Sound.served_answer (sound : c.Sound) (id : NodeId) (m : Message) :
    Served c (c.answer id m).2 := by
  unfold answer
  cases found : c.find id with
  | none => exact .refl c
  | some member =>
    obtain ⟨hmember, -⟩ := sound.find_eq_some_iff.mp found
    obtain ⟨chain, stored⟩ := sound.stores member hmember
    obtain ⟨r, answered⟩ := Node.handle_snd stored m
    refine ⟨⟨fun x => if x.id = member.id then r else x.node.responder, ?_⟩, rfl⟩
    show (c.put (member.node.handle m).2).members = _
    rw [answered]
    refine List.map_congr_left fun x hx => ?_
    show (if x.id = member.id then _ else x) = _
    by_cases same : x.id = member.id
    · obtain rfl := sound.eq_of_id hx hmember same
      simp [Member.withResponder]
    · simp [same, Member.withResponder]

theorem Sound.served_handle (sound : c.Sound) (id : NodeId) (m : Message) :
    Served c (c.handle id m).2 := by
  unfold handle
  split
  · exact sound.served_answer id m
  · exact .refl c

end Cluster

/-! ## Programs -/

/-- The network of a node on a hub. -/
structure Hub (id : NodeId) (net : Network Cluster) : Prop where
  handle : net.handle = Cluster.handle
  broadcast : net.broadcast = Cluster.broadcast id
  shuffle : ∀ ids c, (net.shuffle ids c).2.members = c.members ∧
    (net.shuffle ids c).2.announcements = c.announcements
  newId : ∀ c, (net.newId c).2.members = c.members ∧
    (net.newId c).2.announcements = c.announcements

theorem Cluster.network_hub (id : NodeId) : Hub id (Cluster.network id) where
  handle := rfl
  broadcast := rfl
  shuffle _ _ := ⟨rfl, rfl⟩
  newId _ := ⟨rfl, rfl⟩

/-- A node and its hub before and after quiet commands: the node has written its chain, and other
members have answered requests. -/
structure Quieted (w w' : World Cluster) : Prop where
  node : ∃ chain, w'.node = { w.node with store := .ofChain chain }
  peers : w.peers.Served w'.peers
  announced : w'.announced = w.announced

namespace Quieted

variable {w w' w'' : World Cluster}

theorem trans (h : Quieted w w') (h' : Quieted w' w'') : Quieted w w'' := by
  obtain ⟨chain, hnode⟩ := h.node
  obtain ⟨chain', hnode'⟩ := h'.node
  exact ⟨⟨chain', by rw [hnode', hnode]⟩, h.peers.trans h'.peers, h'.announced.trans h.announced⟩

end Quieted

theorem Cluster.Sound.served_by (hub : Hub id net) (target : NodeId) (m : Message)
    (sound : c.Sound) : c.Served (net.handle target m c).2 := by
  rw [hub.handle]
  exact sound.served_handle target m

/-- A round asks members, and no more. -/
theorem Cluster.Sound.served_round (hub : Hub id net) {β : Type} (r : Round β) {w : World Cluster}
    (sound : w.peers.Sound) : w.peers.Served (w.round net r).2.peers := by
  refine World.round_peers (R := fun c c' : Cluster => c.Sound → c.Served c')
    (fun c _ => .refl c) ?_ ?_ r w sound
  · intro c c' c'' h h' sound
    exact (h sound).trans (h' ((h sound).sound sound))
  · intro target m c sound
    exact sound.served_by hub target m

/-- A world in which no store has faults. -/
structure Faultless (w : World Cluster) : Prop where
  node : ∃ chain, w.node.store = .ofChain chain
  peers : w.peers.Sound

theorem Quieted.of_served {w : World Cluster} (faultless : Faultless w) {c : Cluster}
    (served : w.peers.Served c) : Quieted w { w with peers := c } := by
  obtain ⟨chain, stored⟩ := faultless.node
  exact ⟨⟨chain, by rw [← stored]⟩, served, rfl⟩

theorem Quieted.faultless {w w' : World Cluster} (h : Quieted w w') (faultless : Faultless w) :
    Faultless w' := by
  obtain ⟨chain, hnode⟩ := h.node
  exact ⟨⟨chain, by rw [hnode]⟩, h.peers.sound faultless.peers⟩

/-- Command by command. -/
theorem Quieted.exec (hub : Hub id net) {β : Type} (command : Command β) (w : World Cluster)
    (quiet : command.Quiet) (faultless : Faultless w) : Quieted w (command.exec net w).2 := by
  obtain ⟨chain, stored⟩ := faultless.node
  cases command with
  | act step => exact ⟨quiet w.node chain stored, .refl _, rfl⟩
  | save b =>
    simp only [Command.exec, Node.withStore, stored, Store.save_ofChain]
    cases chain.save b with
    | error e => exact ⟨⟨chain, rfl⟩, .refl _, rfl⟩
    | ok chain' => exact ⟨⟨chain', rfl⟩, .refl _, rfl⟩
  | members => exact .of_served faultless (.refl _)
  | shuffle ids =>
    obtain ⟨members, announcements⟩ := hub.shuffle ids w.peers
    exact .of_served faultless (.of_eq members announcements)
  | newId =>
    obtain ⟨members, announcements⟩ := hub.newId w.peers
    exact .of_served faultless (.of_eq members announcements)
  | round r =>
    refine ⟨⟨chain, ?_⟩, faultless.peers.served_round hub r, rfl⟩
    rw [← stored]
    rfl
  | broadcast topic m => exact quiet.elim
  | busy => exact quiet.elim

theorem Quieted.run (hub : Hub id net) {ε α : Type} {p : Program ε α} (quiet : p.Uses Command.Quiet)
    {w : World Cluster} (faultless : Faultless w) : Quieted w (p.run net w).2 := by
  refine quiet.run (R := fun w w' => Faultless w → Quieted w w') ?_ ?_ ?_ w faultless
  · exact fun w faultless => .of_served faultless (.refl _)
  · intro w w' w'' h h' faultless
    exact (h faultless).trans (h' ((h faultless).faultless faultless))
  · exact fun command w quiet faultless => .exec hub command w quiet faultless

end Simulation

end ChainNode
