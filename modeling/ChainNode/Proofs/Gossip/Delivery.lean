import ChainNode.Proofs.Production.Waiting

/-!
# One delivery

A block that is announced is looked at unless it is a duplicate. Looking at it may change the chain
and nothing else of the node, whatever peers answer; and a block that can be saved is saved. So what
a delivery does is known but for the chain that catching up leaves.

* `OnlyChain`, `writing_onlyChain`: what that can change.
* `hear_cases`: all that a delivery can do; `hear_spec`: what it means for the chain and the cache.
-/
namespace ChainNode.Gossip

open Program

variable {σ : Type}

/-! ## What looking at a block can change -/

/-- Of a node with a sound chain and no faults in its store, at most the chain has changed, and it
is sound again. -/
def OnlyChain (w w' : World σ) : Prop :=
  ∀ c, w.node.store = .ofChain c → c.Sound →
    ∃ c', w'.node = { w.node with store := .ofChain c' } ∧ c'.Sound

namespace OnlyChain

variable {w w' w'' : World σ} {net : Network σ}

theorem of_node_eq (same : w'.node = w.node) : OnlyChain w w' :=
  fun c stored sound => ⟨c, by rw [same, ← stored], sound⟩

theorem trans (h : OnlyChain w w') (h' : OnlyChain w' w'') : OnlyChain w w'' := by
  intro c stored sound
  obtain ⟨c', node, sound'⟩ := h c stored sound
  obtain ⟨c'', node', sound''⟩ := h' c' (by rw [node]) sound'
  exact ⟨c'', by rw [node', node], sound''⟩

theorem of_looks {β : Type} {c : Command β} (looks : c.Looks) (w : World σ) :
    OnlyChain w (c.exec net w).2 := by
  intro d stored
  refine of_node_eq ?_ d stored
  cases c with
  | act step => exact looks w.node d stored
  | save | broadcast | busy => exact looks.elim
  | members | shuffle | newId | round => rfl

theorem of_save (b : Block) (w : World σ) : OnlyChain w ((Command.save b).exec net w).2 := by
  intro c stored sound
  simp only [Command.exec, Node.withStore, stored, Store.save_ofChain]
  cases saved : c.save b with
  | error e => exact ⟨c, rfl, sound⟩
  | ok c' => exact ⟨c', rfl, sound.save saved⟩

end OnlyChain

theorem writing_onlyChain (net : Network σ) :
    Reconcile.Writing fun c => ∀ w, OnlyChain w (c.exec net w).2 where
  asks _ asks := .of_looks asks.looks
  latestBlock := .of_looks Reconcile.looking_looks.latestBlock
  infosInRange position limit :=
    .of_looks (Reconcile.looking_looks.infosInRange position limit)
  blockAt position := .of_looks (Reconcile.looking_looks.blockAt position)
  save b := .of_save b
  removeAfter position w c stored sound := by
    change ∃ c', { w.node with store := (Store.removeAfter position w.node.store).2 } =
      ({ w.node with store := .ofChain c' } : Node) ∧ c'.Sound
    rw [stored, Store.removeAfter_ofChain]
    split
    · exact ⟨c, rfl, sound⟩
    · rename_i n c' removed
      exact ⟨c', rfl, sound.removeAfter removed⟩

/-! ## One delivery -/

section

variable (self : NodeId) (settings : SyncSettings) (rounds : Nat)

/-- Whether a run says that the block was a duplicate. -/
def isDuplicate : Option (Except SyncError FreshOutcome) → Bool
  | some (.ok .duplicate) => true
  | _ => false

theorem lookAt_uses {P : ∀ {β : Type}, Command β → Prop} (writing : Reconcile.Writing P)
    (broadcast : ∀ topic m, P (.broadcast topic m)) (b : Block) :
    (lookAt self settings rounds b).Uses P := by
  unfold lookAt
  refine (Uses.step writing.latestBlock).bind fun head => ?_
  split
  · unfold extendWith
    refine (Uses.command (writing.save b)).bind fun saved => ?_
    cases saved with
    | ok _ => exact (Uses.command (broadcast _ _)).bind fun _ => trivial
    | error e => cases e <;> trivial
  · split
    · exact (Reconcile.catchUp_uses self settings writing rounds).bind fun _ => trivial
    · trivial

theorem lookAt_returns (net : Network σ) (b : Block) (w : World σ) :
    Returns net (fun r _ => isDuplicate (some r) = false) (lookAt self settings rounds b) w := by
  have any : ∀ {α : Type} (p : Program SyncError α) (w : World σ),
      Returns net (fun _ _ => True) p w := fun p w => .of_run fun _ _ _ => trivial
  unfold lookAt
  refine (any _ w).bind (fun head w₁ _ => ?_) fun _ _ _ => rfl
  split
  · unfold extendWith
    refine (any _ w₁).bind (fun saved w₂ _ => ?_) fun _ _ _ => rfl
    cases saved with
    | ok _ => exact (any _ w₂).bind (fun _ _ _ => rfl) fun _ _ _ => rfl
    | error e => cases e <;> rfl
  · split
    · exact (any _ w₁).bind (fun _ _ _ => rfl) fun _ _ _ => rfl
    · rfl

end

/-- A block that is announced at a time. -/
structure Delivery where
  now : Nat
  block : Block

section

variable (net : Network σ) (self : NodeId) (settings : SyncSettings) (rounds : Nat)

/-- Deliver a block when it is `d.now`. -/
def hear (d : Delivery) (w : World σ) : Option (Except SyncError FreshOutcome) × World σ :=
  (onFreshBlock self settings rounds d.block).run net
    { w with node := { w.node with now := d.now } }

variable {d : Delivery} {w : World σ} {c : Chain}

theorem hear_of_contains (seen : w.node.seen.contains d.now d.block.hash = true) :
    hear net self settings rounds d w =
      (some (.ok .duplicate), { w with node := { w.node with now := d.now } }) := by
  unfold hear onFreshBlock
  simp only [bind_eq, run_bind, run_command, Command.exec, Node.note,
    SeenCache.insertIfAbsent_of_contains seen]
  rfl

theorem hear_again (seen : w.node.seen.contains d.now d.block.hash = true) :
    (hear net self settings rounds d w).1 = some (.ok .duplicate) ∧
      (hear net self settings rounds d w).2.chain = w.chain := by
  rw [hear_of_contains net self settings rounds seen]
  exact ⟨rfl, rfl⟩

/-- The node when it looks at a block. -/
def noted (d : Delivery) (n : Node) : Node :=
  { n with now := d.now, seen := n.seen.put d.now d.block.hash }

theorem hear_of_not_contains (unseen : w.node.seen.contains d.now d.block.hash = false) :
    hear net self settings rounds d w =
      (lookAt self settings rounds d.block).run net { w with node := noted d w.node } := by
  unfold hear onFreshBlock
  simp only [bind_eq, run_bind, run_command, Command.exec, Node.note,
    SeenCache.insertIfAbsent_of_not_contains unseen]
  rfl

/-- **Step.** A delivery is a duplicate, and nothing changes but the time. Or it is looked at and
noted, and at most the chain changes; if the block can be saved, it is. -/
theorem hear_cases (stored : w.node.store = .ofChain c) (sound : c.Sound) :
    (w.node.seen.contains d.now d.block.hash = true ∧
        (hear net self settings rounds d w).1 = some (.ok .duplicate) ∧
        (hear net self settings rounds d w).2.node = { w.node with now := d.now }) ∨
      w.node.seen.contains d.now d.block.hash = false ∧
        isDuplicate (hear net self settings rounds d w).1 = false ∧
        ∃ c', (hear net self settings rounds d w).2.node =
            { noted d w.node with store := .ofChain c' } ∧ c'.Sound ∧
          ∀ c'', c.save d.block = .ok c'' →
            (hear net self settings rounds d w).1 = some (.ok .accepted) ∧ c' = c'' := by
  cases seen : w.node.seen.contains d.now d.block.hash with
  | true => exact .inl (by simp [hear_of_contains net self settings rounds seen])
  | false =>
    let w₁ : World σ := { w with node := noted d w.node }
    have ran : hear net self settings rounds d w =
        (lookAt self settings rounds d.block).run net w₁ :=
      hear_of_not_contains net self settings rounds seen
    have uses := lookAt_uses self settings rounds (writing_onlyChain net)
      (fun _ _ _ => .of_node_eq rfl) d.block
    obtain ⟨c', node, sound'⟩ := uses.run (R := OnlyChain) (fun _ => .of_node_eq rfl)
      (fun h h' => h.trans h') (fun _ w h => h w) w₁ c stored sound
    have returns := lookAt_returns self settings rounds net d.block w₁
    refine .inr ⟨rfl, ?_, c', by rw [ran]; exact node, sound', fun c'' saved => ?_⟩
    · rw [ran]
      rcases returned : (lookAt self settings rounds d.block).run net w₁ with ⟨r, w'⟩
      cases r with
      | none => rfl
      | some r => exact returns.run returned
    · have stored₁ : ({ w.node with now := d.now } : Node).store = .ofChain c := stored
      obtain ⟨w', accepted, -, chain, -⟩ :=
        Production.onFreshBlock_accepts net self settings rounds
          (w := { w with node := { w.node with now := d.now } }) stored₁ seen saved
      have heard : hear net self settings rounds d w = (some (.ok .accepted), w') := accepted
      rw [← ran, heard] at node
      refine ⟨congrArg Prod.fst heard, ?_⟩
      rw [World.chain, node] at chain
      exact chain

/-- What a delivery comes to for the chain and for the cache. -/
theorem hear_spec (stored : w.node.store = .ofChain c) (sound : c.Sound) (d : Delivery) :
    (∃ c', (hear net self settings rounds d w).2.node.store = .ofChain c' ∧ c'.Sound) ∧
      (hear net self settings rounds d w).2.node.seen =
        (w.node.seen.insertIfAbsent d.now d.block.hash).2 ∧
      isDuplicate (hear net self settings rounds d w).1 =
        !(w.node.seen.insertIfAbsent d.now d.block.hash).1 := by
  rcases hear_cases net self settings rounds stored sound with
    ⟨seen, again, node⟩ | ⟨unseen, first, c', node, sound', -⟩
  · rw [node, again, SeenCache.insertIfAbsent_of_contains seen]
    exact ⟨⟨c, stored, sound⟩, rfl, rfl⟩
  · rw [node, first, SeenCache.insertIfAbsent_of_not_contains unseen]
    exact ⟨⟨c', rfl, sound'⟩, rfl, rfl⟩

end

end ChainNode.Gossip
