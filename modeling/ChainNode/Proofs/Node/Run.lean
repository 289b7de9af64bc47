import ChainNode.Node.Run
import ChainNode.Proofs.Chain.Span

/-!
# Using the chain while a program runs

A store without faults does what the chain's operations do, so a program that reads the chain goes
on in the world in which it was started, and one that writes it goes on in a world that differs in
the chain alone. `Rewritten` is that difference; what a node keeps beside its chain and what its
peers are like is carried through by it.

* `run_latestBlock`, `run_infosInRange`, `run_blockAt`: reading.
* `run_removeAfter`, `exec_save`, `exec_save_known`: writing.
-/
namespace ChainNode

variable {σ : Type}

/-- `w'` is `w` with the chain `c` in the node's store, whatever was noted on the way. -/
structure World.Rewritten (c : Chain) (w w' : World σ) : Prop where
  node : w'.node = { w.node with store := .ofChain c }
  peers : w'.peers = w.peers

/-- The world with another chain in the node's store. -/
def World.withChain (c : Chain) (w : World σ) : World σ :=
  { w with node := { w.node with store := .ofChain c } }

namespace World.Rewritten

variable {c d : Chain} {w w' w'' : World σ}

theorem refl (h : w.node.store = .ofChain c) : Rewritten c w w := ⟨by rw [← h], rfl⟩

theorem trans (h : Rewritten c w w') (h' : Rewritten d w' w'') : Rewritten d w w'' :=
  ⟨by rw [h'.node, h.node], h'.peers.trans h.peers⟩

theorem store (h : Rewritten c w w') : w'.node.store = .ofChain c := by rw [h.node]

end World.Rewritten

namespace Program

variable {ε α : Type} {net : Network σ} {w : World σ} {c : Chain}

/-- An operation that leaves the store as it is leaves the world as it is. -/
theorem run_read {wrap : StoreError → ε} {op : Store.Op α} {a : α}
    (h : op w.node.store = (.ok a, w.node.store)) :
    (Program.store wrap op).run net w = (some (.ok a), w) := by
  simp only [Program.store, step, run, Command.exec, Node.withStore, h, Except.mapError]

section

variable (stored : w.node.store = .ofChain c)

include stored

theorem run_latestBlock {wrap : StoreError → ε} :
    (Program.store wrap Store.latestBlock).run net w = (some (.ok c.head), w) :=
  run_read (by rw [stored, Store.latestBlock_ofChain])

theorem run_infosInRange {wrap : StoreError → ε} (position limit : Nat) :
    (Program.store wrap (Store.infosInRange position limit)).run net w =
      (some (.ok (c.span position limit)), w) :=
  run_read (by rw [stored, Store.infosInRange_ofChain, Chain.span])

theorem run_blockAt {wrap : StoreError → ε} (position : Nat) :
    (Program.store wrap (Store.blockAt position)).run net w = (some (.ok (c.at? position)), w) :=
  run_read (by rw [stored, Store.blockAt_ofChain])

end

theorem run_removeAfter (net : Network σ) (wrap : StoreError → ε)
    (stored : w.node.store = .ofChain c) {position : Nat} (h : c.first.height ≤ position) :
    ∃ n w', (Program.store wrap (Store.removeAfter position)).run net w = (some (.ok n), w') ∧
      World.Rewritten (c.cut (position - c.first.height)) w w' := by
  have hr := Chain.removeAfter_eq_ok_iff.mpr ⟨h, rfl, rfl⟩
  refine ⟨c.later.length - (position - c.first.height), w.withChain _, ?_, ⟨rfl, rfl⟩⟩
  simp only [Program.store, step, run, Command.exec, Node.withStore, stored,
    Store.removeAfter_ofChain, hr, Except.mapError, World.withChain]

theorem run_command {β : Type} (net : Network σ) (command : Command β) (w : World σ) :
    (Program.command command : Program ε β).run net w =
      (some (.ok (command.exec net w).1), (command.exec net w).2) := rfl

end Program

namespace Command

variable {w : World σ} {c : Chain}

theorem exec_save (net : Network σ) (stored : w.node.store = .ofChain c) {b : Block}
    (fresh : b.hash ∉ c.known) (follows : Block.Follows c.head b) :
    ∃ w', (Command.save b).exec net w = (.ok (), w') ∧ World.Rewritten (c.push b) w w' := by
  have hs := Chain.save_eq_ok_iff.mpr ⟨fresh, follows, rfl⟩
  refine ⟨(w.withChain (c.push b)).note (.saved b), ?_, ⟨rfl, rfl⟩⟩
  simp only [exec, Node.withStore, stored, Store.save_ofChain, hs, World.withChain]

theorem exec_save_known (net : Network σ) (stored : w.node.store = .ofChain c) {b : Block}
    (known : b.hash ∈ c.known) :
    ∃ w', (Command.save b).exec net w = (.error (.invalid (.alreadyKnown b.hash)), w') ∧
      World.Rewritten c w w' := by
  have hs : c.save b = .error (.invalid (.alreadyKnown b.hash)) := if_pos known
  refine ⟨w.withChain c, ?_, ⟨rfl, rfl⟩⟩
  simp only [exec, Node.withStore, stored, Store.save_ofChain, hs, World.withChain]

end Command

end ChainNode
