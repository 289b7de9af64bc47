import ChainNode.Proofs.Node.Returns
import ChainNode.Proofs.Production

/-!
# What a cycle makes of the node

A cycle is a selection, an agreement and a publication. Agreeing changes the node's store at most,
and nothing of its chain; then others may change the node; and what they have made of it is what the
block is published on. So the node at the end is known from these three.

* `agreement`, `found`: the node after the first two, and the node that is published on.
* `run_cycle`, `cycle_idle`: a cycle with and without anything to seal.
* `Ended`, `cycle_ended`: the node at the end.
-/
namespace ChainNode.Production

open Program

variable {σ : Type} {net : Network σ} {w : World σ}

/-- What the first part of a cycle agrees on, and the node that it leaves behind. -/
def agreement (net : Network σ) (clock : ForgeClock) (stops : Interruptions) (w : World σ) :
    Except ForgeError Block × Node :=
  w.node.agree clock stops (net.members w.peers).length
    (w.node.pool.next w.node.maxBlockTransactions)

/-- The world in which the block is published. -/
def afterSearch (net : Network σ) (clock : ForgeClock) (stops : Interruptions) (w : World σ) :
    World σ :=
  let busy := net.meanwhile (agreement net clock stops w).2 w.peers
  { w with node := busy.1, peers := busy.2 }

/-- What others have made of the node when the search is over. -/
abbrev found (net : Network σ) (clock : ForgeClock) (stops : Interruptions) (w : World σ) : Node :=
  (afterSearch net clock stops w).node

/-- How a cycle may end that began in the world `w`, and what has become of the node. -/
inductive Ended (net : Network σ) (clock : ForgeClock) (stops : Interruptions) (w : World σ) :
    Except NodeError (Option Block) → Node → Prop where
  | idle (nothing : Idle w.node) : Ended net clock stops w (.ok none) w.node
  | unsealed (cause : ForgeError) :
      Ended net clock stops w (.error (.forge cause)) (agreement net clock stops w).2
  | refused {s : Store} (cause : StoreError)
      (same : s.chain = (found net clock stops w).store.chain) :
      Ended net clock stops w (.error (.store cause)) { found net clock stops w with store := s }
  | produced {b : Block} {n' : Node} (busy : ¬ Idle w.node)
      (selected : b.transactions = w.node.pool.next w.node.maxBlockTransactions)
      (published : Published (found net clock stops w) b n') :
      Ended net clock stops w (.ok (some b)) n'

theorem agreement_node (net : Network σ) (clock : ForgeClock) (stops : Interruptions)
    (w : World σ) : ∃ s, (agreement net clock stops w).2 = { w.node with store := s } ∧
      s.chain = w.chain := by
  obtain ⟨s, node, chain, -⟩ := w.node.agree_outcome clock stops (net.members w.peers).length
    (w.node.pool.next w.node.maxBlockTransactions)
  exact ⟨s, node, chain⟩

/-- Without anything to seal a cycle returns at once. -/
theorem cycle_idle (net : Network σ) (clock : ForgeClock) (stops : Interruptions)
    (nothing : Idle w.node) : (cycle clock stops).run net w = (some (.ok none), w) := by
  have none_selected := (idle_iff w.node).mpr nothing
  unfold cycle
  rw [bind_eq, run_bind, run_command]
  simp only [Command.exec, none_selected]
  rfl

theorem run_cycle (net : Network σ) (clock : ForgeClock) (stops : Interruptions)
    (busy : ¬ Idle w.node) :
    (cycle clock stops).run net w =
      match (agreement net clock stops w).1 with
      | .error cause =>
        (some (.error (.forge cause)), { w with node := (agreement net clock stops w).2 })
      | .ok b =>
        ((publish b).bind fun _ => .done (.ok (some b))).run net
          (afterSearch net clock stops w) := by
  have some_selected := mt (idle_iff w.node).mp busy
  have agreed : (step NodeError.forge (Node.agree clock stops (net.members w.peers).length
      (w.node.pool.next w.node.maxBlockTransactions))).run net w =
        (some ((agreement net clock stops w).1.mapError .forge),
          { w with node := (agreement net clock stops w).2 }) := rfl
  unfold cycle
  simp only [bind_eq, run_bind, run_command, Command.exec, List.isEmpty_iff, some_selected,
    if_false, agreed]
  cases sealed : (agreement net clock stops w).1 <;> rfl

/-- **There is no other end**, on any store and whatever others do. -/
theorem cycle_ended (net : Network σ) (clock : ForgeClock) (stops : Interruptions)
    (w : World σ) :
    Returns net (fun r w' => Ended net clock stops w r w'.node) (cycle clock stops) w := by
  refine .of_run fun r w' ran => ?_
  by_cases nothing : Idle w.node
  · rw [cycle_idle net clock stops nothing] at ran
    cases ran
    exact .idle nothing
  · rw [run_cycle net clock stops nothing] at ran
    split at ran
    · cases ran
      exact .unsealed _
    · rename_i b sealed
      obtain ⟨-, -, -, carried⟩ := w.node.agree_outcome clock stops (net.members w.peers).length
        (w.node.pool.next w.node.maxBlockTransactions)
      obtain ⟨r', w'', ended, outcome⟩ :=
        (publish_ensures net b (afterSearch net clock stops w)).run
      rw [run_bind, ended] at ran
      rcases outcome with ⟨cause, s, rfl, same, node, -⟩ | ⟨rfl, published, -⟩
      · cases ran
        rw [node]
        exact .refused cause same
      · cases ran
        exact .produced nothing (carried b sealed) published

end ChainNode.Production
