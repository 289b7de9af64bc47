import ChainNode.Production
import ChainNode.Proofs.Forge
import ChainNode.Proofs.Mempool
import ChainNode.Proofs.Node.Ensures
import ChainNode.Proofs.Node.Keeps
import ChainNode.Proofs.Node.Run

/-!
# A production cycle is atomic

Between reading the pool and clearing it a cycle may fail in the search for a nonce and in saving
the block, and while it searches others may change the node in any way: submit transactions, extend
or replace its chain. Whatever happens, the block that a cycle returns is saved, announced once, and
its transactions are out of the pool; and a cycle that fails has saved and announced nothing and
left the pool to itself.

* `Cycled`: how a cycle may end.
* `publish_ensures`: from the sealed block on.
* `cycle_atomic`: for any node, network, clock and interruption.
-/
namespace ChainNode.Production

open Program

variable {σ : Type} {net : Network σ} {w : World σ}

/-- There is nothing to seal. -/
def Idle (n : Node) : Prop := n.pool.pending = [] ∨ n.maxBlockTransactions = 0

/-- `n` is what the node has become when the search is over: what others made of it meanwhile. -/
def Searched (net : Network σ) (w : World σ) (n : Node) : Prop :=
  ∃ s peers, s.chain = w.chain ∧ n = (net.meanwhile { w.node with store := s } peers).1

/-- The first transactions of those pending, in the order of their times and hashes. -/
def Selected (n : Node) (ts : List Transaction) : Prop :=
  ∃ queue : List Transaction, queue.Perm n.pool.pending ∧ queue.Pairwise (Mempool.earlier · ·) ∧
    ts = queue.take n.maxBlockTransactions

/-- What publishing the block `b` makes of the node `n`: its chain has grown by the block, and what
the block carries is out of its pool. -/
structure Published (n : Node) (b : Block) (n' : Node) : Prop where
  node : n' = { n with store := n'.store, pool := n'.pool }
  saved : n.store.chain.save b = .ok n'.store.chain
  blocks : n'.store.chain.blocks = n.store.chain.blocks ++ [b]
  pool : n'.pool.pending = n.pool.pending.filter (·.hash ∉ b.transactions.map Transaction.hash)

/-- How a cycle may end that began in the world `w`. -/
inductive Cycled (net : Network σ) (w : World σ) :
    Except NodeError (Option Block) → World σ → Prop where
  /-- Without anything to seal nothing changes. -/
  | idle (nothing : Idle w.node) : Cycled net w (.ok none) w
  /-- No block was sealed: the chain and the pool are as they were. -/
  | unsealed {cause : ForgeError} {s : Store} {w' : World σ} (chain : s.chain = w.chain)
      (node : w'.node = { w.node with store := s }) (silent : w'.events = w.events) :
      Cycled net w (.error (.forge cause)) w'
  /-- The sealed block was not saved: the chain and the pool are as others left them. -/
  | refused {cause : StoreError} {n : Node} {s : Store} {w' : World σ} (found : Searched net w n)
      (chain : s.chain = n.store.chain) (node : w'.node = { n with store := s })
      (silent : w'.events = w.events) : Cycled net w (.error (.store cause)) w'
  /-- A block was saved and announced, whatever became of the announcement. From a pool in which its
  transactions still stand it has taken these and no others. -/
  | produced {b : Block} {n : Node} {w' : World σ} (found : Searched net w n)
      (selected : Selected w.node b.transactions) (published : Published n b w'.node)
      (lost : w.node.pool.Keyed → n.pool.Keyed → b.transactions ⊆ n.pool.pending →
        n.pool.pending.Perm (b.transactions ++ w'.node.pool.pending))
      (announced : w'.events = .announced .freshBlock (.freshBlock b) :: .saved b :: w.events) :
      Cycled net w (.ok (some b)) w'

theorem Selected.distinct {n : Node} {ts : List Transaction} (h : Selected n ts)
    (keyed : n.pool.Keyed) : (ts.map Transaction.hash).Nodup := by
  obtain ⟨queue, all, -, rfl⟩ := h
  have whole : (queue.map Transaction.hash).Nodup := (all.map _).nodup_iff.mpr keyed
  exact whole.sublist ((List.take_sublist _ _).map _)

theorem Published.lost {n n' : Node} {b : Block} (h : Published n b n') (keyed : n.pool.Keyed)
    (distinct : (b.transactions.map Transaction.hash).Nodup)
    (held : b.transactions ⊆ n.pool.pending) :
    n.pool.pending.Perm (b.transactions ++ n'.pool.pending) := by
  rw [h.pool, ← Mempool.pending_removeIncluded]
  exact keyed.perm_removeIncluded distinct held

/-- Saving comes first, so a block that is refused is not announced. -/
theorem publish_ensures (net : Network σ) (b : Block) (w : World σ) :
    Ensures net (fun r w' =>
        (∃ cause s, r = .error (.store cause) ∧ s.chain = w.chain ∧
          w'.node = { w.node with store := s } ∧ w'.events = w.events) ∨
        (r = .ok () ∧ Published w.node b w'.node ∧
          w'.events = .announced .freshBlock (.freshBlock b) :: .saved b :: w.events))
      (publish b) w := by
  unfold publish
  rcases Command.exec_save_eq net b w with ⟨e, s, refused, same⟩ | ⟨s, saved, written⟩
  · refine .of_run_bind (run_command net _ w) ?_
    rw [refused]
    exact .inl ⟨e, s, rfl, same, rfl, rfl⟩
  · refine .of_run_bind (run_command net _ w) ?_
    rw [saved]
    refine .inr ⟨rfl, ?_, rfl⟩
    refine ⟨rfl, written, ?_, Mempool.pending_removeIncluded _ w.node.pool⟩
    obtain ⟨-, -, pushed⟩ := Chain.save_eq_ok_iff.mp written
    show s.chain.blocks = w.chain.blocks ++ [b]
    rw [pushed, Chain.blocks_push]

/-- Agreeing on a block leaves the chain as it is, and the block carries what it was asked to. -/
theorem agree_run (net : Network σ) (clock : ForgeClock) (stops : Interruptions) (active : Nat)
    (ts : List Transaction) (w : World σ) : ∃ (r : Except ForgeError Block) (s : Store),
      (step NodeError.forge (Node.agree clock stops active ts)).run net w =
        (some (r.mapError .forge), { w with node := { w.node with store := s } }) ∧
      s.chain = w.chain ∧ ∀ b, r = .ok b → b.transactions = ts := by
  obtain ⟨s, node, chain, carried⟩ := w.node.agree_outcome clock stops active ts
  refine ⟨_, s, ?_, chain, carried⟩
  rw [← node]
  rfl

theorem selected_next (n : Node) : Selected n (n.pool.next n.maxBlockTransactions) :=
  n.pool.next_spec _

theorem idle_iff (n : Node) : n.pool.next n.maxBlockTransactions = [] ↔ Idle n :=
  n.pool.next_eq_nil_iff _

/-- **A cycle is atomic.** It always returns. It returns no block exactly if nothing is pending or
blocks take no transactions, and then nothing has changed. A block that it returns was saved on the
head that the node had by then, carries the first transactions that were pending, was announced
once, and is what the pool has lost. With an error nothing was saved, announced or removed. -/
theorem cycle_atomic (net : Network σ) (clock : ForgeClock) (stops : Interruptions) (w : World σ) :
    ∃ r w', (cycle clock stops).run net w = (some r, w') ∧ Cycled net w r w' ∧
      (r = .ok none ↔ Idle w.node) := by
  suffices all : Ensures net (fun r w' => Cycled net w r w' ∧ (r = .ok none ↔ Idle w.node))
      (cycle clock stops) w from all.run
  obtain ⟨ts, hts⟩ : ∃ ts, w.node.pool.next w.node.maxBlockTransactions = ts := ⟨_, rfl⟩
  have idle : ts = [] ↔ Idle w.node := hts ▸ idle_iff w.node
  have selected : Selected w.node ts := hts ▸ selected_next w.node
  have read : (command (.act fun n => (n.pool.next n.maxBlockTransactions, n)) :
      Program NodeError (List Transaction)).run net w = (some (.ok ts), w) := by
    rw [run_command, ← hts]
    rfl
  unfold cycle
  refine .of_run_bind read ?_
  cases ts with
  | nil => exact ⟨.idle (idle.mp rfl), fun _ => idle.mp rfl, fun _ => rfl⟩
  | cons t ts =>
    have busy : ¬ Idle w.node := fun nothing => List.cons_ne_nil _ _ (idle.mpr nothing)
    have cycled : ∀ {r : Except NodeError (Option Block)} {w' : World σ}, r ≠ .ok none →
        Cycled net w r w' → Cycled net w r w' ∧ (r = .ok none ↔ Idle w.node) :=
      fun other h => ⟨h, fun none => absurd none other, fun nothing => absurd nothing busy⟩
    have members : (command .members : Program NodeError (List NodeId)).run net w =
        (some (.ok (net.members w.peers)), w) := rfl
    refine .of_run_bind members ?_
    generalize (net.members w.peers).length = active
    obtain ⟨r, s, agreed, chain, carried⟩ := agree_run net clock stops active (t :: ts) w
    cases r with
    | error cause =>
      refine .of_run_bind_error agreed (cycled nofun ?_)
      exact .unsealed chain rfl rfl
    | ok b =>
      refine .of_run_bind agreed ?_
      refine .of_run_bind (run_command net .busy _) ?_
      have found : Searched net w (net.meanwhile { w.node with store := s } w.peers).1 :=
        ⟨s, w.peers, chain, rfl⟩
      have carries : b.transactions = t :: ts := carried b rfl
      refine (publish_ensures net b _).bind ?_ ?_
      · intro _ w₂ published
        rcases published with ⟨_, _, failed, -⟩ | ⟨-, published, announced⟩
        · cases failed
        · rw [← carries] at selected
          refine cycled nofun (.produced found selected published ?_ announced)
          exact fun keyed keyed' => published.lost keyed' (selected.distinct keyed)
      · intro e w₂ published
        rcases published with ⟨cause, s', failed, same, node', silent⟩ | ⟨accepted, -⟩
        · cases failed
          exact cycled nofun (.refused found same node' silent)
        · cases accepted

end ChainNode.Production
