import Mathlib.Algebra.Order.Floor.Div
import ChainNode.Proofs.Forge.Acceptance
import ChainNode.Proofs.Mempool.Queue
import ChainNode.Proofs.Peer.Solo
import ChainNode.Proofs.Production.Outcome

/-!
# Draining the pool

A node that others leave alone takes batch after batch from the front of its queue. A cycle that
does not fail seals one batch and leaves the queue without it, so the blocks of several cycles hold
what stood in front, in order, and when the queue is empty there are no more blocks.

* `Cycles`: cycles of which none fails.
* `Lined`: what waits is a queue; `cycle_takes`, `cycles_take`: what one cycle takes of it, and all.
* `cycles_drain`: what becomes of transactions that were submitted to an empty pool.
-/
namespace ChainNode.Production

open Program

variable {σ : Type} {net : Network σ}

/-- Nobody changes the node while it searches. -/
def Alone (net : Network σ) : Prop := ∀ n peers, (net.meanwhile n peers).1 = n

/-- Cycles one after the other, under any clocks and interruptions, none of which fails. -/
inductive Cycles (net : Network σ) : World σ → List (Option Block) → World σ → Prop where
  | rest (w : World σ) : Cycles net w [] w
  | cycle {w w₁ w₂ : World σ} {clock : ForgeClock} {stops : Interruptions} {result : Option Block}
      {results : List (Option Block)}
      (ran : (cycle clock stops).run net w = (some (.ok result), w₁))
      (others : Cycles net w₁ results w₂) : Cycles net w (result :: results) w₂

/-- The transactions in `queue` wait for blocks that take `k` of them each. -/
structure Lined (k : Nat) (queue : List Transaction) (n : Node) : Prop where
  queued : Mempool.Queued queue n.pool
  limit : n.maxBlockTransactions = k

variable {w w' : World σ} {k : Nat} {queue : List Transaction}

theorem batch_eq_nil_iff (positive : 1 ≤ k) (queue : List Transaction) (i : Nat) :
    (queue.drop (i * k)).take k = [] ↔ queue.length ≤ i * k := by
  rw [← List.length_eq_zero_iff, List.length_take, List.length_drop]
  omega

/-- A cycle takes the first batch, if there is one. -/
theorem cycle_takes (alone : Alone net) (lined : Lined k queue w.node) {clock : ForgeClock}
    {stops : Interruptions} {result : Option Block}
    (ran : (cycle clock stops).run net w = (some (.ok result), w')) :
    result.map Block.transactions = (if queue.take k = [] then none else some (queue.take k)) ∧
      w'.chain.blocks = w.chain.blocks ++ result.toList ∧ Lined k (queue.drop k) w'.node := by
  have batch : queue.take k = [] ↔ Idle w.node := by
    rw [← lined.queued.next_eq, ← lined.limit]
    exact idle_iff w.node
  by_cases nothing : Idle w.node
  · rw [cycle_idle net clock stops nothing] at ran
    cases ran
    have rest : queue.drop k = queue := by
      simpa [batch.mpr nothing] using List.take_append_drop k queue
    refine ⟨(if_pos (batch.mpr nothing)).symm, (List.append_nil _).symm, ?_⟩
    rwa [rest]
  · obtain ⟨s, node, chain⟩ := agreement_node net clock stops w
    have found_node : found net clock stops w = { w.node with store := s } :=
      (alone _ _).trans node
    have ended := (cycle_ended net clock stops w).run ran
    rw [World.chain, World.chain]
    generalize w'.node = n' at ended
    cases ended with
    | idle idle => exact absurd idle nothing
    | @produced b _ _ selected published =>
      have taken : b.transactions = queue.take k := by
        rw [selected, lined.limit, lined.queued.next_eq]
      rw [found_node] at published
      refine ⟨?_, ?_, ?_, ?_⟩
      · rw [if_neg (fun empty => nothing (batch.mp empty)), Option.map_some, taken]
      · rw [published.blocks, Option.toList_some]
        exact congrArg (·.blocks ++ [b]) chain
      · refine lined.queued.drop k ?_
        rw [published.pool, taken]
      · rw [published.node]
        exact lined.limit

/-- By induction on the cycles: each begins with what the one before it left. -/
theorem cycles_take (alone : Alone net) (lined : Lined k queue w.node)
    {results : List (Option Block)} (ran : Cycles net w results w') :
    (∀ (i : Nat) (h : i < results.length), results[i].map Block.transactions =
        if (queue.drop (i * k)).take k = [] then none else some ((queue.drop (i * k)).take k)) ∧
      (results.filterMap id).flatMap Block.transactions = queue.take (results.length * k) ∧
      w'.chain.blocks = w.chain.blocks ++ results.filterMap id ∧
      Lined k (queue.drop (results.length * k)) w'.node := by
  induction ran generalizing queue with
  | rest w => exact ⟨nofun, by simp, by simp, by simpa using lined⟩
  | @cycle w w₁ w₂ clock stops result results ran others ih =>
    obtain ⟨taken, blocks, left⟩ := cycle_takes alone lined ran
    obtain ⟨each, all, others_blocks, rest⟩ := ih left
    have later : ∀ i, queue.drop (k + i * k) = (queue.drop k).drop (i * k) := fun i =>
      (List.drop_drop ..).symm
    have count : ∀ i, (i + 1) * k = k + i * k := fun i => by rw [Nat.succ_mul, Nat.add_comm]
    have split : (result :: results).filterMap id = result.toList ++ results.filterMap id := by
      cases result <;> rfl
    have sealed : result.toList.flatMap Block.transactions = queue.take k := by
      split at taken
      · rename_i empty
        rw [Option.map_eq_none_iff.mp taken, empty]
        rfl
      · obtain ⟨b, rfl, carried⟩ := Option.map_eq_some_iff.mp taken
        simpa using carried
    refine ⟨?_, ?_, ?_, ?_⟩
    · intro i h
      cases i with
      | zero => simpa using taken
      | succ i =>
        rw [count, later]
        exact each i (Nat.lt_of_succ_lt_succ h)
    · rw [split, List.flatMap_append, all, sealed, List.length_cons, count, List.take_add]
    · rw [split, others_blocks, blocks, List.append_assoc]
    · rw [List.length_cons, count, later]
      exact rest

/-- **The pool drains completely, in order and without repetition.** Transactions with different
hashes, each of which a pool takes, are submitted to an empty pool in any order, and cycles follow
that do not fail, with blocks that take `k` transactions. Then the blocks hold batch after batch of
the transactions in the order of their times and hashes, `k` in each but the last, and are what is
new on the chain. After as many cycles as there are batches everything is sealed, and the next cycle
returns no block. -/
theorem cycles_drain (alone : Alone net) {ts submitted : List Transaction}
    (distinct : (ts.map Transaction.hash).Nodup)
    (accepted : ∀ t ∈ ts, (Mempool.empty.submit t).1 = true) (order : submitted.Perm ts)
    (filled : w.node.pool = Mempool.empty.submitAll submitted)
    (limit : w.node.maxBlockTransactions = k) (positive : 1 ≤ k) {results : List (Option Block)}
    (ran : Cycles net w results w') :
    let queue := ts.mergeSort Mempool.earlier
    let batches := ts.length ⌈/⌉ k
    (∀ (i : Nat) (h : i < results.length),
      (i < batches → ∃ b, results[i] = some b ∧ b.transactions = (queue.drop (i * k)).take k ∧
        (i + 1 < batches → b.transactions.length = k)) ∧
      (batches ≤ i → results[i] = none)) ∧
    w'.chain.blocks = w.chain.blocks ++ results.filterMap id ∧
    (batches ≤ results.length →
      (results.filterMap id).flatMap Block.transactions = queue ∧ w'.node.pool.pending = [] ∧
        ∀ clock stops, (cycle clock stops).run net w' = (some (.ok none), w')) := by
  intro queue batches
  have start : Lined k queue w.node :=
    ⟨filled ▸ Mempool.queued_submitAll distinct accepted order, limit⟩
  obtain ⟨each, all, blocks, left⟩ := cycles_take alone start ran
  have length : queue.length = ts.length := List.length_mergeSort ts
  have done_iff : ∀ i, batches ≤ i ↔ queue.length ≤ i * k := fun i => by
    rw [length, Nat.mul_comm, ← smul_eq_mul, ceilDiv_le_iff_le_smul positive]
  refine ⟨fun i h => ⟨fun more => ?_, fun done => ?_⟩, blocks, fun done => ?_⟩
  · have some_left : ¬ queue.length ≤ i * k := mt (done_iff i).mpr (Nat.not_le.mpr more)
    have sealed := each i h
    rw [if_neg (mt (batch_eq_nil_iff positive queue i).mp some_left)] at sealed
    obtain ⟨b, returned, carried⟩ := Option.map_eq_some_iff.mp sealed
    refine ⟨b, returned, carried, fun another => ?_⟩
    have further := mt (done_iff (i + 1)).mpr (Nat.not_le.mpr another)
    rw [Nat.succ_mul] at further
    rw [carried, List.length_take, List.length_drop]
    omega
  · have idle := each i h
    rw [if_pos ((batch_eq_nil_iff positive queue i).mpr ((done_iff i).mp done))] at idle
    exact Option.map_eq_none_iff.mp idle
  · have beyond := (done_iff results.length).mp done
    have empty : w'.node.pool.pending = [] := by
      have perm := left.queued.perm
      rw [List.drop_eq_nil_of_le beyond] at perm
      exact perm.nil_eq.symm
    refine ⟨by rw [all, List.take_of_length_le beyond], empty, fun clock stops => ?_⟩
    exact cycle_idle net clock stops (.inl empty)

/-- A cycle of a node with too few peers for a vote, at difficulty zero, seals a sample block. -/
theorem cycle_successor {c : Chain} {ts : List Transaction} (stored : w.node.store = .ofChain c)
    (selected : w.node.pool.next w.node.maxBlockTransactions = ts) (carried : ts ≠ [])
    (few : (net.members w.peers).length < w.node.forgeSettings.minimumQuorum)
    (version : w.node.forgeSettings.protocolVersion = 1)
    (easy : Forge.nextDifficulty w.node.forgeSettings (c.latestOfType .proofOfWork) = 0)
    (alone : Alone net) (fresh : (Sample.successor c.head ts).hash ∉ c.known) :
    ∃ w', (cycle (Forge.sampleClock c.head) .none).run net w =
      (some (.ok (some (Sample.successor c.head ts))), w') := by
  have busy : ¬ Idle w.node := fun nothing => carried (selected ▸ (idle_iff w.node).mpr nothing)
  have agreed : agreement net (Forge.sampleClock c.head) .none w =
      (.ok (Sample.successor c.head ts), w.node) := by
    rw [agreement, selected, Forge.agree_successor stored few version carried easy]
  have found_store : (found net (Forge.sampleClock c.head) .none w).store = .ofChain c := by
    rw [found, afterSearch, alone, agreed, stored]
  obtain ⟨w', saved, -⟩ := Command.exec_save net found_store fresh
    (Sample.follows_successor carried)
  rw [run_cycle net _ _ busy, agreed]
  simp only [publish, bind_eq, run_bind, run_command, saved]
  exact ⟨_, rfl⟩

/-- Two transactions, the later one submitted first, and blocks that have room for both. -/
theorem cycles_drain_two :
    let early := Transaction.create (.ofString "sender") 0 .empty .empty
    let late := Transaction.create (.ofString "sender") 1 .empty .empty
    let c := Chain.start { Block.genesis with hash := .empty }
    let net := Solo.network "peer" .testing (by decide) c
    ∃ w b w', Alone net ∧ w.node.store = .ofChain c ∧
      ([early, late].map Transaction.hash).Nodup ∧
      (∀ t ∈ [early, late], (Mempool.empty.submit t).1 = true) ∧
      w.node.pool = Mempool.empty.submitAll [late, early] ∧ w.node.maxBlockTransactions = 2 ∧
      Cycles net w [some b, none] w' ∧ b.transactions = [early, late] ∧
      w'.chain.blocks = c.blocks ++ [b] ∧ w'.node.pool.pending = [] := by
  intro early late c net
  have alone : Alone net := fun _ _ => rfl
  have distinct : ([early, late].map Transaction.hash).Nodup := by decide +kernel
  have accepted : ∀ t ∈ [early, late], (Mempool.empty.submit t).1 = true := by
    intro t ht
    have correct : t.isCorrect = true := by
      rcases List.mem_pair.mp ht with rfl | rfl <;> exact Transaction.isCorrect_create ..
    rw [Mempool.submit, correct]
    rfl
  have order : [late, early].Perm [early, late] := .swap ..
  have sorted : [early, late].mergeSort Mempool.earlier = [early, late] := by
    have before : Mempool.earlier early late = true := keyLE_iff.mpr (.inl (by decide))
    exact List.mergeSort_of_pairwise (by simpa using before)
  -- the pool stays a name, so that nothing computes the hashes in it
  obtain ⟨pool, filled⟩ : ∃ pool, pool = Mempool.empty.submitAll [late, early] := ⟨_, rfl⟩
  have queued : Mempool.Queued [early, late] pool := by
    rw [filled, ← sorted]
    exact Mempool.queued_submitAll distinct accepted order
  let settings := { ForgeSettings.testing with initialDifficulty := 0 }
  let w : World Solo.Memory :=
    ⟨{ Node.new "self" settings .testing 2 (.ofChain c) 0 with pool := pool }, .empty, []⟩
  have limit : w.node.maxBlockTransactions = 2 := rfl
  have few : (net.members w.peers).length < w.node.forgeSettings.minimumQuorum :=
    show 1 < 3 by decide
  have fresh : (Sample.successor c.head [early, late]).hash ∉ c.known := by
    intro known
    have length := congrArg (String.length ·.chars) (List.mem_singleton.mp known)
    have full : (Sample.successor c.head [early, late]).hash.chars.length = 128 :=
      length_fingerprint _
    simp only at length
    rw [full] at length
    cases length
  obtain ⟨w₁, first⟩ := cycle_successor (w := w) (c := c) rfl (queued.next_eq 2)
    (List.cons_ne_nil _ _) few rfl rfl alone fresh
  obtain ⟨-, -, left⟩ := cycle_takes alone ⟨queued, limit⟩ first
  have empty : Idle w₁.node := .inl left.queued.perm.nil_eq.symm
  have ran : Cycles net w [some (Sample.successor c.head [early, late]), none] w₁ :=
    .cycle first (.cycle (cycle_idle net (.still 0) .none empty) (.rest w₁))
  obtain ⟨-, blocks, drained⟩ := cycles_drain alone distinct accepted order filled limit
    (by decide) ran
  obtain ⟨-, pending, -⟩ := drained (by decide)
  exact ⟨w, _, w₁, alone, rfl, distinct, accepted, filled, limit, ran, rfl, blocks, pending⟩

end ChainNode.Production
