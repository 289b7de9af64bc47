import ChainNode.Proofs.Chain.Valid

/-!
# Reading a store that may refuse

Whatever faults a store has, an operation that reads leaves the chain as it is, and if it is not
refused its result is a view of that chain.

* `reads_latestBlock` and its like: one for each reader.
-/
namespace ChainNode.Store

variable {α β : Type}

/-- The operation looks at the chain, if it is not refused. -/
def Reads (view : Chain → α) (op : Op α) : Prop :=
  ∀ s, (op s).2.chain = s.chain ∧ ∀ a, (op s).1 = .ok a → a = view s.chain

theorem reads_read (m : StoreMethod) (view : Chain → α) : Reads view (read m view) := by
  intro s
  have same := chain_spend m s
  unfold read
  generalize s.spend m = spent at same
  obtain ⟨granted, t⟩ := spent
  cases granted with
  | false => exact ⟨same, nofun⟩
  | true =>
    refine ⟨same, fun a h => ?_⟩
    cases h
    exact congrArg view same

theorem Reads.map {view : Chain → α} {op : Op α} (h : Reads view op) (f : α → β) :
    Reads (f ∘ view) fun s => match op s with | (r, s) => (r.map f, s) := by
  intro s
  obtain ⟨same, result⟩ := h s
  refine ⟨same, fun b hb => ?_⟩
  simp only at hb
  cases r : (op s).1 with
  | error e =>
    rw [r] at hb
    cases hb
  | ok a =>
    rw [r] at hb
    cases hb
    rw [Function.comp, result a r]

theorem reads_latestBlock : Reads Chain.head latestBlock := reads_read _ _

theorem reads_latestOfType (t : ConsentType) : Reads (·.latestOfType t) (latestOfType t) :=
  reads_read _ _

theorem reads_blocksInRange (position limit : Nat) :
    Reads (·.range position limit) (blocksInRange position limit) := reads_read _ _

theorem reads_infosInRange (position limit : Nat) :
    Reads (fun c => (c.range position limit).map Block.info) (infosInRange position limit) :=
  (reads_blocksInRange position limit).map _

theorem reads_blockAt (position : Nat) : Reads (·.at? position) (blockAt position) :=
  (reads_blocksInRange position 1).map _

theorem reads_count : Reads Chain.count count := reads_read _ _

theorem reads_countOfType (t : ConsentType) : Reads (·.countOfType t) (countOfType t) :=
  reads_read _ _

end ChainNode.Store
