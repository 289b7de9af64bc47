import ChainNode.Proofs.Chain.Position

/-!
# The head commits to the chain

A block's seal contains its predecessor's hash, so one hash fixes the block that bears it, that
block fixes the hash before it, and so on downwards. Two chains with one and the same first block
come down to it at the same depth, because its hash occurs in each of them only once; the first
block itself is taken unchecked and need not name its own seal.

* `eq_and_pred_or_collision`: one step down.
* `take_eq_or_collision`: two chains of one first block that share a hash share all blocks up to it.
* `blocks_eq_of_head_hash_eq`: one head hash, one chain, unless two seals collide.
-/
namespace ChainNode.Chain

/-- Seals of two blocks, one of each chain, that differ and have one digest. -/
def SealCollision (c d : Chain) : Prop :=
  ∃ a ∈ c.blocks, ∃ b ∈ d.blocks, Block.SealCollision a b

variable {c d : Chain}

theorem eq_or_collision_getElem {i j : Nat} (hi : i < c.blocks.length) (hj : j < d.blocks.length)
    (ci : c.blocks[i].isCorrect = true) (dj : d.blocks[j].isCorrect = true)
    (h : c.blocks[i].hash = d.blocks[j].hash) :
    c.blocks[i] = d.blocks[j] ∨ SealCollision c d := by
  rcases Block.eq_or_collision ci dj h with e | collision
  · exact .inl e
  · exact .inr ⟨_, List.getElem_mem hi, _, List.getElem_mem hj, collision⟩

/-- Above the first blocks, one hash means one block and one hash below it. -/
theorem eq_and_pred_or_collision (hc : c.Sound) (hd : d.Sound) {i j : Nat}
    (hi : i + 1 < c.blocks.length) (hj : j + 1 < d.blocks.length)
    (h : c.blocks[i + 1].hash = d.blocks[j + 1].hash) :
    (c.blocks[i + 1] = d.blocks[j + 1] ∧ c.blocks[i].hash = d.blocks[j].hash) ∨
      SealCollision c d := by
  rcases eq_or_collision_getElem hi hj (hc.isCorrect_getElem hi) (hd.isCorrect_getElem hj) h with
    e | collision
  · refine .inl ⟨e, ?_⟩
    rw [← (hc.follows_getElem hi).lastHash, ← (hd.follows_getElem hj).lastHash, e]
  · exact .inr collision

/-- By induction on the depth: where one of the chains has come down to its first block, so has the
other, since that block's hash occurs nowhere above. -/
theorem take_eq_or_collision (hc : c.Sound) (hd : d.Sound) (first : c.first = d.first) {i j : Nat}
    (hi : i < c.blocks.length) (hj : j < d.blocks.length)
    (h : c.blocks[i].hash = d.blocks[j].hash) :
    (i = j ∧ c.blocks.take (i + 1) = d.blocks.take (i + 1)) ∨ SealCollision c d := by
  induction i generalizing j with
  | zero =>
    have lowest : d.blocks[0].hash = d.blocks[j].hash := by
      rw [← h]
      exact congrArg Block.hash first.symm
    exact .inl ⟨hd.index_eq (Nat.succ_pos _) hj lowest, by simp [blocks, first]⟩
  | succ i ih =>
    cases j with
    | zero =>
      have lowest : c.blocks[i + 1].hash = c.blocks[0].hash := by
        rw [h]
        exact congrArg Block.hash first.symm
      exact absurd (hc.index_eq hi (Nat.succ_pos _) lowest) (Nat.succ_ne_zero i)
    | succ j =>
      rcases eq_and_pred_or_collision hc hd hi hj h with ⟨e, hpred⟩ | collision
      · rcases ih (by omega) (by omega) hpred with ⟨rfl, htake⟩ | collision
        · refine .inl ⟨rfl, ?_⟩
          rw [← List.take_append_getElem hi, ← List.take_append_getElem hj, htake, e]
        · exact .inr collision
      · exact .inr collision

/-- **Commitment.** Two stores that began with the genesis block and whose heads carry one hash
hold the same blocks, or the seals of two of their blocks collide. -/
theorem blocks_eq_of_head_hash_eq (faults faults' : Faults) (ws vs : List Write)
    (h : (Write.runAll ws ⟨Chain.new, faults⟩).chain.head.hash =
      (Write.runAll vs ⟨Chain.new, faults'⟩).chain.head.hash) :
    (Write.runAll ws ⟨Chain.new, faults⟩).chain.blocks =
        (Write.runAll vs ⟨Chain.new, faults'⟩).chain.blocks ∨
      SealCollision (Write.runAll ws ⟨Chain.new, faults⟩).chain
        (Write.runAll vs ⟨Chain.new, faults'⟩).chain := by
  obtain ⟨hc, hfc⟩ := Store.runAll_keeps ws (s := ⟨Chain.new, faults⟩) (sound_start _)
  obtain ⟨hd, hfd⟩ := Store.runAll_keeps vs (s := ⟨Chain.new, faults'⟩) (sound_start _)
  generalize (Write.runAll ws ⟨Chain.new, faults⟩).chain = c at h hc hfc ⊢
  generalize (Write.runAll vs ⟨Chain.new, faults'⟩).chain = d at h hd hfd ⊢
  rw [← c.getElem_length_later c.length_later_lt, ← d.getElem_length_later d.length_later_lt] at h
  rcases take_eq_or_collision hc hd (hfc.trans hfd.symm) _ _ h with ⟨depth, e⟩ | collision
  · left
    have whole : d.blocks.take (c.later.length + 1) = d.blocks.take d.blocks.length := by
      rw [depth, length_blocks]
    rwa [whole, ← length_blocks, List.take_length, List.take_length] at e
  · exact .inr collision

/-- A block that is saved, and one that is saved, rolled back and saved again. -/
theorem blocks_eq_of_head_hash_eq_second :
    let s := Write.runAll [.save Sample.second] ⟨Chain.new, .none⟩
    let t := Write.runAll [.save Sample.second, .removeAfter 1, .save Sample.second]
      ⟨Chain.new, .none⟩
    s.chain.head.hash = t.chain.head.hash ∧
      (s.chain.blocks = t.chain.blocks ∨ SealCollision s.chain t.chain) := by
  have once : Write.runAll [.save Sample.second] (.ofChain .new) =
      .ofChain (Chain.new.push Sample.second) := by
    rw [Write.runAll, List.foldl_cons, Store.run_save_ok save_second, List.foldl_nil]
  have again : Write.runAll [.save Sample.second, .removeAfter 1, .save Sample.second]
      (.ofChain .new) = .ofChain (Chain.new.push Sample.second) := by
    rw [Write.runAll, List.foldl_cons, List.foldl_cons, List.foldl_cons,
      Store.run_save_ok save_second, Store.run_removeAfter_ok removeAfter_second,
      Store.run_save_ok save_second, List.foldl_nil]
  have h := congrArg (fun s : Store => s.chain.head.hash) (once.trans again.symm)
  exact ⟨h, blocks_eq_of_head_hash_eq _ _ _ _ h⟩

end ChainNode.Chain
