import ChainNode.Proofs.Merkle.Leaves
import Mathlib.Data.List.Nodup

/-!
# A root binds the transactions

Two lists of transactions with one root have the same bodies, each as many times, if they are as
long as each other or without repetitions; otherwise two of the byte strings that are hashed for the
two roots collide. Lists of different lengths with repetitions can share a root, since an odd tail
is joined with itself.

* `root_eq_of_bodies_perm`: the same bodies have one root.
* `fillsUp_leaves`: one root, one row of leaves up to filling.
* `bodies_perm_of_root_eq`: one root, the same bodies.
-/
namespace ChainNode

open Merkle

variable {ts us : List Transaction} {root : Label}

/-- The other way round it is no matter of collisions: nothing but the bodies goes into a root. -/
theorem root_eq_of_bodies_perm
    (same : (ts.map Transaction.body).Perm (us.map Transaction.body)) :
    transactionRoot ts = transactionRoot us := by
  obtain ⟨entity, through⟩ : ∃ entity, entity ∘ Transaction.body = Transaction.entity :=
    ⟨_, Function.FactorsThrough.extend_comp (f := Transaction.body) (fun _ => ⟨0, .ok []⟩)
      fun _ _ h => Transaction.entity_eq_of_body_eq h⟩
  have members : (ts.map Transaction.entity).Perm (us.map Transaction.entity) := by
    rw [← through, ← List.map_map, ← List.map_map]
    exact same.map entity
  rcases eq_or_ne ts [] with rfl | nonempty
  · rw [List.map_eq_nil_iff.mp members.nil_eq.symm]
  · obtain ⟨root, h⟩ := transactionRoot_eq_ok nonempty
    rw [h]
    exact (merkleRoot_perm members h).symm

theorem bodies_perm_of_leaves_eq (h : leaves ts = leaves us) :
    (ts.map Transaction.body).Perm (us.map Transaction.body) := by
  have left := perm_bytes_leaves ts
  rw [h] at left
  exact left.symm.trans (perm_bytes_leaves us)

theorem nodup_leaves (distinct : (ts.map Transaction.body).Nodup) : (leaves ts).Nodup :=
  .of_map HashTree.bytes ((perm_bytes_leaves ts).nodup_iff.mpr distinct)

theorem fillsUp_leaves (free : CollisionFree (rootStrings ts ++ rootStrings us))
    (h : transactionRoot ts = .ok root) (h' : transactionRoot us = .ok root)
    (short : ts.length ≤ us.length) : FillsUp (leaves ts) (leaves us) := by
  obtain ⟨tree, folded, folded'⟩ := exists_common_tree free h h'
  exact HashTree.faithful.fillsUp (rank_leaves ts) (rank_leaves us) (by simpa using short) folded
    folded'

theorem bodies_perm_of_short (free : CollisionFree (rootStrings ts ++ rootStrings us))
    (h : transactionRoot ts = .ok root) (h' : transactionRoot us = .ok root)
    (short : ts.length ≤ us.length)
    (comparable : ts.length = us.length ∨ (us.map Transaction.body).Nodup) :
    (ts.map Transaction.body).Perm (us.map Transaction.body) := by
  have filled := fillsUp_leaves free h h' short
  refine bodies_perm_of_leaves_eq ?_
  rcases comparable with length | distinct
  · exact filled.starts.eq_of_length (by simpa using length)
  · exact filled.eq_of_nodup (nodup_leaves distinct)

/-- **A root binds the transactions.** Two lists with one root, of one length or both without
repetitions, have the same bodies, or there is a collision between two byte strings that were
hashed for the roots. Since the first list is not empty it has a root, and the second one, which has
this root too, is not empty either. -/
theorem bodies_perm_of_root_eq (nonempty : ts ≠ [])
    (same : transactionRoot ts = transactionRoot us)
    (comparable : ts.length = us.length ∨
      (ts.map Transaction.body).Nodup ∧ (us.map Transaction.body).Nodup) :
    (ts.map Transaction.body).Perm (us.map Transaction.body) ∨
      Collision (rootStrings ts ++ rootStrings us) := by
  rcases collisionFree_or_collision (rootStrings ts ++ rootStrings us) with free | collision
  · left
    obtain ⟨root, h⟩ := transactionRoot_eq_ok nonempty
    have h' := same.symm.trans h
    rcases Nat.le_total ts.length us.length with short | short
    · exact bodies_perm_of_short free h h' short (comparable.imp_right And.right)
    · have swapped : CollisionFree (rootStrings us ++ rootStrings ts) :=
        free.mono (List.append_subset.mpr
          ⟨List.subset_append_right _ _, List.subset_append_left _ _⟩)
      exact (bodies_perm_of_short swapped h' h short
        (comparable.imp Eq.symm And.left)).symm
  · exact .inr collision

/-- Two transactions from both ends. -/
theorem bodies_perm_of_root_eq_reverse :
    let ts := [Transaction.create (.ofString "first") 1 .empty .empty,
      Transaction.create (.ofString "second") 0 .empty .empty]
    ts ≠ [] ∧ transactionRoot ts = transactionRoot ts.reverse ∧ ts.length = ts.reverse.length ∧
      ((ts.map Transaction.body).Perm (ts.reverse.map Transaction.body) ∨
        Collision (rootStrings ts ++ rootStrings ts.reverse)) := by
  intro ts
  have nonempty : ts ≠ [] := List.cons_ne_nil _ _
  have same : transactionRoot ts = transactionRoot ts.reverse :=
    root_eq_of_bodies_perm ((List.reverse_perm ts).symm.map _)
  have length : ts.length = ts.reverse.length := List.length_reverse.symm
  exact ⟨nonempty, same, length, bodies_perm_of_root_eq nonempty same (.inl length)⟩

end ChainNode
