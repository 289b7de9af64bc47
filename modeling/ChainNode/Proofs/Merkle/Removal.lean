import ChainNode.Proofs.Merkle.Leaves
import Mathlib.Data.List.Nodup
import Mathlib.Data.List.Perm.Basic
import Mathlib.Data.Nat.Prime.Basic

/-!
# Leaving a transaction out

Without one of its transactions a list has another root, with one exception: where the tree joins an
odd tail with itself, it supplies a copy of what stands at the end, and it does not show if the last
copy is missing. So the exception needs a list that ends in copies of the transaction, more than
some power of two of them, that goes beyond a multiple of this power by one, and that has other
transactions on the same level.

* `Supplied`: the tree supplies what is left out.
* `supplied_of_root_eq`, `root_eq_of_supplied`: one direction needs digests without collisions.
* `root_eraseIdx_eq_iff`: what leaving out does to the root.
-/
namespace ChainNode

open Merkle

variable {ts : List Transaction} {t : Transaction} {root : Label}

/-- The tree over these transactions supplies a copy of this one. No other comes after it; the list
goes beyond an odd multiple of a power of two, the threefold or more, by one; and there are more
copies than this power, so that without one of them they fill a subtree that is joined with
itself. -/
structure Supplied (ts : List Transaction) (t : Transaction) : Prop where
  last : ∀ u ∈ ts, keyLE u.key t.key = true
  repeated : ∃ k m, ts.length = 2 ^ k * (2 * m + 3) + 1 ∧
    2 ^ k < (ts.map Transaction.body).count t.body

/-- A list of a power of two and one more, for instance of nine, loses a whole level of its tree
with any of its members. -/
theorem Supplied.length_ne (h : Supplied ts t) (n : Nat) : ts.length ≠ 2 ^ n + 1 := by
  obtain ⟨k, m, length, -⟩ := h.repeated
  rw [length]
  intro same
  have divides : 2 * m + 3 ∣ 2 ^ n := ⟨2 ^ k, by rw [Nat.mul_comm]; omega⟩
  obtain ⟨j, -, power⟩ := (Nat.dvd_prime_pow Nat.prime_two).mp divides
  cases j with
  | zero => omega
  | succ j =>
    rw [Nat.pow_succ'] at power
    omega

/-! ## A root that stays tells of copies -/

theorem perm_leaves_eraseIdx {i : Nat} (hi : i < ts.length) :
    (HashTree.leaf ts[i].body :: leaves (ts.eraseIdx i)).Perm (leaves ts) := by
  have erased := (List.getElem_cons_eraseIdx_perm hi).map fun t => HashTree.leaf t.body
  exact (((perm_leaves _).cons _).trans erased).trans (perm_leaves ts).symm

theorem keyLE_of_leaves_eq {front : List HashTree} (h : leaves ts = front ++ [.leaf t.body]) :
    ∀ u ∈ ts, keyLE u.key t.key = true := by
  obtain ⟨before, final, split, -, single⟩ := List.map_eq_append_iff.mp h
  obtain ⟨s, rfl, leaf⟩ := List.map_eq_singleton_iff.mp single
  have key : s.key = t.key := Transaction.key_eq_of_body_eq (HashTree.leaf.inj leaf)
  have sorted := pairwise_inOrder ts
  rw [split, List.pairwise_append] at sorted
  intro u hu
  have ordered := (perm_inOrder ts).symm.subset hu
  rw [split, List.mem_append, List.mem_singleton] at ordered
  rw [← key]
  rcases ordered with earlier | rfl
  · exact sorted.2.2 u earlier s (List.mem_singleton_self s)
  · exact keyLE_self u.key

theorem lt_count_of_leaves_eq {front : List HashTree} {n : Nat}
    (h : leaves ts = front ++ List.replicate (n + 1) (.leaf t.body)) :
    n < (ts.map Transaction.body).count t.body := by
  rw [← (perm_bytes_leaves ts).count_eq, h, List.map_append, List.map_replicate,
    List.count_append]
  change n < _ + (List.replicate (n + 1) t.body).count t.body
  rw [List.count_replicate_self]
  omega

theorem supplied_of_root_eq {i : Nat} (hi : i < ts.length)
    (free : CollisionFree (rootStrings ts ++ rootStrings (ts.eraseIdx i)))
    (h : transactionRoot ts = .ok root) (h' : transactionRoot (ts.eraseIdx i) = .ok root) :
    Supplied ts ts[i] := by
  obtain ⟨tree, folded, folded'⟩ := exists_common_tree free h h'
  have longer : (leaves ts).length = (leaves (ts.eraseIdx i)).length + 1 := by
    rw [← (perm_leaves_eraseIdx hi).length_eq, List.length_cons]
  obtain ⟨front, w, k, m, length, without, whole⟩ :=
    HashTree.faithful.longer_by_one (rank_leaves _) (rank_leaves _) longer folded' folded
  have concat : leaves ts = leaves (ts.eraseIdx i) ++ [w] := by
    rw [whole, without, List.replicate_succ', List.append_assoc]
  -- The leaf that the longer row has in addition is the one that was left out.
  obtain rfl : .leaf ts[i].body = w := by
    have moved := (perm_leaves_eraseIdx hi).trans
      (concat ▸ List.perm_append_singleton w (leaves (ts.eraseIdx i)))
    exact List.singleton_perm_singleton.mp ((List.perm_append_right_iff _).mp moved)
  refine ⟨keyLE_of_leaves_eq concat, k, m, ?_, lt_count_of_leaves_eq whole⟩
  have count := congrArg List.length whole
  rw [length_leaves, List.length_append, List.length_replicate, length] at count
  grind

/-! ## Copies that are supplied do not show -/

theorem count_body_le_count_key (ts : List Transaction) (t : Transaction) :
    (ts.map Transaction.body).count t.body ≤ (ts.map Transaction.key).count t.key := by
  rw [List.count_eq_countP, List.count_eq_countP, List.countP_map, List.countP_map]
  refine List.countP_mono_left fun u _ same => ?_
  simp only [Function.comp_apply, beq_iff_eq] at same ⊢
  exact Transaction.key_eq_of_body_eq same

/-- Copies of what comes last are sorted to the end. -/
theorem mergeSort_keyLE_copies {keys rest : List (Nat × Label)} {key : Nat × Label} {n : Nat}
    (members : keys.Perm (List.replicate n key ++ rest))
    (last : ∀ k ∈ keys, keyLE k key = true) :
    keys.mergeSort keyLE = rest.mergeSort keyLE ++ List.replicate n key := by
  have sorted := List.mergeSort_perm rest keyLE
  refine mergeSort_keyLE_eq ((members.trans List.perm_append_comm).trans
    (sorted.symm.append_right _)) ?_
  refine List.pairwise_append.mpr ⟨pairwise_mergeSort_keyLE rest,
    List.pairwise_replicate.mpr (.inr (keyLE_self key)), fun q hq r hr => ?_⟩
  rw [List.eq_of_mem_replicate hr]
  exact last q (members.symm.subset (List.mem_append_right _ (sorted.subset hq)))

theorem leafHashes_eq_append {rest : List (Nat × Label)} {n : Nat}
    (members : (ts.map Transaction.key).Perm (List.replicate n t.key ++ rest))
    (last : ∀ u ∈ ts, keyLE u.key t.key = true) :
    leafHashes ts = (rest.mergeSort keyLE).map (·.2) ++ List.replicate n t.computedHash := by
  have sorted := mergeSort_keyLE_copies members (List.forall_mem_map.mpr last)
  rw [leafHashes, sorted, List.map_append, List.map_replicate]
  rfl

theorem root_eq_of_supplied {i : Nat} (hi : i < ts.length) (h : Supplied ts ts[i]) :
    transactionRoot (ts.eraseIdx i) = transactionRoot ts := by
  obtain ⟨k, m, length, copies⟩ := h.repeated
  have within := Nat.lt_of_lt_of_le copies (count_body_le_count_key ts ts[i])
  obtain ⟨rest, whole⟩ := (List.replicate_sublist_iff.mpr within).exists_perm_append
  have without : ((ts.eraseIdx i).map Transaction.key).Perm
      (List.replicate (2 ^ k) ts[i].key ++ rest) := by
    have erased := (List.getElem_cons_eraseIdx_perm hi).map Transaction.key
    exact (List.perm_cons ts[i].key).mp (erased.trans whole)
  have front : rest.length = 2 ^ (k + 1) * (m + 1) := by
    have count := whole.length_eq
    rw [List.length_map, List.length_append, List.length_replicate, length] at count
    grind
  have tops : top (leafHashes (ts.eraseIdx i)) = top (leafHashes ts) := by
    rw [leafHashes_eq_append whole h.last,
      leafHashes_eq_append without fun u hu => h.last u (List.mem_of_mem_eraseIdx hu),
      top_eq_foldPairs, top_eq_foldPairs]
    exact (foldPairs_append_replicate _ (by simpa using front)).symm
  obtain ⟨root, ok⟩ := transactionRoot_eq_ok (List.ne_nil_of_length_pos (Nat.zero_lt_of_lt hi))
  rw [ok, transactionRoot_eq_ok_iff, tops]
  exact transactionRoot_eq_ok_iff.mp ok

/-! ## Copies of one transaction -/

theorem leafHashes_replicate (n : Nat) (t : Transaction) :
    leafHashes (List.replicate n t) = List.replicate n t.computedHash := by
  have members : ((List.replicate n t).map Transaction.key).Perm
      (List.replicate n t.key ++ []) := by
    rw [List.map_replicate, List.append_nil]
  have last : ∀ u ∈ List.replicate n t, keyLE u.key t.key = true := by
    intro u hu
    rw [List.eq_of_mem_replicate hu]
    exact keyLE_self t.key
  simpa using leafHashes_eq_append members last

/-- What is hashed for up to four copies. -/
def copyStrings (t : Transaction) : List Bytes :=
  let pair := node t.computedHash t.computedHash
  [t.body, nodeBytes t.computedHash t.computedHash, nodeBytes pair pair]

theorem rootStrings_copies (t : Transaction) :
    ∀ {n : Nat}, n ≤ 4 → rootStrings (List.replicate n t) ⊆ copyStrings t
  | 0, _ | 1, _ | 2, _ | 3, _ | 4, _ => by
    rw [rootStrings, leafHashes_replicate]
    simp [List.replicate, bytesAbove, pairWith, pairUp, copyStrings]

/-- A transaction that moves nothing. -/
def Transaction.blank : Transaction := .create .empty 0 .empty .empty

theorem collisionFree_blank : CollisionFree (copyStrings .blank) := by
  have apart : ((copyStrings .blank).map doubleDigest).Nodup := by decide +kernel
  exact fun x hx y hy same => List.inj_on_of_nodup_map apart hx hy same

theorem collisionFree_blanks {m n : Nat} (hm : m ≤ 4) (hn : n ≤ 4) :
    CollisionFree (rootStrings (List.replicate m .blank) ++
      rootStrings (List.replicate n .blank)) :=
  collisionFree_blank.mono (List.append_subset.mpr
    ⟨rootStrings_copies .blank hm, rootStrings_copies .blank hn⟩)

/-! ## What leaving out does -/

/-- **Leaving a transaction out** changes the root, except where the tree supplies a copy of it, as
long as there is no collision between the byte strings that are hashed for the two roots. -/
theorem root_eraseIdx_eq_iff {i : Nat} (hi : i < ts.length)
    (free : CollisionFree (rootStrings ts ++ rootStrings (ts.eraseIdx i))) :
    transactionRoot (ts.eraseIdx i) = transactionRoot ts ↔ Supplied ts ts[i] := by
  refine ⟨fun same => ?_, root_eq_of_supplied hi⟩
  obtain ⟨root, ok⟩ := transactionRoot_eq_ok (List.ne_nil_of_length_pos (Nat.zero_lt_of_lt hi))
  exact supplied_of_root_eq hi free ok (same.trans ok)

/-- Of three copies none is supplied. -/
theorem root_eraseIdx_ne_three :
    let ts := List.replicate 3 Transaction.blank
    2 < ts.length ∧ CollisionFree (rootStrings ts ++ rootStrings (ts.eraseIdx 2)) ∧
      transactionRoot (ts.eraseIdx 2) ≠ transactionRoot ts := by
  intro ts
  have hi : 2 < ts.length := by simp [ts]
  have free : CollisionFree (rootStrings ts ++ rootStrings (ts.eraseIdx 2)) :=
    collisionFree_blanks (m := 3) (n := 2) (by decide) (by decide)
  refine ⟨hi, free, fun same => ?_⟩
  have supplied := (root_eraseIdx_eq_iff hi free).mp same
  exact supplied.length_ne 1 List.length_replicate

/-- Three copies have the root of four, since the third is joined with itself. -/
theorem root_eraseIdx_eq_four :
    let ts := List.replicate 4 Transaction.blank
    2 ≤ ts.length ∧ 3 < ts.length ∧
      CollisionFree (rootStrings ts ++ rootStrings (ts.eraseIdx 3)) ∧
      transactionRoot (ts.eraseIdx 3) = transactionRoot ts := by
  intro ts
  have hi : 3 < ts.length := by simp [ts]
  have supplied : Supplied ts ts[3] := by
    refine ⟨fun u hu => ?_, 0, 0, by simp [ts], by simp [ts]⟩
    rw [List.eq_of_mem_replicate hu]
    exact keyLE_self _
  exact ⟨by simp [ts], hi, collisionFree_blanks (m := 4) (n := 3) (by decide) (by decide),
    root_eq_of_supplied hi supplied⟩

end ChainNode
