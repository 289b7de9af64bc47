import ChainNode.Proofs.Fingerprint
import ChainNode.Proofs.Merkle.Shape

/-!
# A root names one tree

A tree with the byte strings of its leaves in it forgets nothing, and its hash tells it from every
other tree, as long as no two of the byte strings that are hashed in them have one digest. One more
thing is needed: a leaf must not look like an inner node (`Told`), or a tree could stand for a
smaller one.

* `HashTree.eq_of_hash_eq`: one hash, one tree.
* `HashTree.strings_foldPairs`: all that is hashed in the tree over a row of leaves.
-/
namespace ChainNode.Merkle

open Canonical

/-- No two of these byte strings have one digest. -/
def CollisionFree (strings : List Bytes) : Prop :=
  ∀ x ∈ strings, ∀ y ∈ strings, doubleDigest x = doubleDigest y → x = y

/-- Two of these byte strings differ and have one digest. -/
def Collision (strings : List Bytes) : Prop :=
  ∃ x ∈ strings, ∃ y ∈ strings, x ≠ y ∧ doubleDigest x = doubleDigest y

theorem collisionFree_or_collision (strings : List Bytes) :
    CollisionFree strings ∨ Collision strings := by
  by_cases free : CollisionFree strings
  · exact .inl free
  · right
    simp only [CollisionFree, not_forall] at free
    obtain ⟨x, hx, y, hy, digest, apart⟩ := free
    exact ⟨x, hx, y, hy, apart, digest⟩

theorem CollisionFree.mono {strings strings' : List Bytes} (free : CollisionFree strings)
    (h : strings' ⊆ strings) : CollisionFree strings' :=
  fun x hx y hy => free x (h hx) y (h hy)

theorem nodeBytes_injective : Function.Injective2 nodeBytes := by
  intro a c b d h
  obtain ⟨left, h⟩ := selfDelimiting_label h
  exact ⟨left, selfDelimiting_label.injective h⟩

/-! ## Trees -/

inductive HashTree where
  | leaf (bytes : Bytes)
  | node (left right : HashTree)

namespace HashTree

def hash : HashTree → Label
  | leaf bytes => fingerprint bytes
  | node left right => Merkle.node left.hash right.hash

/-- What the hash of a tree is the fingerprint of. -/
def bytes : HashTree → Bytes
  | leaf bytes => bytes
  | node left right => nodeBytes left.hash right.hash

/-- All byte strings that are hashed in a tree. -/
def strings : HashTree → List Bytes
  | leaf bytes => [bytes]
  | node left right => nodeBytes left.hash right.hash :: (left.strings ++ right.strings)

/-- The level that a tree is on, if it is perfect. -/
def rank : HashTree → Nat
  | leaf _ => 0
  | node left _ => left.rank + 1

/-- No leaf looks like an inner node. -/
def Told : HashTree → Prop
  | leaf bytes => ∀ x y, bytes ≠ nodeBytes (fingerprint x) (fingerprint y)
  | node left right => left.Told ∧ right.Told

theorem faithful : Faithful node rank where
  parts _ _ _ _ h := node.inj h
  rank _ _ := rfl

theorem hash_eq_fingerprint (t : HashTree) : t.hash = fingerprint t.bytes := by
  cases t <;> rfl

theorem bytes_mem_strings (t : HashTree) : t.bytes ∈ t.strings := by
  cases t <;> simp [bytes, strings]

theorem bytes_eq_of_hash_eq {strings : List Bytes} (free : CollisionFree strings) {t u : HashTree}
    (ht : t.strings ⊆ strings) (hu : u.strings ⊆ strings) (h : t.hash = u.hash) :
    t.bytes = u.bytes := by
  rw [hash_eq_fingerprint, hash_eq_fingerprint u, fingerprint_eq_iff] at h
  exact free _ (ht t.bytes_mem_strings) _ (hu u.bytes_mem_strings) h

/-- What is hashed at an inner node is not what is hashed at a leaf. -/
theorem Told.ne_node {bytes : Bytes} (told : (leaf bytes).Told) (left right : HashTree) :
    bytes ≠ nodeBytes left.hash right.hash := by
  rw [left.hash_eq_fingerprint, right.hash_eq_fingerprint]
  exact told _ _

/-- By induction on one tree, for all others: equal hashes make equal byte strings, which are those
of two leaves, or of two inner nodes with equal hashes below them. -/
theorem eq_of_hash_eq {strings : List Bytes} (free : CollisionFree strings) {t u : HashTree}
    (ht : t.strings ⊆ strings) (hu : u.strings ⊆ strings) (told : t.Told) (told' : u.Told)
    (h : t.hash = u.hash) : t = u := by
  have same := bytes_eq_of_hash_eq free ht hu h
  clear h
  induction t generalizing u with
  | leaf a =>
    cases u with
    | leaf b => exact congrArg leaf same
    | node left right => exact absurd same (told.ne_node left right)
  | node left right ihl ihr =>
    cases u with
    | leaf b => exact absurd same.symm (told'.ne_node left right)
    | node left' right' =>
      obtain ⟨hleft, hright⟩ := nodeBytes_injective same
      obtain ⟨-, below⟩ := List.cons_subset.mp ht
      obtain ⟨-, below'⟩ := List.cons_subset.mp hu
      obtain ⟨hl, hr⟩ := List.append_subset.mp below
      obtain ⟨hl', hr'⟩ := List.append_subset.mp below'
      rw [ihl hl hl' told.1 told'.1 (bytes_eq_of_hash_eq free hl hl' hleft),
        ihr hr hr' told.2 told'.2 (bytes_eq_of_hash_eq free hr hr' hright)]

end HashTree

/-! ## The tree over a row of leaves -/

/-- The byte strings that are hashed above a level. -/
def bytesAbove : List Label → List Bytes
  | [] => []
  | [_] => []
  | a :: b :: rest => pairWith nodeBytes (a :: b :: rest) ++ bytesAbove (pairUp (a :: b :: rest))
termination_by level => level.length
decreasing_by exact pairUp_length_lt a b rest

namespace HashTree

theorem map_hash_pairWith (ts : List HashTree) :
    (pairWith node ts).map hash = pairUp (ts.map hash) := by
  rw [map_pairWith, pairUp_eq_pairWith, pairWith_map]
  rfl

theorem top_map_hash (ts : List HashTree) : top (ts.map hash) = (foldPairs node ts).map hash := by
  rw [top_eq_foldPairs, map_foldPairs fun _ _ => rfl]

theorem strings_pairWith (ts : List HashTree) :
    (pairWith node ts).flatMap strings ⊆
      ts.flatMap strings ++ pairWith nodeBytes (ts.map hash) := by
  intro x hx
  obtain ⟨z, hz, hx⟩ := List.mem_flatMap.mp hx
  have seam : z.bytes ∈ pairWith nodeBytes (ts.map hash) := by
    have mapped := List.mem_map_of_mem (f := bytes) hz
    rw [map_pairWith] at mapped
    rw [pairWith_map]
    exact mapped
  obtain ⟨left, hleft, right, hright, rfl⟩ := mem_of_mem_pairWith hz
  rcases List.mem_cons.mp hx with rfl | below
  · exact List.mem_append_right _ seam
  · rcases List.mem_append.mp below with hl | hr
    · exact List.mem_append_left _ (List.mem_flatMap.mpr ⟨left, hleft, hl⟩)
    · exact List.mem_append_left _ (List.mem_flatMap.mpr ⟨right, hright, hr⟩)

theorem strings_foldPairs {t : HashTree} {ts : List HashTree}
    (folded : foldPairs node ts = some t) :
    t.strings ⊆ ts.flatMap strings ++ bytesAbove (ts.map hash) := by
  induction ts using foldPairs.induct node with
  | case1 => simp [foldPairs] at folded
  | case2 a =>
    rw [foldPairs, Option.some.injEq] at folded
    simp [folded]
  | case3 a b rest ih =>
    rw [foldPairs] at folded
    have above := ih folded
    rw [map_hash_pairWith] at above
    intro x hx
    rw [List.map_cons, List.map_cons, bytesAbove, ← List.append_assoc]
    rcases List.mem_append.mp (above hx) with low | high
    · exact List.mem_append_left _ (strings_pairWith _ low)
    · exact List.mem_append_right _ high

theorem told_foldPairs {t : HashTree} {ts : List HashTree} (told : ∀ u ∈ ts, u.Told)
    (folded : foldPairs node ts = some t) : t.Told := by
  induction ts using foldPairs.induct node with
  | case1 => simp [foldPairs] at folded
  | case2 a =>
    rw [foldPairs, Option.some.injEq] at folded
    exact folded ▸ told a (by simp)
  | case3 a b rest ih =>
    rw [foldPairs] at folded
    refine ih (fun u hu => ?_) folded
    obtain ⟨left, hleft, right, hright, rfl⟩ := mem_of_mem_pairWith hu
    exact ⟨told left hleft, told right hright⟩

end HashTree

end ChainNode.Merkle
