import ChainNode.Proofs.Entity
import ChainNode.Proofs.Merkle.Tree

/-!
# The leaves under a block's root

Every transaction has bytes to hash, so a list of transactions that is not empty has a root. The
leaves are the hashes of the transactions in the order of time and hash; what is hashed for them are
the bodies. A body is never what is hashed for an inner node: its sender may be a hash, but the
digits of a second hash leave no room for the zeros in the number of its inputs.

* `transactionRoot_eq_ok_iff`, `transactionRoot_eq_ok`: the root, and that it exists.
* `Transaction.body_ne_nodeBytes`: leaves and inner nodes are told apart.
* `rootStrings`: all byte strings that are hashed for a root.
* `exists_tree`: the tree that the root is the hash of.
-/
namespace ChainNode

open Canonical

/-! ## What a body is not -/

theorem utf8EncodeChar_ascii {c : Char} (h : c.toNat < 128) :
    String.utf8EncodeChar c = [UInt8.ofNat c.toNat] :=
  if_pos (Nat.le_of_lt_succ h)

theorem toList_utf8Encode : ∀ {cs : List Char}, (∀ c ∈ cs, c.toNat < 128) →
    cs.utf8Encode.data.toList = cs.map fun c => UInt8.ofNat c.toNat
  | [], _ => by simp [List.utf8Encode]
  | c :: cs, h => by
    obtain ⟨head, tail⟩ := List.forall_mem_cons.mp h
    have rest := toList_utf8Encode tail
    simp only [List.utf8Encode, List.data_toByteArray, List.flatMap_cons] at rest ⊢
    rw [List.map_cons, utf8EncodeChar_ascii head, ← rest]
    rfl

/-- The text of a hash: 128 hexadecimal digits, with letters in either case. -/
structure IsHashText (s : Label) : Prop where
  length : s.chars.length = 128
  digits : ∀ c ∈ s.chars.toList, c ∈ "0123456789abcdefABCDEF".toList

theorem isHashText_fingerprint (x : Bytes) : IsHashText (fingerprint x) where
  length := length_fingerprint x
  digits c hc := by
    have lower : "0123456789abcdef".toList ⊆ "0123456789abcdefABCDEF".toList := by decide
    exact lower (mem_fingerprint hc)

/-- It is written as a count of 128 and as many digits, none of which is a zero byte. -/
theorem IsHashText.exists_label {s : Label} (h : IsHashText s) :
    ∃ digits : Bytes, label s = Bytes.le64 128 ++ digits ∧ digits.length = 128 ∧ 0 ∉ digits := by
  have ascii : ∀ c ∈ "0123456789abcdefABCDEF".toList, 0 < c.toNat ∧ c.toNat < 128 := by simp
  have written : s.chars.toUTF8.data.toList = s.chars.toList.map fun c => UInt8.ofNat c.toNat := by
    rw [← toList_utf8Encode fun c hc => (ascii c (h.digits c hc)).2, String.toUTF8,
      ← String.toByteArray_ofList, String.ofList_toList]
  have length : s.chars.toUTF8.data.toList.length = 128 := by
    rw [written, List.length_map, String.length_toList, h.length]
  have size : s.chars.utf8ByteSize = 128 := by simpa using length
  refine ⟨s.chars.toUTF8.data.toList, ?_, length, ?_⟩
  · rw [label, text, size]
    rfl
  · rw [written, List.mem_map]
    rintro ⟨c, hc, zero⟩
    have range := ascii c (h.digits c hc)
    have value := congrArg UInt8.toNat zero
    rw [UInt8.toNat_ofNat', Nat.mod_eq_of_lt (by omega)] at value
    exact absurd value (Nat.ne_of_gt range.1)

theorem zero_mem_count {n : Nat} (small : n < 256) : 0 ∈ count n := by
  have high : (UInt64.ofNat n >>> 56).toUInt8 = 0 := by
    apply UInt8.toNat_inj.mp
    simp only [UInt64.toNat_toUInt8, UInt64.toNat_shiftRight, UInt64.toNat_ofNat',
      UInt64.reduceToNat, Nat.reduceMod, Nat.shiftRight_eq_div_pow, UInt8.reduceToNat]
    omega
  rw [count, Bytes.le64, high]
  simp

theorem length_le_flatMap {α : Type} {write : α → Bytes} (positive : ∀ a, 1 ≤ (write a).length) :
    ∀ xs : List α, xs.length ≤ (xs.flatMap write).length
  | [] => Nat.le_refl 0
  | a :: xs => by
    have here := positive a
    have rest := length_le_flatMap positive xs
    rw [List.flatMap_cons, List.length_append, List.length_cons]
    omega

namespace Transaction

/-- The sender may be any text, so nothing is needed of the left part. -/
theorem body_ne_nodeBytes (t : Transaction) (left : Label) {right : Label}
    (hash : IsHashText right) : t.body ≠ Merkle.nodeBytes left right := by
  intro h
  simp only [body, Merkle.nodeBytes, List.append_assoc] at h
  obtain ⟨-, behind⟩ := selfDelimiting_label (y := label right) h
  obtain ⟨digits, written, length, nonzero⟩ := hash.exists_label
  rw [written] at behind
  obtain ⟨-, moved⟩ := List.append_inj behind rfl
  -- The second hash would have to be the inputs and outputs.
  have few : t.inputs.val.length ≤ digits.length := by
    have positive : ∀ i : Input, 1 ≤ i.encode.length := fun i => by simp [Input.encode]
    have inputs := length_le_flatMap positive t.inputs.val
    rw [← moved, row, list, List.length_append, List.length_append]
    omega
  refine nonzero ?_
  rw [← moved, row, list, List.append_assoc]
  exact List.mem_append_left _ (zero_mem_count (by omega))

theorem body_ne_nil (t : Transaction) : t.body ≠ [] := by
  simp [body, Canonical.label, Canonical.text, Canonical.count, Bytes.le64]

theorem hash_entity (t : Transaction) : t.entity.hash = .ok t.computedHash := by
  have bytes : t.entity.bytes = .ok t.body := by
    unfold Entity.bytes entity
    cases h : t.body with
    | nil => exact absurd h t.body_ne_nil
    | cons _ _ => rfl
  rw [Entity.hash, bytes]
  rfl

/-- What transactions are put in order by. -/
def key (t : Transaction) : Nat × Label := (t.timestamp.toNat, t.computedHash)

variable {s t : Transaction}

theorem timestamp_eq_of_body_eq (h : s.body = t.body) : s.timestamp = t.timestamp := by
  rw [congrArg timestamp (eq_of_body_eq h)]

theorem key_eq_of_body_eq (h : s.body = t.body) : s.key = t.key := by
  rw [key, key, computedHash, computedHash, h, timestamp_eq_of_body_eq h]

theorem entity_eq_of_body_eq (h : s.body = t.body) : s.entity = t.entity := by
  rw [entity, entity, h, timestamp_eq_of_body_eq h]

end Transaction

/-! ## The row of leaves -/

/-- Transactions in the order of their leaves. -/
def inOrder (ts : List Transaction) : List Transaction :=
  ts.mergeSort fun s t => keyLE s.key t.key

def leafHashes (ts : List Transaction) : List Label :=
  ((ts.map Transaction.key).mergeSort keyLE).map (·.2)

variable {ts us : List Transaction} {root : Label}

theorem perm_inOrder (ts : List Transaction) : (inOrder ts).Perm ts :=
  List.mergeSort_perm _ _

theorem map_key_inOrder (ts : List Transaction) :
    (inOrder ts).map Transaction.key = (ts.map Transaction.key).mergeSort keyLE :=
  List.map_mergeSort fun _ _ _ _ => rfl

theorem pairwise_inOrder (ts : List Transaction) :
    (inOrder ts).Pairwise fun s t => keyLE s.key t.key = true := by
  rw [← List.pairwise_map (f := Transaction.key) (R := fun a b => keyLE a b = true),
    map_key_inOrder]
  exact pairwise_mergeSort_keyLE _

theorem leafHashes_eq (ts : List Transaction) :
    leafHashes ts = (inOrder ts).map Transaction.computedHash := by
  rw [leafHashes, ← map_key_inOrder, List.map_map]
  rfl

theorem collect_entities (ts : List Transaction) :
    collect (fun e => (e.sequence, ·) <$> e.hash) (ts.map Transaction.entity) =
      .ok (ts.map Transaction.key) := by
  rw [collect_map]
  refine collect_eq_ok fun t _ => ?_
  rw [Transaction.hash_entity]
  rfl

theorem transactionRoot_eq_ok_iff :
    transactionRoot ts = .ok root ↔ Merkle.top (leafHashes ts) = some root := by
  rw [transactionRoot, merkleRoot_eq_ok_iff, collect_entities]
  simp only [Except.ok.injEq, exists_eq_left']
  exact Iff.rfl

theorem transactionRoot_eq_ok (h : ts ≠ []) : ∃ root, transactionRoot ts = .ok root := by
  have leaves : leafHashes ts ≠ [] := by
    intro empty
    have lengths := congrArg List.length empty
    simp [leafHashes, h] at lengths
  obtain ⟨root, top⟩ := Merkle.top_isSome leaves
  exact ⟨root, transactionRoot_eq_ok_iff.mpr top⟩

/-! ## The tree -/

/-- All byte strings that are hashed for a root: the bodies, and two hashes for each inner node. -/
def rootStrings (ts : List Transaction) : List Bytes :=
  ts.map Transaction.body ++ Merkle.bytesAbove (leafHashes ts)

open Merkle

def leaves (ts : List Transaction) : List HashTree := (inOrder ts).map fun t => .leaf t.body

@[simp]
theorem length_leaves (ts : List Transaction) : (leaves ts).length = ts.length := by
  rw [leaves, List.length_map, (perm_inOrder ts).length_eq]

theorem perm_leaves (ts : List Transaction) :
    (leaves ts).Perm (ts.map fun t => .leaf t.body) :=
  (perm_inOrder ts).map _

theorem perm_bytes_leaves (ts : List Transaction) :
    ((leaves ts).map HashTree.bytes).Perm (ts.map Transaction.body) := by
  have inside := (perm_leaves ts).map HashTree.bytes
  rw [List.map_map] at inside
  exact inside

theorem rank_leaves (ts : List Transaction) : ∀ leaf ∈ leaves ts, leaf.rank = 0 := by
  intro leaf h
  obtain ⟨t, -, rfl⟩ := List.mem_map.mp h
  rfl

theorem told_leaves (ts : List Transaction) : ∀ leaf ∈ leaves ts, leaf.Told := by
  intro leaf h
  obtain ⟨t, -, rfl⟩ := List.mem_map.mp h
  exact fun x y => t.body_ne_nodeBytes (fingerprint x) (isHashText_fingerprint y)

theorem map_hash_leaves (ts : List Transaction) :
    (leaves ts).map HashTree.hash = leafHashes ts := by
  rw [leaves, leafHashes_eq, List.map_map]
  rfl

theorem strings_leaves (ts : List Transaction) :
    (leaves ts).flatMap HashTree.strings ⊆ ts.map Transaction.body := by
  intro x hx
  obtain ⟨leaf, hleaf, hx⟩ := List.mem_flatMap.mp hx
  obtain ⟨t, ht, rfl⟩ := List.mem_map.mp hleaf
  rw [List.mem_singleton.mp hx]
  exact List.mem_map_of_mem ((perm_inOrder ts).subset ht)

theorem exists_tree (h : transactionRoot ts = .ok root) :
    ∃ tree, foldPairs HashTree.node (leaves ts) = some tree ∧ tree.hash = root ∧ tree.Told ∧
      tree.strings ⊆ rootStrings ts := by
  rw [transactionRoot_eq_ok_iff, ← map_hash_leaves, HashTree.top_map_hash] at h
  obtain ⟨tree, folded, hash⟩ := Option.map_eq_some_iff.mp h
  refine ⟨tree, folded, hash, HashTree.told_foldPairs (told_leaves ts) folded, fun x hx => ?_⟩
  have within := HashTree.strings_foldPairs folded hx
  rw [map_hash_leaves] at within
  exact List.append_subset.mpr ⟨List.subset_append_of_subset_left _ (strings_leaves ts),
    List.subset_append_right _ _⟩ within

/-- Without collisions, one root is the hash of one tree. -/
theorem exists_common_tree (free : CollisionFree (rootStrings ts ++ rootStrings us))
    (h : transactionRoot ts = .ok root) (h' : transactionRoot us = .ok root) :
    ∃ tree, foldPairs HashTree.node (leaves ts) = some tree ∧
      foldPairs HashTree.node (leaves us) = some tree := by
  obtain ⟨t, folded, hash, told, strings⟩ := exists_tree h
  obtain ⟨u, folded', hash', told', strings'⟩ := exists_tree h'
  have same : t = u := HashTree.eq_of_hash_eq free
    (List.subset_append_of_subset_left _ strings) (List.subset_append_of_subset_right _ strings')
    told told' (hash.trans hash'.symm)
  exact ⟨t, folded, same ▸ folded'⟩

end ChainNode
