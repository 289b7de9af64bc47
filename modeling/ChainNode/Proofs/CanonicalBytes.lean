import ChainNode.Proofs.Merkle.Leaves

/-!
# Canonical bytes identify their entity

What is hashed for an entity is the row of its fields, the hash that it carries left out. So two
entities of one kind have the same bytes exactly if they agree in all those fields; and of the two
kinds that are hashed into one tree, transactions and inner nodes, none has the bytes of the other.

* `sealBytes_eq_iff`, `Transaction.body_eq_iff`, `BlockInfo.encode_eq_iff`, `nodeBytes_eq_iff`: one
  for each kind.
* `bytes_identify`: all of them together.
-/
namespace ChainNode

theorem Block.sealBytes_eq_iff {a b : Block} :
    a.sealBytes = b.sealBytes ↔ a = { b with hash := a.hash } := by
  constructor
  · exact eq_of_sealBytes_eq
  · intro same
    rw [same]
    rfl

theorem Transaction.body_eq_iff {s t : Transaction} :
    s.body = t.body ↔ s = { t with hash := s.hash } := by
  constructor
  · exact eq_of_body_eq
  · intro same
    rw [same]
    rfl

theorem BlockInfo.encode_eq_iff {i j : BlockInfo} : i.encode = j.encode ↔ i = j :=
  ⟨selfDelimiting_info.injective, congrArg _⟩

theorem Merkle.nodeBytes_eq_iff {left right left' right' : Label} :
    nodeBytes left right = nodeBytes left' right' ↔ left = left' ∧ right = right' :=
  nodeBytes_injective.eq_iff

/-- **Identity.** Seals are equal exactly if the blocks agree in everything but the hash, carried
transactions with their hashes included; bodies, exactly if the transactions agree in everything but
the hash; infos and inner nodes have equal bytes exactly if both of their parts are equal. The body
of a transaction is never what is hashed at an inner node whose right part is the text of a hash. -/
theorem bytes_identify :
    (∀ a b : Block, a.sealBytes = b.sealBytes ↔ a = { b with hash := a.hash }) ∧
      (∀ s t : Transaction, s.body = t.body ↔ s = { t with hash := s.hash }) ∧
      (∀ i j : BlockInfo, i.encode = j.encode ↔ i = j) ∧
      (∀ left right left' right' : Label, Merkle.nodeBytes left right =
        Merkle.nodeBytes left' right' ↔ left = left' ∧ right = right') ∧
      ∀ (t : Transaction) (left right : Label), IsHashText right →
        t.body ≠ Merkle.nodeBytes left right := by
  refine ⟨fun _ _ => Block.sealBytes_eq_iff, fun _ _ => Transaction.body_eq_iff,
    fun _ _ => BlockInfo.encode_eq_iff, fun _ _ _ _ => Merkle.nodeBytes_eq_iff, ?_⟩
  intro t left right hash
  exact t.body_ne_nodeBytes left hash

/-- The body that comes closest to an inner node: the left hash is its sender, and its time is the
count that the right one begins with. -/
theorem bytes_identify_closest :
    let left := fingerprint [0]
    let right := fingerprint [1]
    let t : Transaction := ⟨.empty, left, 128, .empty, .empty⟩
    let start := Canonical.label left ++ Bytes.le64 128
    IsHashText right ∧ start <+: t.body ∧ start <+: Merkle.nodeBytes left right ∧
      t.body ≠ Merkle.nodeBytes left right := by
  intro left right t start
  have hash : IsHashText right := isHashText_fingerprint _
  have in_body : start <+: t.body :=
    ⟨Canonical.row Transaction.Input.encode .empty ++
      Canonical.row Transaction.Output.encode .empty, by
      rw [← List.append_assoc]
      rfl⟩
  obtain ⟨digits, written, -, -⟩ := hash.exists_label
  have in_node : start <+: Merkle.nodeBytes left right :=
    ⟨digits, by rw [Merkle.nodeBytes, written, List.append_assoc]⟩
  exact ⟨hash, in_body, in_node, bytes_identify.2.2.2.2 t left right hash⟩

end ChainNode
