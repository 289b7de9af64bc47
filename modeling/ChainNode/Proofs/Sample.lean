import ChainNode.Proofs.Merkle.Leaves
import ChainNode.Sample

/-!
# Sample blocks are acceptable

A list of transactions that is not empty has a Merkle root, and a sample block carries that root and
its own hash and claims no difficulty. So it follows the head it was made for
(`follows_successor`).
-/
namespace ChainNode

namespace Sample

variable {head : Block} {ts : List Transaction}

theorem checkContents_successor (h : ts ≠ []) : (successor head ts).checkContents = .ok () := by
  obtain ⟨root, hroot⟩ := transactionRoot_eq_ok h
  have work : (successor head ts).checkWork = .ok () := by
    unfold Block.checkWork
    exact if_pos (by simp [meetsDifficulty])
  have carried : (successor head ts).transactions = ts := rfl
  have written : (successor head ts).merkleRoot = root := by
    change (transactionRoot ts).toOption.getD .empty = root
    rw [hroot]
    rfl
  have transactions : (successor head ts).checkTransactions = .ok () := by
    unfold Block.checkTransactions
    rw [carried, written, hroot, if_neg (by simpa using h)]
    exact if_pos rfl
  have correct : (successor head ts).isCorrect = true := Block.isCorrect_rehash _
  unfold Block.checkContents
  rw [if_pos correct, work, transactions]

theorem follows_successor (nonempty : ts ≠ []) : Block.Follows head (successor head ts) :=
  ⟨rfl, rfl, checkContents_successor nonempty⟩

/-- A block for position 2, with a transaction that moves nothing. -/
def second : Block := successor .genesis [.create (.ofString "sender") 0 .empty .empty]

theorem follows_second : Block.Follows .genesis second :=
  follows_successor (List.cons_ne_nil _ _)

theorem hash_second_ne : second.hash ≠ Block.genesis.hash := by
  decide +kernel

theorem sealDigest_second_ne :
    doubleDigest Block.genesis.sealBytes ≠ doubleDigest second.sealBytes := by
  intro same
  have hash : second.hash = fingerprint second.sealBytes := Block.hash_rehash _
  have hash' : Block.genesis.hash = fingerprint Block.genesis.sealBytes := Block.hash_rehash _
  rw [← fingerprint_eq_iff] at same
  exact hash_second_ne (by rw [hash, hash', same])

/-- A block for position 3, with the same transaction. -/
def third : Block := successor second [.create (.ofString "sender") 0 .empty .empty]

theorem follows_third : Block.Follows second third :=
  follows_successor (List.cons_ne_nil _ _)

theorem hash_third_notMem : third.hash ∉ [Block.genesis.hash, second.hash] := by
  decide +kernel

/-- A first block at the last position. -/
def last : Block := { Block.genesis with position := UInt64.ofNat (UInt64.size - 1) }

end Sample

end ChainNode
