import ChainNode.Block

/-!
# Which block may follow which

A block follows a head if it carries the next position and the head's hash, and if its contents
are in order: its hash names its seal and is difficult enough for the work it claims, it carries
transactions, and its Merkle root is theirs. The first rule that fails is the one reported.
Positions are words: position 0 is next after the last one.

* `checkFollows_eq_ok_iff`: what the check accepts, as a relation between two blocks.
* `Follows.height`: the next position is one higher, unless the head has the last one.
-/
namespace ChainNode

inductive InvalidBlock where
  | positionMismatch (expected actual : Nat)
  | lastHashMismatch (position : Nat)
  | hashMismatch (position : Nat)
  | insufficientDifficulty (position : Nat) (difficulty : UInt32)
  | merkleMismatch (position : Nat)
  | noTransactions (position : Nat)
  | alreadyKnown (hash : Label)
  | hashing (cause : HashError)
  deriving DecidableEq, Repr

def InvalidBlock.name : InvalidBlock → String
  | .positionMismatch .. => "PositionMismatch"
  | .lastHashMismatch _ => "LastHashMismatch"
  | .hashMismatch _ => "HashMismatch"
  | .insufficientDifficulty .. => "InsufficientDifficulty"
  | .merkleMismatch _ => "MerkleRootMismatch"
  | .noTransactions _ => "EmptyTransactions"
  | .alreadyKnown _ => "AlreadyKnown"
  | .hashing cause => s!"Hashing.{cause.name}"

def InvalidBlock.message : InvalidBlock → String
  | .positionMismatch expected actual =>
    s!"Position mismatch: expected {expected}, got {actual}"
  | .lastHashMismatch position => s!"Last hash mismatch at position {position}"
  | .hashMismatch position => s!"Hash mismatch at position {position}"
  | .insufficientDifficulty position difficulty =>
    s!"Insufficient difficulty at position {position}: need {difficulty} leading zeros"
  | .merkleMismatch position => s!"Merkle root mismatch at position {position}"
  | .noTransactions position => s!"Block at position {position} carries no transactions"
  | .alreadyKnown hash => s!"Block already known: {hash}"
  | .hashing cause => s!"Hashing failed: {cause.message}"

instance : Fault InvalidBlock := ⟨InvalidBlock.name, InvalidBlock.message⟩

namespace Block

def checkTransactions (b : Block) : Except InvalidBlock Unit :=
  if b.transactions.isEmpty then .error (.noTransactions b.height)
  else
    match transactionRoot b.transactions with
    | .error cause => .error (.hashing cause)
    | .ok root => if root = b.merkleRoot then .ok () else .error (.merkleMismatch b.height)

/-- A block of majority voting claims no work. -/
def checkWork (b : Block) : Except InvalidBlock Unit :=
  match b.work? with
  | none => .ok ()
  | some work =>
    if meetsDifficulty b.hash work.difficulty then .ok ()
    else .error (.insufficientDifficulty b.height work.difficulty)

/-- What can be said of a block without its neighbours. -/
def checkContents (b : Block) : Except InvalidBlock Unit :=
  if b.isCorrect then
    match b.checkWork with
    | .error e => .error e
    | .ok () => b.checkTransactions
  else .error (.hashMismatch b.height)

/-- The position of the block after this one. The last position is followed by position 0. -/
def nextPosition (b : Block) : UInt64 := b.position + 1

/-- May `b` be the next block after `head`? -/
def checkFollows (head b : Block) : Except InvalidBlock Unit :=
  if b.position ≠ head.nextPosition then
    .error (.positionMismatch head.nextPosition.toNat b.height)
  else if b.lastHash ≠ head.hash then .error (.lastHashMismatch b.height)
  else b.checkContents

/-- The same as a relation. -/
structure Follows (head b : Block) : Prop where
  position : b.position = head.nextPosition
  lastHash : b.lastHash = head.hash
  contents : b.checkContents = .ok ()

theorem checkFollows_eq_ok_iff {head b : Block} :
    checkFollows head b = .ok () ↔ Follows head b := by
  unfold checkFollows
  by_cases h1 : b.position = head.nextPosition
  · by_cases h2 : b.lastHash = head.hash
    · simp only [h1, h2, ne_eq, not_true_eq_false, if_false]
      exact ⟨fun h => ⟨h1, h2, h⟩, fun h => h.contents⟩
    · simp only [h1, h2, ne_eq, not_true_eq_false, not_false_eq_true, if_true, if_false]
      exact ⟨(nomatch ·), fun h => absurd h.lastHash h2⟩
  · simp only [h1, ne_eq, not_false_eq_true, if_true]
    exact ⟨(nomatch ·), fun h => absurd h.position h1⟩

theorem height_lt (b : Block) : b.height < UInt64.size := b.position.toNat_lt

theorem toNat_nextPosition (b : Block) :
    b.nextPosition.toNat = (b.height + 1) % UInt64.size := by
  rw [nextPosition, UInt64.toNat_add]
  rfl

theorem toNat_nextPosition_of_lt {b : Block} (room : b.height + 1 < UInt64.size) :
    b.nextPosition.toNat = b.height + 1 := by
  rw [toNat_nextPosition, Nat.mod_eq_of_lt room]

theorem position_ne_next (b : Block) : b.position ≠ b.nextPosition := by
  intro same
  have heights := congrArg UInt64.toNat same
  have low := b.height_lt
  rw [toNat_nextPosition, ← Block.height] at heights
  rcases Nat.lt_or_eq_of_le (Nat.succ_le_of_lt low) with room | full
  · rw [Nat.mod_eq_of_lt room] at heights
    omega
  · rw [← full, Nat.succ_eq_add_one, Nat.mod_self] at heights
    rw [heights] at full
    exact absurd full (by decide)

theorem Follows.height_mod {head b : Block} (h : Follows head b) :
    b.height = (head.height + 1) % UInt64.size := by
  rw [Block.height, h.position, toNat_nextPosition]

theorem Follows.height {head b : Block} (h : Follows head b)
    (room : head.height + 1 < UInt64.size) : b.height = head.height + 1 := by
  rw [h.height_mod, Nat.mod_eq_of_lt room]

theorem Follows.height_of_lt {head b : Block} (h : Follows head b)
    (higher : head.height < b.height) : b.height = head.height + 1 := by
  by_cases room : head.height + 1 < UInt64.size
  · exact h.height room
  · have full : head.height + 1 = UInt64.size :=
      Nat.le_antisymm head.height_lt (Nat.le_of_not_lt room)
    rw [h.height_mod, full, Nat.mod_self] at higher
    exact absurd higher (Nat.not_lt_zero _)

end Block

end ChainNode
