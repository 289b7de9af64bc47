import ChainNode.Block.Validity

/-!
# The chain

A chain is its first block, the blocks accepted after it in ascending order, and an index of the
hashes it holds. Blocks enter at the head only, through `save`, and leave from the head only,
through `removeAfter`; the first block is never removed. Positions are found by their distance
from the first block.
-/
namespace ChainNode

inductive StoreError where
  | invalid (cause : InvalidBlock)
  | genesisImmutable
  | backend (reason : String)
  deriving DecidableEq, Repr

def StoreError.name : StoreError → String
  | .invalid cause => s!"Validation.{cause.name}"
  | .genesisImmutable => "GenesisImmutable"
  | .backend _ => "Backend"

def StoreError.message : StoreError → String
  | .invalid cause => s!"Validation failed: {cause.message}"
  | .genesisImmutable => "Genesis block is immutable"
  | .backend reason => s!"Store backend error: {reason}"

instance : Fault StoreError := ⟨StoreError.name, StoreError.message⟩

structure Chain where
  first : Block
  later : List Block
  known : List Label
  deriving DecidableEq, Repr

namespace Chain

/-- The chain of one block, which is taken as it is. -/
def start (first : Block) : Chain := ⟨first, [], [first.hash]⟩

def new : Chain := start Block.genesis

def blocks (c : Chain) : List Block := c.first :: c.later

def head (c : Chain) : Block := c.later.getLast?.getD c.first

def count (c : Chain) : Nat := c.blocks.length

def infos (c : Chain) : List BlockInfo := c.blocks.map Block.info

/-- Append a block to the head. A known hash is refused before the rules are checked. -/
def save (b : Block) (c : Chain) : Except StoreError Chain :=
  if b.hash ∈ c.known then .error (.invalid (.alreadyKnown b.hash))
  else
    match Block.checkFollows c.head b with
    | .error e => .error (.invalid e)
    | .ok () => .ok { c with later := c.later ++ [b], known := b.hash :: c.known }

def saveAll : List Block → Chain → Except StoreError Chain
  | [], c => .ok c
  | b :: bs, c =>
    match c.save b with
    | .error e => .error e
    | .ok c' => saveAll bs c'

/-- A chain from its blocks: the first is taken as it is, the others are saved. -/
def ofBlocks : List Block → Except StoreError Chain
  | [] => .error (.backend "empty chain")
  | b :: bs => saveAll bs (start b)

/-- At most `limit` blocks upwards from a position; none from a position off the chain. -/
def range (c : Chain) (position limit : Nat) : List Block :=
  if position < c.first.height then []
  else (c.blocks.drop (position - c.first.height)).take limit

def at? (c : Chain) (position : Nat) : Option Block := (c.range position 1).head?

/-- The highest block of a type, the first block included. -/
def latestOfType (c : Chain) (t : ConsentType) : Option Block :=
  c.blocks.reverse.find? (·.consent.type = t)

/-- Blocks of a type, the genesis position left out. -/
def countOfType (c : Chain) (t : ConsentType) : Nat :=
  c.blocks.countP fun b => !b.isGenesis && b.consent.type = t

/-- Drop the blocks above a position and say how many there were. -/
def removeAfter (position : Nat) (c : Chain) : Except StoreError (Nat × Chain) :=
  if position < c.first.height then .error .genesisImmutable
  else
    let kept := position - c.first.height
    let removed := c.later.drop kept
    .ok (removed.length,
      { c with
        later := c.later.take kept
        known := c.known.filter (· ∉ removed.map Block.hash) })

end Chain

end ChainNode
