import ChainNode.Store
import ChainNode.Forge.Settings
import ChainNode.Forge.Error
import ChainNode.Forge.Difficulty
import ChainNode.Forge.Nonce

/-!
# Forging a block

A block is forged on the head that the store shows when forging begins. The difficulty is that
of the last mined block above genesis, retargeted, or the initial one. A request to stop counts
from the moment the first read begins: one that arrives during the reads ends the forging before
the search, a later one ends the search.
-/
namespace ChainNode

/-- What reaches a forger from outside while it works. -/
structure Interruptions where
  /-- A stop arrives while this store operation is under way. -/
  during : StoreMethod → Bool
  /-- A stop has arrived when this attempt of the search begins. -/
  atAttempt : Nat → Bool

def Interruptions.none : Interruptions := ⟨fun _ => false, fun _ => false⟩

/-- The clock as a forger reads it: when the block is put together, when the search starts, and
the time spent at each attempt. -/
structure ForgeClock where
  assembled : UInt64
  started : UInt64
  elapsed : Nat → UInt64

/-- A clock that stands still. -/
def ForgeClock.still (now : UInt64) : ForgeClock := ⟨now, now, fun _ => 0⟩

namespace Forge

variable (settings : ForgeSettings)

/-- The difficulty asked of the block after a chain whose last mined block is `last`. -/
def nextDifficulty (last : Option Block) : UInt32 :=
  match (last.filter fun b => !b.isGenesis).bind Block.work? with
  | some work => retarget work settings.targetRateMs
  | none => settings.initialDifficulty

def candidate (head : Block) (difficulty : UInt32) (now : UInt64) (root : Label)
    (ts : List Transaction) : Block :=
  { position := head.position + 1
    hash := .empty
    lastHash := head.hash
    merkleRoot := root
    timestamp := now
    version := settings.protocolVersion
    consent := .proofOfWork ⟨difficulty, 0, now, 0⟩
    transactions := ts }

/-- The part after the store has been read. -/
def sealBlock (clock : ForgeClock) (stops : Interruptions) (head : Block) (last : Option Block)
    (ts : List Transaction) : Except ForgeError Block :=
  match transactionRoot ts with
  | .error e => .error (.hashing e)
  | .ok root =>
    if stops.during .latestBlock || stops.during .latestOfType then .error .cancelled
    else
      let difficulty := nextDifficulty settings last
      match searchNonce (candidate settings head difficulty clock.assembled root ts) difficulty
        ⟨clock.started, clock.elapsed, stops.atAttempt⟩ with
      | .sealed b => .ok b
      | .cancelled => .error .cancelled
      | .exhausted => .error (.taskFailed "nonces exhausted")

/-- Forge a block with the given transactions on the head of the store. -/
def forge (clock : ForgeClock) (stops : Interruptions) (ts : List Transaction) (s : Store) :
    Except ForgeError Block × Store :=
  if ts.isEmpty then (.error .noTransactions, s)
  else
    match Store.latestBlock s with
    | (.error e, s) => (.error (.store e), s)
    | (.ok head, s) =>
      match Store.latestOfType .proofOfWork s with
      | (.error e, s) => (.error (.store e), s)
      | (.ok last, s) => (sealBlock settings clock stops head last ts, s)

end Forge

end ChainNode
