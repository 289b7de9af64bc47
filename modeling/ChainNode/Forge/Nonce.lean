import ChainNode.Block

/-!
# The search for a nonce

Nonces are tried from 1 upwards. An attempt writes the nonce and the time spent so far into the
block and hashes it; the first block that is difficult enough is sealed. Before each attempt a
raised flag ends the search. What the clock shows and when the flag goes up is given as functions
of the attempt, so the search is the same under any clock and any interruption.
-/
namespace ChainNode

/-- What is read from outside during a search. -/
structure SearchInputs where
  /-- Read once, before the first attempt. -/
  timestamp : UInt64
  /-- Milliseconds since the start, as read at an attempt. -/
  elapsed : Nat → UInt64
  /-- Is the flag up when an attempt begins? -/
  raised : Nat → Bool

inductive SearchResult where
  | sealed (block : Block)
  | cancelled
  /-- All nonces that 64 bits can hold were tried. -/
  | exhausted
  deriving DecidableEq, Repr

/-- The consent that attempt `n` puts into the block. -/
def attemptConsent (difficulty : UInt32) (inputs : SearchInputs) (n : Nat) : Consent :=
  .proofOfWork ⟨difficulty, UInt64.ofNat n, inputs.timestamp, inputs.elapsed n⟩

/-- `attempts` attempts, the first of them with nonce `n`. -/
def searchFrom (candidate : Frame) (difficulty : UInt32) (inputs : SearchInputs) :
    Nat → Nat → SearchResult
  | 0, _ => .exhausted
  | attempts + 1, n =>
    if inputs.raised n then .cancelled
    else
      let b := candidate.withConsent (attemptConsent difficulty inputs n)
      if meetsDifficulty b.hash difficulty then .sealed b
      else searchFrom candidate difficulty inputs attempts (n + 1)

def searchNonce (candidate : Block) (difficulty : UInt32) (inputs : SearchInputs) : SearchResult :=
  searchFrom candidate.frame difficulty inputs (UInt64.size - 1) 1

end ChainNode
