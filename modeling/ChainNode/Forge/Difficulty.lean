import ChainNode.Block

/-!
# Retargeting

A block that took longer than the target makes the next one a zero easier, one that took less
makes it a zero harder.
-/
namespace ChainNode

/-- The difficulty after a mined block, kept within 32 bits. -/
def retarget (previous : ProofOfWork) (targetMs : Nat) : UInt32 :=
  if targetMs < previous.spent.toNat then UInt32.ofNat (previous.difficulty.toNat - 1)
  else if previous.spent.toNat < targetMs then
    UInt32.ofNat (min (previous.difficulty.toNat + 1) (UInt32.size - 1))
  else previous.difficulty

end ChainNode
