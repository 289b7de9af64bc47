/-!
# Settings of block production
-/
namespace ChainNode

structure ForgeSettings where
  targetRateMs : Nat
  minimumQuorum : Nat
  majorityThreshold : Option Nat
  initialDifficulty : UInt32
  protocolVersion : UInt32
  deriving DecidableEq, Repr

namespace ForgeSettings

def default : ForgeSettings := ⟨60000, 50, none, 4, 1⟩

def testing : ForgeSettings := ⟨1000, 3, some 5, 1, 1⟩

def weekMs : Nat := 604800000

/-- How many blocks have to be mined before the majority may vote: if nothing else is set, as
many as a week of mining at the target rate yields. -/
def threshold (s : ForgeSettings) : Nat :=
  s.majorityThreshold.getD (weekMs / max s.targetRateMs 1)

end ForgeSettings

end ChainNode
