import ChainNode.Forge.Forger

/-!
# Choosing how to agree on a block

Majority voting is tried when enough nodes are active and the chain of mined blocks is long
enough; whenever it is not eligible, cannot be judged or fails, the block is mined instead.
-/
namespace ChainNode

/-- A way of sealing transactions: it may use the store, and it may fail. -/
abbrev Sealer := List Transaction → Store → Except ForgeError Block × Store

/-- Voting, as long as there is none. -/
def Sealer.notImplemented (t : ConsentType) : Sealer := fun _ s => (.error (.notImplemented t), s)

/-- A sealer that returns a block it was given. -/
def Sealer.fixed (b : Block) : Sealer := fun _ s => (.ok b, s)

namespace Forge

variable (settings : ForgeSettings)

def majorityEligible (active : Nat) (s : Store) : Except StoreError Bool × Store :=
  if active < settings.minimumQuorum then (.ok false, s)
  else
    match Store.countOfType .proofOfWork s with
    | (.error e, s) => (.error e, s)
    | (.ok mined, s) => (.ok (settings.threshold < mined), s)

/-- The result, and the ways that were tried for it. -/
structure Agreement where
  result : Except ForgeError Block
  tried : List ConsentType

/-- An eligibility that cannot be read counts as none. -/
def reachConsensus (work majority : Sealer) (active : Nat) (ts : List Transaction) (s : Store) :
    Agreement × Store :=
  match majorityEligible settings active s with
  | (.ok true, s) =>
    match majority ts s with
    | (.ok b, s) => (⟨.ok b, [.proofOfMajority]⟩, s)
    | (.error _, s) =>
      match work ts s with
      | (r, s) => (⟨r, [.proofOfMajority, .proofOfWork]⟩, s)
  | (_, s) =>
    match work ts s with
    | (r, s) => (⟨r, [.proofOfWork]⟩, s)

end Forge

end ChainNode
