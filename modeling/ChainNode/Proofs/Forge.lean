import ChainNode.Node
import ChainNode.Proofs.Forge.Search
import ChainNode.Proofs.Store

/-!
# What forging leaves alone

Agreeing on a block reads the chain and changes nothing of it, and a block that comes of it carries
the transactions that it was asked to carry, whatever interrupts the search and whatever the clock
shows.

* `searchNonce_transactions`, `forge_seals`, `reachConsensus_seals`: from the search outwards.
* `Node.agree_outcome`: the same of a node.
-/
namespace ChainNode

theorem searchNonce_transactions {candidate : Block} {difficulty : UInt32} {inputs : SearchInputs}
    {b : Block} (found : searchNonce candidate difficulty inputs = .sealed b) :
    b.transactions = candidate.transactions := by
  obtain ⟨m, rfl, -⟩ := searchNonce_sealed found
  rfl

namespace Forge

variable {settings : ForgeSettings} {clock : ForgeClock} {stops : Interruptions}
  {ts : List Transaction}

theorem sealBlock_transactions {head : Block} {last : Option Block} {b : Block}
    (h : sealBlock settings clock stops head last ts = .ok b) : b.transactions = ts := by
  unfold sealBlock at h
  split at h
  · cases h
  · split at h
    · cases h
    · simp only at h
      split at h
      · rename_i found
        cases h
        exact searchNonce_transactions found
      · cases h
      · cases h

/-- A sealer reads the chain only, and seals what it is given. -/
def Seals (work : Sealer) : Prop :=
  ∀ ts s, (work ts s).2.chain = s.chain ∧ ∀ b, (work ts s).1 = .ok b → b.transactions = ts

theorem forge_seals (settings : ForgeSettings) (clock : ForgeClock) (stops : Interruptions) :
    Seals (forge settings clock stops) := by
  intro ts s
  unfold forge
  split
  · exact ⟨rfl, nofun⟩
  · have first_read := (Store.reads_latestBlock s).1
    split
    · rename_i t read
      rw [read] at first_read
      exact ⟨first_read, nofun⟩
    · rename_i head t read
      rw [read] at first_read
      have second_read := (Store.reads_latestOfType .proofOfWork t).1
      split
      · rename_i u read'
        rw [read'] at second_read
        exact ⟨second_read.trans first_read, nofun⟩
      · rename_i last u read'
        rw [read'] at second_read
        exact ⟨second_read.trans first_read, fun b sealed => sealBlock_transactions sealed⟩

theorem notImplemented_seals (t : ConsentType) : Seals (.notImplemented t) :=
  fun _ _ => ⟨rfl, nofun⟩

theorem chain_majorityEligible (settings : ForgeSettings) (active : Nat) (s : Store) :
    (majorityEligible settings active s).2.chain = s.chain := by
  unfold majorityEligible
  split
  · rfl
  · have counted := (Store.reads_countOfType .proofOfWork s).1
    split
    · rename_i read
      rwa [read] at counted
    · rename_i read
      rwa [read] at counted

/-- Whichever way of agreeing is taken, or tried before another. -/
theorem reachConsensus_seals {work majority : Sealer} (hw : Seals work) (hm : Seals majority)
    (settings : ForgeSettings) (active : Nat) (ts : List Transaction) (s : Store) :
    (reachConsensus settings work majority active ts s).2.chain = s.chain ∧
      ∀ b, (reachConsensus settings work majority active ts s).1.result = .ok b →
        b.transactions = ts := by
  have eligible := chain_majorityEligible settings active s
  unfold reachConsensus
  generalize majorityEligible settings active s = judged at eligible
  obtain ⟨verdict, t⟩ := judged
  have mined := hw ts t
  simp only at eligible
  rw [← eligible]
  rcases verdict with e | ⟨_ | _⟩
  · exact mined
  · exact mined
  · have voted := hm ts t
    rcases vote : majority ts t with ⟨r, u⟩
    rw [vote] at voted
    simp only [vote]
    cases r with
    | ok b => exact voted
    | error e =>
      obtain ⟨same, carried⟩ := hw ts u
      exact ⟨same.trans voted.1, carried⟩

end Forge

/-- Agreeing on a block changes at most what is left of the store's faults. -/
theorem Node.agree_outcome (clock : ForgeClock) (stops : Interruptions) (active : Nat)
    (ts : List Transaction) (n : Node) :
    ∃ s, (n.agree clock stops active ts).2 = { n with store := s } ∧ s.chain = n.store.chain ∧
      ∀ b, (n.agree clock stops active ts).1 = .ok b → b.transactions = ts := by
  have sealed := Forge.reachConsensus_seals (Forge.forge_seals n.forgeSettings clock stops)
    (Forge.notImplemented_seals .proofOfMajority) n.forgeSettings active ts n.store
  exact ⟨_, rfl, sealed⟩

end ChainNode
