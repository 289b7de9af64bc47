import ChainNode.Proofs.Mempool
import ChainNode.Proofs.Sample

/-!
# Comparing the pool with the chain is exact

A chain that starts at position 1 is read whole, however many batches that takes: what leaves the
pool is what some block carries under the same spelling of the hash, and nothing else. What stays is
as it was, in the same order, so comparing again changes nothing.

* `pending_remaining`, `length_remaining`: what stays, and how much of it there is.
* `resync_exact`: the comparison on a store without faults.
-/
namespace ChainNode

/-- Some block holds a transaction with the same hash, letter by letter. -/
def Chain.Carries (c : Chain) (t : Transaction) : Prop :=
  ∃ b ∈ c.blocks, ∃ s ∈ b.transactions, s.hash = t.hash

instance (c : Chain) (t : Transaction) : Decidable (c.Carries t) :=
  inferInstanceAs (Decidable (∃ b ∈ c.blocks, ∃ s ∈ b.transactions, s.hash = t.hash))

namespace Mempool

theorem carries_iff {c : Chain} {t : Transaction} : c.Carries t ↔ t.hash ∈ hashesIn c.blocks :=
  mem_hashesIn.symm

theorem pending_remaining (p : Mempool) (c : Chain) :
    (p.remaining c).pending = p.pending.filter (¬ c.Carries ·) := by
  simp only [remaining, carries_iff]

theorem length_remaining (p : Mempool) (c : Chain) :
    p.pending.countP (c.Carries ·) + (p.remaining c).length = p.length := by
  have parts := List.length_eq_countP_add_countP (c.Carries ·) (l := p.pending)
  simp only [decide_eq_true_eq] at parts
  rw [length, length, pending_remaining, ← List.countP_eq_length_filter, ← parts]

theorem remaining_remaining (p : Mempool) (c : Chain) :
    (p.remaining c).remaining c = p.remaining c := by
  simp only [remaining, List.filter_filter, Bool.and_self]

theorem resync_exact (p : Mempool) {c : Chain} (genesis : c.first.height = 1) :
    ∃ kept : Mempool,
      p.resync (.ofChain c) = (.ok (p.pending.countP (c.Carries ·)), kept, .ofChain c) ∧
      kept.pending = p.pending.filter (¬ c.Carries ·) ∧
      kept.resync (.ofChain c) = (.ok 0, kept, .ofChain c) := by
  have parts := p.length_remaining c
  have dropped : p.length - (p.remaining c).length = p.pending.countP (c.Carries ·) := by omega
  refine ⟨p.remaining c, ?_, p.pending_remaining c, ?_⟩
  · rw [resync_eq p genesis, dropped]
  · rw [resync_eq _ genesis, remaining_remaining, Nat.sub_self]

/-- The transaction of the second block leaves, another of the same sender stays. -/
theorem resync_exact_second :
    let sent (now : UInt64) : Transaction := .create (.ofString "sender") now .empty .empty
    (Chain.new.push Sample.second).first.height = 1 ∧
      ∃ kept : Mempool,
        resync ⟨[sent 0, sent 1]⟩ (.ofChain (Chain.new.push Sample.second)) =
          (.ok 1, kept, .ofChain (Chain.new.push Sample.second)) ∧
        kept.pending = [sent 1] ∧
        kept.resync (.ofChain (Chain.new.push Sample.second)) =
          (.ok 0, kept, .ofChain (Chain.new.push Sample.second)) := by
  intro sent
  obtain ⟨kept, compared, stays, again⟩ :=
    resync_exact ⟨[sent 0, sent 1]⟩ (c := Chain.new.push Sample.second) rfl
  have first : (Chain.new.push Sample.second).Carries (sent 0) := by decide +kernel
  have other : ¬ (Chain.new.push Sample.second).Carries (sent 1) := by decide +kernel
  refine ⟨rfl, kept, ?_, ?_, again⟩
  · rw [compared]
    simp [first, other]
  · simp [stays, first, other]

end Mempool

end ChainNode
