import ChainNode.Store

/-!
# Pending transactions

The pool holds transactions that name themselves correctly, one for each spelling of a hash. They
are handed out by time, ties by hash. Transactions leave when a block includes them: one by one
after a block of the node's own, or all at once when the whole chain has been read again.
-/
namespace ChainNode

structure Mempool where
  pending : List Transaction
  deriving DecidableEq, Repr

namespace Mempool

def empty : Mempool := ⟨[]⟩

def length (p : Mempool) : Nat := p.pending.length

def holds (p : Mempool) (hash : Label) : Bool := p.pending.any (·.hash = hash)

/-- A transaction is taken if it names itself correctly and its hash is not there yet. -/
def submit (t : Transaction) (p : Mempool) : Bool × Mempool :=
  if t.isCorrect && !p.holds t.hash then (true, ⟨p.pending ++ [t]⟩) else (false, p)

def earlier (a b : Transaction) : Bool :=
  keyLE (a.timestamp.toNat, a.hash) (b.timestamp.toNat, b.hash)

/-- The first `limit` transactions in the order in which blocks take them. -/
def next (p : Mempool) (limit : Nat) : List Transaction :=
  (p.pending.mergeSort earlier).take limit

/-- Remove transactions by hash and count those that were there. -/
def removeIncluded : List Label → Mempool → Nat × Mempool
  | [], p => (0, p)
  | h :: hs, p =>
    match removeIncluded hs ⟨p.pending.filter (·.hash ≠ h)⟩ with
    | (n, p') => ((if p.holds h then 1 else 0) + n, p')

/-- How many blocks are read at a time when the chain is read again. -/
def resyncBatch : Nat := 500

/-- Hashes of the transactions in the blocks from a position up to position `count`. -/
def includedFrom (position count : Nat) (s : Store) : Except StoreError (List Label) × Store :=
  if _h : position ≤ count then
    match Store.blocksInRange position resyncBatch s with
    | (.error e, s) => (.error e, s)
    | (.ok [], s) => (.ok [], s)
    | (.ok (b :: bs), s) =>
      match includedFrom (position + (b :: bs).length) count s with
      | (.error e, s) => (.error e, s)
      | (.ok hashes, s) =>
        (.ok ((b :: bs).flatMap (·.transactions.map Transaction.hash) ++ hashes), s)
  else (.ok [], s)
termination_by count + 1 - position
decreasing_by simp only [List.length_cons]; omega

def includedHashes (s : Store) : Except StoreError (List Label) × Store :=
  match Store.count s with
  | (.error e, s) => (.error e, s)
  | (.ok count, s) => includedFrom 1 count s

/-- Drop what the chain already includes and say how many that were. -/
def resync (p : Mempool) (s : Store) : Except StoreError Nat × Mempool × Store :=
  match includedHashes s with
  | (.error e, s) => (.error e, p, s)
  | (.ok hashes, s) =>
    let kept := p.pending.filter (·.hash ∉ hashes)
    (.ok (p.pending.length - kept.length), ⟨kept⟩, s)

end Mempool

end ChainNode
