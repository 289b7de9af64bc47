import ChainNode.Chain

/-!
# The store

A node reaches its chain through operations that a backend may refuse. `Faults` says for each
operation how many more times it succeeds; without a number it always does. A refused operation
leaves the chain as it is.

* `save_ofChain` and its like: on a store without faults every operation is that of the chain.
-/
namespace ChainNode

inductive StoreMethod where
  | latestBlock
  | latestOfType
  | blocksInRange
  | count
  | countOfType
  | save
  | removeAfter
  deriving DecidableEq, Repr

def StoreMethod.name : StoreMethod → String
  | .latestBlock => "latest_block"
  | .latestOfType => "latest_of_type"
  | .blocksInRange => "blocks_in_range"
  | .count => "count"
  | .countOfType => "count_of_type"
  | .save => "save"
  | .removeAfter => "remove_after"

abbrev Faults := StoreMethod → Option Nat

def Faults.none : Faults := fun _ => .none

structure Store where
  chain : Chain
  faults : Faults

namespace Store

def ofChain (c : Chain) : Store := ⟨c, .none⟩

/-- What an operation returns, and the store after it. -/
abbrev Op (α : Type) := Store → Except StoreError α × Store

def refusal (m : StoreMethod) : StoreError := .backend s!"injected {m.name}"

/-- Count a call against the successes that are left. -/
def spend (m : StoreMethod) (s : Store) : Bool × Store :=
  match s.faults m with
  | .none => (true, s)
  | some 0 => (false, s)
  | some (n + 1) => (true, { s with faults := fun k => if k = m then some n else s.faults k })

def read {α : Type} (m : StoreMethod) (view : Chain → α) : Op α := fun s =>
  match s.spend m with
  | (false, s) => (.error (refusal m), s)
  | (true, s) => (.ok (view s.chain), s)

def write {α : Type} (m : StoreMethod) (step : Chain → Except StoreError (α × Chain)) : Op α :=
  fun s =>
    match s.spend m with
    | (false, s) => (.error (refusal m), s)
    | (true, s) =>
      match step s.chain with
      | .error e => (.error e, s)
      | .ok (a, c) => (.ok a, { s with chain := c })

def latestBlock : Op Block := read .latestBlock Chain.head

def latestOfType (t : ConsentType) : Op (Option Block) := read .latestOfType (·.latestOfType t)

def blocksInRange (position limit : Nat) : Op (List Block) :=
  read .blocksInRange (·.range position limit)

def count : Op Nat := read .count Chain.count

def countOfType (t : ConsentType) : Op Nat := read .countOfType (·.countOfType t)

def save (b : Block) : Op Unit :=
  write .save fun c => (fun c' => ((), c')) <$> c.save b

def removeAfter (position : Nat) : Op Nat := write .removeAfter (Chain.removeAfter position)

def infosInRange (position limit : Nat) : Op (List BlockInfo) := fun s =>
  match blocksInRange position limit s with
  | (r, s) => (r.map (·.map Block.info), s)

def blockAt (position : Nat) : Op (Option Block) := fun s =>
  match blocksInRange position 1 s with
  | (r, s) => (r.map (·.head?), s)

/-! ## Without faults -/

@[simp] theorem spend_ofChain (m : StoreMethod) (c : Chain) :
    (ofChain c).spend m = (true, ofChain c) := rfl

theorem latestBlock_ofChain (c : Chain) : latestBlock (ofChain c) = (.ok c.head, ofChain c) := rfl

theorem latestOfType_ofChain (t : ConsentType) (c : Chain) :
    latestOfType t (ofChain c) = (.ok (c.latestOfType t), ofChain c) := rfl

theorem blocksInRange_ofChain (position limit : Nat) (c : Chain) :
    blocksInRange position limit (ofChain c) = (.ok (c.range position limit), ofChain c) := rfl

theorem count_ofChain (c : Chain) : count (ofChain c) = (.ok c.count, ofChain c) := rfl

theorem infosInRange_ofChain (position limit : Nat) (c : Chain) :
    infosInRange position limit (ofChain c) =
      (.ok ((c.range position limit).map Block.info), ofChain c) := rfl

theorem blockAt_ofChain (position : Nat) (c : Chain) :
    blockAt position (ofChain c) = (.ok (c.at? position), ofChain c) := rfl

theorem save_ofChain (b : Block) (c : Chain) :
    save b (ofChain c) =
      match c.save b with
      | .error e => (.error e, ofChain c)
      | .ok c' => (.ok (), ofChain c') := by
  unfold save write
  rw [spend_ofChain]
  cases h : c.save b <;> simp [ofChain, h, Functor.map, Except.map]

theorem removeAfter_ofChain (position : Nat) (c : Chain) :
    removeAfter position (ofChain c) =
      match c.removeAfter position with
      | .error e => (.error e, ofChain c)
      | .ok (n, c') => (.ok n, ofChain c') := by
  unfold removeAfter write
  rw [spend_ofChain]
  cases h : c.removeAfter position <;> simp [ofChain, h]

end Store

end ChainNode
