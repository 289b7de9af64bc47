import ChainNode.Canonical
import ChainNode.Digest
import ChainNode.Fault
import ChainNode.KeyOrder

/-!
# Hashed entities

An entity is what can be named by a fingerprint: its place in its own order and its canonical
bytes, or the reason why it has none. `listHash` names a collection through the sorted bytes of
its members, `merkleRoot` through a binary tree over their sorted hashes in which a level of odd
length pairs its last node with itself.

* `length_pairUp`, `pairUp_length_lt`: a level halves, so a tree ends at one root.
-/
namespace ChainNode

inductive HashError where
  | emptyBytes
  | encoding (reason : String)
  | noLeaves
  deriving DecidableEq, Repr

def HashError.name : HashError → String
  | .emptyBytes => "EmptySerialization"
  | .encoding _ => "Serialization"
  | .noLeaves => "EmptyMerkleInput"

def HashError.message : HashError → String
  | .emptyBytes => "Canonical serialization is empty"
  | .encoding reason => s!"Canonical serialization failed: {reason}"
  | .noLeaves => "Cannot compute a Merkle root over an empty sequence"

instance : Fault HashError := ⟨HashError.name, HashError.message⟩

structure Entity where
  sequence : Nat
  canonical : Except HashError Bytes

namespace Entity

/-- The bytes that are hashed: none is an error. -/
def bytes (e : Entity) : Except HashError Bytes :=
  match e.canonical with
  | .ok [] => .error .emptyBytes
  | r => r

def hash (e : Entity) : Except HashError Label := fingerprint <$> e.bytes

end Entity

/-- ASCII letters compare without regard to case, everything else exactly. -/
def sameHash (a b : String) : Bool := a.toList.map Char.toLower == b.toList.map Char.toLower

/-- Does `expected` name this entity? -/
def Entity.isCorrect (e : Entity) (expected : String) : Except HashError Bool :=
  (sameHash · expected) <$> e.hash

/-- All of a list, or the first error in list order. -/
def collect {α β ε : Type} (f : α → Except ε β) : List α → Except ε (List β)
  | [] => .ok []
  | x :: xs =>
    match f x with
    | .error e => .error e
    | .ok y =>
      match collect f xs with
      | .error e => .error e
      | .ok ys => .ok (y :: ys)

/-- Members with equal sequence numbers are put in the order of their bytes. -/
def listHash (es : List Entity) : Except HashError Bytes :=
  match collect (fun e => (e.sequence, ·) <$> e.bytes) es with
  | .error e => .error e
  | .ok keyed =>
    .ok (doubleDigest (Canonical.list (Canonical.list ([·])) ((keyed.mergeSort keyLE).map (·.2))))

namespace Merkle

def nodeBytes (left right : Label) : Bytes := Canonical.label left ++ Canonical.label right

def node (left right : Label) : Label := fingerprint (nodeBytes left right)

/-- The level above. -/
def pairUp : List Label → List Label
  | [] => []
  | [a] => [node a a]
  | a :: b :: rest => node a b :: pairUp rest

theorem length_pairUp : ∀ level : List Label, (pairUp level).length = (level.length + 1) / 2
  | [] => rfl
  | [_] => by simp [pairUp]
  | _ :: _ :: rest => by simp [pairUp, length_pairUp rest]; omega

theorem pairUp_length_lt (a b : Label) (rest : List Label) :
    (pairUp (a :: b :: rest)).length < (a :: b :: rest).length := by
  rw [length_pairUp]; simp; omega

/-- The single hash that a level comes down to; an empty level has none. -/
def top : List Label → Option Label
  | [] => none
  | [a] => some a
  | a :: b :: rest => top (pairUp (a :: b :: rest))
termination_by level => level.length
decreasing_by exact pairUp_length_lt a b rest

end Merkle

def merkleRoot (es : List Entity) : Except HashError Label :=
  if es.isEmpty then .error .noLeaves
  else
    match collect (fun e => (e.sequence, ·) <$> e.hash) es with
    | .error e => .error e
    | .ok leaves =>
      match Merkle.top ((leaves.mergeSort keyLE).map (·.2)) with
      | none => .error .noLeaves
      | some root => .ok root

end ChainNode
