import ChainNode.Entity

/-!
# Transactions

A transaction is named by the fingerprint of its body, which is everything but the `hash` field.
Transactions are ordered by their time.
-/
namespace ChainNode

namespace Transaction

structure Input where
  previousOutputHash : Label
  amount : UInt64
  deriving DecidableEq, Repr

structure Output where
  receiver : Label
  amount : UInt64
  timestamp : UInt64
  deriving DecidableEq, Repr

def Input.encode (i : Input) : Bytes := Canonical.label i.previousOutputHash ++ Bytes.le64 i.amount

def Output.encode (o : Output) : Bytes :=
  Canonical.label o.receiver ++ Bytes.le64 o.amount ++ Bytes.le64 o.timestamp

end Transaction

structure Transaction where
  hash : Label
  sender : Label
  timestamp : UInt64
  inputs : Row Transaction.Input
  outputs : Row Transaction.Output
  deriving DecidableEq, Repr

namespace Transaction

/-- What the hash stands for. -/
def body (t : Transaction) : Bytes :=
  Canonical.label t.sender ++ Bytes.le64 t.timestamp ++
    Canonical.row Input.encode t.inputs ++ Canonical.row Output.encode t.outputs

/-- The whole transaction, as it is written inside a block. -/
def encode (t : Transaction) : Bytes := Canonical.label t.hash ++ t.body

def entity (t : Transaction) : Entity := ⟨t.timestamp.toNat, .ok t.body⟩

def computedHash (t : Transaction) : Label := fingerprint t.body

def rehash (t : Transaction) : Transaction := { t with hash := t.computedHash }

/-- A transaction that carries its own hash. -/
def create (sender : Label) (timestamp : UInt64) (inputs : Row Input) (outputs : Row Output) :
    Transaction :=
  rehash ⟨.empty, sender, timestamp, inputs, outputs⟩

def isCorrect (t : Transaction) : Bool := sameHash t.computedHash t.hash

end Transaction

end ChainNode
