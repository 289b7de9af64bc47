import ChainNode.Transaction

/-!
# Blocks

A block is named by the fingerprint of its seal, which is everything but the `hash` field, the
carried transactions with their hashes included. A `BlockInfo` is all that peers compare before
they exchange blocks: a position and a hash.
-/
namespace ChainNode

inductive ConsentType where
  | proofOfWork
  | proofOfMajority
  deriving DecidableEq, Repr

/-- How a block was mined. -/
structure ProofOfWork where
  difficulty : UInt32
  nonce : UInt64
  timestamp : UInt64
  spent : UInt64
  deriving DecidableEq, Repr

inductive Consent where
  | proofOfWork (work : ProofOfWork)
  | proofOfMajority
  deriving DecidableEq, Repr

def Consent.type : Consent → ConsentType
  | .proofOfWork _ => .proofOfWork
  | .proofOfMajority => .proofOfMajority

def Consent.work? : Consent → Option ProofOfWork
  | .proofOfWork work => some work
  | .proofOfMajority => none

def ConsentType.encode : ConsentType → Bytes
  | .proofOfWork => Canonical.tag 0
  | .proofOfMajority => Canonical.tag 1

def ProofOfWork.encode (w : ProofOfWork) : Bytes :=
  Bytes.le32 w.difficulty ++ Bytes.le64 w.nonce ++ Bytes.le64 w.timestamp ++ Bytes.le64 w.spent

def Consent.encode : Consent → Bytes
  | .proofOfWork work => Canonical.tag 0 ++ work.encode
  | .proofOfMajority => Canonical.tag 1

structure BlockInfo where
  position : UInt64
  hash : Label
  deriving DecidableEq, Repr

namespace BlockInfo

/-- The position as a number to calculate with. -/
def height (i : BlockInfo) : Nat := i.position.toNat

def encode (i : BlockInfo) : Bytes := Bytes.le64 i.position ++ Canonical.label i.hash

def entity (i : BlockInfo) : Entity := ⟨i.height, .ok i.encode⟩

def computedHash (i : BlockInfo) : Label := fingerprint i.encode

/-- By position, then by the text of the hash. -/
def le (i j : BlockInfo) : Bool := keyLE (i.height, i.hash.chars) (j.height, j.hash.chars)

def sort (infos : List BlockInfo) : List BlockInfo := infos.mergeSort le

end BlockInfo

structure Block where
  position : UInt64
  hash : Label
  lastHash : Label
  merkleRoot : Label
  timestamp : UInt64
  version : UInt32
  consent : Consent
  transactions : List Transaction
  deriving DecidableEq, Repr

namespace Block

def height (b : Block) : Nat := b.position.toNat

/-- What the hash stands for. -/
def sealBytes (b : Block) : Bytes :=
  Bytes.le64 b.position ++ Canonical.label b.lastHash ++ Canonical.label b.merkleRoot ++
    Bytes.le64 b.timestamp ++ Bytes.le32 b.version ++ b.consent.encode ++
    Canonical.list Transaction.encode b.transactions

/-- The whole block, as it is sent. -/
def encode (b : Block) : Bytes :=
  Bytes.le64 b.position ++ Canonical.label b.hash ++ Canonical.label b.lastHash ++
    Canonical.label b.merkleRoot ++ Bytes.le64 b.timestamp ++ Bytes.le32 b.version ++
    b.consent.encode ++ Canonical.list Transaction.encode b.transactions

def entity (b : Block) : Entity := ⟨b.height, .ok b.sealBytes⟩

def computedHash (b : Block) : Label := fingerprint b.sealBytes

def rehash (b : Block) : Block := { b with hash := b.computedHash }

def isCorrect (b : Block) : Bool := sameHash b.computedHash b.hash

def info (b : Block) : BlockInfo := ⟨b.position, b.hash⟩

/-- Position 1 is the genesis position on every chain. -/
def isGenesis (b : Block) : Bool := b.position == 1

def work? (b : Block) : Option ProofOfWork := b.consent.work?

def genesisTimestamp : UInt64 := 1700000000000

/-- The block that all chains start from. -/
def genesis : Block :=
  rehash
    { position := 1
      hash := .empty
      lastHash := .empty
      merkleRoot := .empty
      timestamp := genesisTimestamp
      version := 1
      consent := .proofOfWork ⟨0, 0, genesisTimestamp, 0⟩
      transactions := [] }

end Block

/-- A block with the parts of its seal that do not depend on the consent. -/
structure Frame where
  block : Block
  front : Bytes
  back : Bytes

def Block.frame (b : Block) : Frame :=
  { block := b
    front := Bytes.le64 b.position ++ Canonical.label b.lastHash ++ Canonical.label b.merkleRoot ++
      Bytes.le64 b.timestamp ++ Bytes.le32 b.version
    back := Canonical.list Transaction.encode b.transactions }

/-- The block with another consent and the hash that goes with it. -/
def Frame.withConsent (f : Frame) (consent : Consent) : Block :=
  { f.block with consent, hash := fingerprint (f.front ++ (consent.encode ++ f.back)) }

theorem withConsent_frame (b : Block) (consent : Consent) :
    b.frame.withConsent consent = Block.rehash { b with consent } := by
  simp only [Frame.withConsent, Block.frame, Block.rehash, Block.computedHash, Block.sealBytes,
    List.append_assoc]

/-- The hash tree over the transactions of a block. -/
def transactionRoot (ts : List Transaction) : Except HashError Label :=
  merkleRoot (ts.map Transaction.entity)

end ChainNode
