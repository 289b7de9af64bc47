import ChainNode.Chain

/-!
# Sample chains

Deterministic transactions and blocks. Sample blocks claim no difficulty, so a valid chain of any
length is built without a search for a nonce; two chains with different salts share no block
after their common start.
-/
namespace ChainNode.Sample

/-- A number in 64 places, with zeros in front. -/
def padded (n : Nat) : String :=
  let digits := toString n
  String.ofList (List.replicate (64 - digits.length) '0') ++ digits

def transaction (salt i : Nat) : Transaction :=
  let timestamp := UInt64.ofNat (1000 + salt * 1000000 + i)
  let amount := UInt64.ofNat (100 + i)
  .create (.ofString s!"sender-{salt}-{i}") timestamp
    (.ofList [⟨.ofString (padded salt ++ padded i), amount⟩])
    (.ofList [⟨.ofString s!"receiver-{salt}-{i}", amount, timestamp⟩])

def transactions (count salt : Nat) : List Transaction :=
  (List.range count).map (transaction salt)

/-- The block with the given transactions, of which there is at least one, that follows `head`
a second later. -/
def successor (head : Block) (ts : List Transaction) : Block :=
  let timestamp := head.timestamp + 1000
  Block.rehash
    { position := head.position + 1
      hash := .empty
      lastHash := head.hash
      merkleRoot := (transactionRoot ts).toOption.getD .empty
      timestamp := timestamp
      version := 1
      consent := .proofOfWork ⟨0, 1, timestamp, 1000⟩
      transactions := ts }

/-- `n` more blocks on top of a head, two transactions each. -/
def grow (salt : Nat) : Nat → Block → List Block
  | 0, _ => []
  | n + 1, head =>
    let b := successor head (transactions 2 (salt * 10000 + head.height))
    b :: grow salt n b

/-- Extend a chain to a length; a longer chain stays as it is. -/
def extend (bs : List Block) (length salt : Nat) : List Block :=
  match bs.getLast? with
  | none => []
  | some head => bs ++ grow salt (length - bs.length) head

def chain (length salt : Nat) : List Block := extend [Block.genesis] length salt

/-- Keep a chain up to a position and continue it in another way. -/
def fork (base : List Block) (keep length salt : Nat) : List Block :=
  extend (base.takeWhile (·.height ≤ keep)) length salt

end ChainNode.Sample
