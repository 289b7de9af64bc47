import ChainNode.Forge.Selector
import ChainNode.Mempool
import ChainNode.Peer.Responder

/-!
# A node

All that one node keeps: its store, the blocks that were announced to it lately, its responder
and its pool. Its clock is a number that is set from outside.
-/
namespace ChainNode

/-- Where the transactions are that a reconciled chain has to be compared with. -/
inductive PoolLink where
  /-- In the node's own pool. -/
  | own
  /-- In another place, which is told and drops none. -/
  | elsewhere (resyncs : Nat)
  /-- In a place that cannot be reached. -/
  | offline (reason : String)
  deriving DecidableEq, Repr

structure Node where
  id : NodeId
  forgeSettings : ForgeSettings
  syncSettings : SyncSettings
  maxBlockTransactions : Nat
  store : Store
  seen : SeenCache Label
  responder : Responder
  pool : Mempool
  poolLink : PoolLink
  now : Nat

namespace Node

def new (id : NodeId) (forge : ForgeSettings) (sync : SyncSettings) (maxBlockTransactions : Nat)
    (store : Store) (now : Nat) : Node :=
  { id
    forgeSettings := forge
    syncSettings := sync
    maxBlockTransactions
    store
    seen := .empty sync.cacheCapacity sync.cacheTtlMs
    responder := .new id sync
    pool := .empty
    poolLink := .own
    now }

def head (n : Node) : Block := n.store.chain.head

/-- The node with another chain in its store. -/
def withChain (c : Chain) (n : Node) : Node := { n with store := { n.store with chain := c } }

/-- Use the store. -/
def withStore {α : Type} (op : Store.Op α) (n : Node) : Except StoreError α × Node :=
  match op n.store with
  | (r, s) => (r, { n with store := s })

/-- Compare the pool with the chain and say how many transactions were dropped. -/
def resync (n : Node) : Except SyncError Nat × Node :=
  match n.poolLink with
  | .own =>
    match n.pool.resync n.store with
    | (r, p, s) => (r.mapError .store, { n with pool := p, store := s })
  | .elsewhere k => (.ok 0, { n with poolLink := .elsewhere (k + 1) })
  | .offline reason => (.error (.poolResync reason), n)

/-- Answer a peer. -/
def handle (m : Message) (n : Node) : Except SyncError Message × Node :=
  match n.responder.handle n.now m n.store with
  | (r, responder, s) => (r, { n with responder := responder, store := s })

/-- Note an announced block; false if it was announced before. -/
def note (hash : Label) (n : Node) : Bool × Node :=
  match n.seen.insertIfAbsent n.now hash with
  | (fresh, seen) => (fresh, { n with seen := seen })

/-- Sweep expired announcements. -/
def purgeSeen (n : Node) : Nat × Node :=
  match n.seen.purge n.now with
  | (k, seen) => (k, { n with seen := seen })

/-- Sweep expired announcements and request ids. -/
def purge (n : Node) : Nat × Node :=
  match n.purgeSeen with
  | (k, n) =>
    match n.responder.purge n.now with
    | (l, responder) => (k + l, { n with responder := responder })

/-- Mine a block on the node's head. -/
def forge (clock : ForgeClock) (stops : Interruptions) (ts : List Transaction) (n : Node) :
    Except ForgeError Block × Node :=
  match Forge.forge n.forgeSettings clock stops ts n.store with
  | (r, s) => (r, { n with store := s })

/-- May the majority vote on the next block? -/
def majorityEligible (active : Nat) (n : Node) : Except StoreError Bool × Node :=
  n.withStore (Forge.majorityEligible n.forgeSettings active)

/-- Agree on a block: there is no voting yet, so it is mined in the end. -/
def agree (clock : ForgeClock) (stops : Interruptions) (active : Nat) (ts : List Transaction)
    (n : Node) : Except ForgeError Block × Node :=
  match Forge.reachConsensus n.forgeSettings (Forge.forge n.forgeSettings clock stops)
    (.notImplemented .proofOfMajority) active ts n.store with
  | (agreement, s) => (agreement.result, { n with store := s })

end Node

end ChainNode
