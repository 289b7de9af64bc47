import ChainNode.Node.Error
import ChainNode.Node.Program

/-!
# Producing blocks

A cycle takes the first pending transactions, agrees on a block with them, saves and announces
it, and removes its transactions from the pool. Whether the announcement arrives does not matter.
-/
namespace ChainNode

namespace Production

/-- Save a sealed block, announce it and clear the pool of it. -/
def publish (b : Block) : Program NodeError Unit := do
  match ← .command (.save b) with
  | .error e => .fail (.store e)
  | .ok () => do
    let _ ← .command (.broadcast .freshBlock (.freshBlock b))
    let _ ← .command (.act fun n =>
      match n.pool.removeIncluded (b.transactions.map Transaction.hash) with
      | (k, pool) => (k, { n with pool := pool }))
    pure ()

/-- One cycle; without pending transactions there is no block. -/
def cycle (clock : ForgeClock) (stops : Interruptions) : Program NodeError (Option Block) := do
  let ts ← .command (.act fun n => (n.pool.next n.maxBlockTransactions, n))
  if ts.isEmpty then pure none
  else do
    let active ← .command .members
    let b ← .step .forge (Node.agree clock stops active.length ts)
    .command .busy
    publish b
    pure (some b)

end Production

end ChainNode
