import ChainNode.Reconcile.CatchUp

/-!
# Fresh blocks

A block that is announced for the first time extends the chain if it is next in line, and is then
announced to the node's own peers. A block further ahead makes the node catch up; one at or below
the head is ignored. What was announced before is not looked at again while it is remembered.
-/
namespace ChainNode

inductive FreshOutcome where
  | duplicate
  | accepted
  | rejected
  | caughtUp (blocks : Nat)
  | ignored
  deriving DecidableEq, Repr

def FreshOutcome.name : FreshOutcome → String
  | .duplicate => "Duplicate"
  | .accepted => "Accepted"
  | .rejected => "Rejected"
  | .caughtUp blocks => s!"CaughtUp({blocks})"
  | .ignored => "Ignored"

namespace Gossip

/-- Append a block that is next in line and pass it on. -/
def extendWith (b : Block) : Program SyncError FreshOutcome := do
  match ← .command (.save b) with
  | .ok () => do
    let _ ← .command (.broadcast .freshBlock (.freshBlock b))
    pure .accepted
  | .error (.invalid _) => pure .rejected
  | .error e => .fail (.store e)

/-- What is done with a block that was not announced lately: it is saved if it is next in line, and
looked for together with those below it if it is further ahead. -/
def lookAt (self : NodeId) (settings : SyncSettings) (rounds : Nat) (b : Block) :
    Program SyncError FreshOutcome := do
  let head ← .store .store Store.latestBlock
  if b.position = head.nextPosition then extendWith b
  else if head.nextPosition < b.position then do
    let blocks ← Reconcile.catchUp self settings rounds
    pure (.caughtUp blocks)
  else pure .ignored

def onFreshBlock (self : NodeId) (settings : SyncSettings) (rounds : Nat) (b : Block) :
    Program SyncError FreshOutcome := do
  if ← .command (.act (Node.note b.hash)) then lookAt self settings rounds b
  else pure .duplicate

end Gossip

end ChainNode
