import ChainNode.Reconcile.Apply

/-!
# Catching up

As long as the majority's view from the node's head on begins with that head and goes beyond it,
the view is applied and the node looks again. Peers decide how often, so the number of rounds is
bounded from outside.
-/
namespace ChainNode.Reconcile

/-- The majority's view from a position on, if it agrees with what is stored there; letter case
does not count. -/
def fetchConfident (self : NodeId) (settings : SyncSettings) (start : UInt64) (size : UInt32) :
    Program SyncError (Option View) := do
  let reports ← fetchInfos self settings start size
  match choose reports with
  | none => pure none
  | some view =>
    match view.infos with
    | [] => pure none
    | first :: _ =>
      if first.position ≠ start then pure none
      else do
        match ← .store .store (Store.blockAt start.toNat) with
        | none => pure none
        | some b => pure (if sameHash b.hash first.hash then some view else none)

/-- Does a view tell of anything above a position? -/
def goesBeyond (view : View) (position : UInt64) : Bool :=
  match view.lastPosition with
  | none => false
  | some last => position < last

/-- Take over what follows the head; the result counts blocks. -/
def catchUp (self : NodeId) (settings : SyncSettings) : Nat → Program SyncError Nat
  | 0 => .unfinished
  | rounds + 1 => do
    let head ← .store .store Store.latestBlock
    match ← fetchConfident self settings head.position settings.batchSize with
    | none => pure 0
    | some view =>
      if goesBeyond view head.position then do
        let applied ← apply self settings view
        if applied = 0 then pure 0
        else do
          let more ← catchUp self settings rounds
          pure (applied + more)
      else pure 0

end ChainNode.Reconcile
