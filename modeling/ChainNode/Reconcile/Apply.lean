import ChainNode.Reconcile.Ask

/-!
# Taking over what the majority has

The part of a view that is stored already is skipped. The rest is downloaded from the peers that
hold the view, and as much of it as forms a chain on top of the stored predecessor replaces
whatever the node has there. Nothing is removed before the new blocks are at hand and checked.
-/
namespace ChainNode.Reconcile

/-- The infos from the first one on that is not stored. -/
def pendingInfos (stored infos : List BlockInfo) : List BlockInfo :=
  infos.dropWhile fun i => hashAt stored i.position == some i.hash

/-- As many blocks as form a chain on top of `parent`. -/
def validChain (parent : Block) : List Block → List Block
  | [] => []
  | b :: bs =>
    match parent.checkFollows b with
    | .ok () => b :: validChain b bs
    | .error _ => []

def saveAll : List Block → Program SyncError Unit
  | [] => pure ()
  | b :: bs => do
    match ← .command (.save b) with
    | .ok () => saveAll bs
    | .error e => .fail (.store e)

/-- Replace everything above `parent` by as many of the downloaded blocks as form a chain. -/
def takeOver (position : Nat) (parent : Block) (fetched : List Block) : Program SyncError Nat :=
  let blocks := validChain parent fetched
  if blocks.isEmpty then .fail (.blocksUnavailable position)
  else do
    let _ ← .store .store (Store.removeAfter (position - 1))
    saveAll blocks
    pure blocks.length

/-- Replace everything above `parent` by what the peers have for `pending`. -/
def replaceFrom (self : NodeId) (settings : SyncSettings) (position : Nat) (parent : Block)
    (pending : List BlockInfo) (nodes : List NodeId) : Program SyncError Nat := do
  let fetched ← fetchBlocks self settings pending nodes
  takeOver position parent fetched

/-- Bring the chain to a view, as far as possible, and say how many blocks were taken over. -/
def apply (self : NodeId) (settings : SyncSettings) (view : View) : Program SyncError Nat :=
  match view.infos with
  | [] => pure 0
  | lowest :: _ => do
    let stored ← .store .store (Store.infosInRange lowest.height view.infos.length)
    match pendingInfos stored view.infos with
    | [] => pure 0
    | first :: rest =>
      if first.height ≤ 1 then .fail .divergence
      else do
        match ← .store .store (Store.blockAt (first.height - 1)) with
        | none => .fail (.blocksUnavailable (first.height - 1))
        | some parent =>
          replaceFrom self settings first.height parent (first :: rest) view.nodes

end ChainNode.Reconcile
