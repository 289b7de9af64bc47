import ChainNode.Node.Program
import ChainNode.View.Majority

/-!
# Asking for infos and blocks

A request goes to a random choice among the active peers, or among the peers that it names, and
never to the node itself. Rounds that ask for infos are repeated, each time under another id,
until enough replies carry something or the retries are used up. A report is credited to the peer
that was asked, whatever name its reply bears.
-/
namespace ChainNode.Reconcile

/-- Largest number that 32 bits hold. -/
def maxWord32 : Nat := UInt32.size - 1

def word32 (n : Nat) : UInt32 := UInt32.ofNat (min n maxWord32)

def askers (self : NodeId) (request : BatchRequest) : Program SyncError (List NodeId) := do
  let candidates ← match request.selected with
    | some ids => pure ids
    | none => .command .members
  let shuffled ← .command (.shuffle (candidates.filter (· ≠ self)))
  pure (shuffled.take request.receivers.toNat)

def readInfos (node : NodeId) : Message → Except SyncError Report
  | .infos reply => .ok ⟨node, reply.entities⟩
  | _ => .error (.unexpectedResponse node .blockInfoSync)

def readBlocks (node : NodeId) : Message → Except SyncError (List Block)
  | .blocks reply => .ok reply.entities
  | _ => .error (.unexpectedResponse node .blockSync)

def infoRequest (settings : SyncSettings) (id : RequestId) (start : UInt64) (size : UInt32) :
    BatchRequest :=
  ⟨id, start, size, .blockInfoSync, settings.fanoutWidth, settings.maxFetchRetries, none⟩

def informative (reports : List Report) : Nat := reports.countP fun r => !r.infos.isEmpty

/-- Ask, and ask again up to `retries` times. -/
def askInfos (self : NodeId) (settings : SyncSettings) :
    Nat → BatchRequest → Program SyncError (List Report)
  | retries, request => do
    let targets ← askers self request
    if targets.isEmpty then .fail .noActivePeers
    else do
      let reports ← .command (.round
        ⟨settings.requestTimeoutMs, targets.map fun t => (t, .infoRequest request), readInfos⟩)
      if settings.minInformative ≤ informative reports then pure reports
      else
        match retries with
        | 0 => pure reports
        | retries + 1 => do
          let id ← .command .newId
          askInfos self settings retries (request.retried id)

/-- What peers report on a range. -/
def fetchInfos (self : NodeId) (settings : SyncSettings) (start : UInt64) (size : UInt32) :
    Program SyncError (List Report) := do
  let id ← .command .newId
  askInfos self settings settings.maxFetchRetries.toNat (infoRequest settings id start size)

/-- The blocks of a list of infos, as far as they were found: each must name itself correctly and
stand at the position that its info gives, and none is used twice. -/
def pickBlocks : List BlockInfo → List Block → List Block
  | [], _ => []
  | i :: is, found =>
    match found.find? (·.hash = i.hash) with
    | none => []
    | some b =>
      if b.position = i.position then b :: pickBlocks is (found.filter (·.hash ≠ i.hash)) else []

def blockRequest (id : RequestId) (start : UInt64) (infos : List BlockInfo)
    (nodes : List NodeId) : BatchRequest :=
  ⟨id, start, word32 infos.length, .blockSync, word32 nodes.length, 0, some nodes⟩

/-- Download the blocks of a list of infos from the given peers. -/
def fetchBlocks (self : NodeId) (settings : SyncSettings) (infos : List BlockInfo)
    (nodes : List NodeId) : Program SyncError (List Block) :=
  match infos with
  | [] => pure []
  | first :: _ => do
    let id ← .command .newId
    let request := blockRequest id first.position infos nodes
    let targets ← askers self request
    if targets.isEmpty then .fail .noActivePeers
    else do
      let replies ← .command (.round
        ⟨settings.requestTimeoutMs, targets.map fun t => (t, .blockRequest request), readBlocks⟩)
      pure (pickBlocks infos (replies.flatten.filter Block.isCorrect))

end ChainNode.Reconcile
