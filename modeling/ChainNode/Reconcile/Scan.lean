import ChainNode.Reconcile.Ask
import ChainNode.View.ForkPoint

/-!
# Scanning for the fork point

Windows of positions are compared with the majority's view, from the given position downwards,
until one of them holds a position on which both agree. Each window is asked for together with a
batch above it, so that a match already carries what is missing; views from windows without a
match are kept for what they say about higher positions.
-/
namespace ChainNode.Reconcile

/-- The highest agreed position and the infos above it. -/
structure ScanResult where
  fork : UInt64
  missing : View
  deriving DecidableEq, Repr

/-- Nothing is missing. -/
def ScanResult.inSync (r : ScanResult) : Bool := r.missing.isEmpty

/-- What the windows so far have shown. -/
structure Scanned where
  sawView : Bool
  views : View
  deriving DecidableEq, Repr

/-- Lowest position of the window that ends at `cursor`. -/
def windowStart (settings : SyncSettings) (cursor : Nat) : Nat :=
  max (cursor - (max settings.scanWindow 1 - 1)) 1

/-- How many infos are asked for with a window of `length` positions: the sum is one of 64-bit
words, and what does not fit into 32 bits is cut off at the largest number that does. -/
def windowRequest (settings : SyncSettings) (length : Nat) : UInt32 :=
  word32 (UInt64.ofNat length + settings.batchSize.toUInt64).toNat

/-- Compare one window. -/
def scanWindow (self : NodeId) (settings : SyncSettings) (start length : Nat) (before : Scanned) :
    Program SyncError (ScanResult ⊕ Scanned) := do
  let reports ← fetchInfos self settings (UInt64.ofNat start) (windowRequest settings length)
  match choose reports with
  | none => pure (.inr before)
  | some view => do
    let stored ← .store .store (Store.infosInRange start length)
    match forkPoint stored view.infos with
    | some fork => pure (.inl ⟨fork, (view.absorb before.views).retainFrom (fork.toNat + 1)⟩)
    | none => pure (.inr ⟨true, before.views.absorb view⟩)

theorem windowStart_le (settings : SyncSettings) {cursor : Nat}
    (h : ¬ windowStart settings cursor ≤ 1) :
    windowStart settings cursor - 1 < cursor := by
  unfold windowStart at h ⊢
  omega

/-- Compare windows from `cursor` downwards; `origin` is where the scan began. -/
def scanFrom (self : NodeId) (settings : SyncSettings) (origin cursor : Nat) (before : Scanned) :
    Program SyncError ScanResult := do
  let start := windowStart settings cursor
  match ← scanWindow self settings start (cursor + 1 - start) before with
  | .inl result => pure result
  | .inr seen =>
    if h : windowStart settings cursor ≤ 1 then
      .fail (if seen.sawView then .divergence else .noPeerView origin)
    else scanFrom self settings origin (windowStart settings cursor - 1) seen
termination_by cursor
decreasing_by exact windowStart_le settings h

def scan (self : NodeId) (settings : SyncSettings) (origin : UInt64) :
    Program SyncError ScanResult :=
  scanFrom self settings origin.toNat (max origin.toNat 1) ⟨false, .empty⟩

end ChainNode.Reconcile
