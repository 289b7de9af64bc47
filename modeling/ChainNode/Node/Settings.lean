import ChainNode.Fault
import ChainNode.Forge.Settings
import ChainNode.Peer.Membership
import ChainNode.Reconcile.Settings
import ChainNode.Text.Blank
import ChainNode.Text.Decimal
import ChainNode.Text.Quoted

/-!
# Settings of a node

Settings start from their defaults; each variable that is set overrides one of them. The first
variable that cannot be read is reported, in the order of `numericVariables`; only then is it
checked that no setting that must not be zero is zero.
-/
namespace ChainNode

structure NodeSettings where
  /-- Without an id of its own a node draws one when it starts. -/
  nodeId : Option NodeId
  workerThreads : Nat
  productionIntervalMs : Nat
  maxBlockTransactions : Nat
  forge : ForgeSettings
  sync : SyncSettings
  deriving DecidableEq, Repr

inductive SettingsError where
  | invalidValue (key value : String)
  | zero (setting : String)
  deriving DecidableEq, Repr

def SettingsError.name : SettingsError → String
  | .invalidValue .. => "InvalidValue"
  | .zero _ => "Zero"

def SettingsError.message : SettingsError → String
  | .invalidValue key value => s!"Invalid value {Text.quoted value} for {key}"
  | .zero setting => s!"{setting} must be greater than zero"

instance : Fault SettingsError := ⟨SettingsError.name, SettingsError.message⟩

namespace NodeSettings

def default : NodeSettings := ⟨none, 4, 10000, 500, .default, .default⟩

def testing (id : NodeId) : NodeSettings := ⟨some id, 2, 50, 50, .testing, .testing⟩

/-- A variable that holds a number. -/
structure Variable where
  key : String
  /-- The first number that is too large. -/
  size : Nat
  set : Nat → NodeSettings → NodeSettings

def Variable.word64 (key : String) (set : Nat → NodeSettings → NodeSettings) : Variable :=
  ⟨key, UInt64.size, set⟩

def Variable.word32 (key : String) (set : UInt32 → NodeSettings → NodeSettings) : Variable :=
  ⟨key, UInt32.size, fun n => set (.ofNat n)⟩

/-- All numeric variables in the order in which they are read. -/
def numericVariables : List Variable :=
  [.word64 "MC_WORKER_THREADS" fun n s => { s with workerThreads := n },
   .word64 "MC_PRODUCTION_INTERVAL_MS" fun n s => { s with productionIntervalMs := n },
   .word64 "MC_MAX_BLOCK_TRANSACTIONS" fun n s => { s with maxBlockTransactions := n },
   .word64 "MC_TARGET_MINING_RATE_MS" fun n s => { s with forge.targetRateMs := n },
   .word64 "MC_MINIMUM_QUORUM_SIZE" fun n s => { s with forge.minimumQuorum := n },
   .word32 "MC_INITIAL_DIFFICULTY" fun n s => { s with forge.initialDifficulty := n },
   .word64 "MC_MAJORITY_BLOCK_THRESHOLD" fun n s => { s with forge.majorityThreshold := some n },
   .word32 "MC_FANOUT_WIDTH" fun n s => { s with sync.fanoutWidth := n },
   .word32 "MC_MAX_FETCH_RETRIES" fun n s => { s with sync.maxFetchRetries := n },
   .word64 "MC_SCAN_WINDOW_SIZE" fun n s => { s with sync.scanWindow := n },
   .word32 "MC_BATCH_SIZE" fun n s => { s with sync.batchSize := n },
   .word64 "MC_REQUEST_TIMEOUT_MS" fun n s => { s with sync.requestTimeoutMs := n },
   .word64 "MC_DUPLICATE_CACHE_TTL_SECS" fun n s => { s with sync.cacheTtlSecs := n },
   .word64 "MC_DUPLICATE_CACHE_CAPACITY" fun n s => { s with sync.cacheCapacity := n }]

/-- The number a variable's text stands for; blanks around it do not count. -/
def Variable.read (v : Variable) (raw : String) : Option Nat :=
  Text.readDecimal v.size (Text.trim raw.toList)

def override (lookup : String → Option String) (v : Variable) (s : NodeSettings) :
    Except SettingsError NodeSettings :=
  match lookup v.key with
  | none => .ok s
  | some raw =>
    match v.read raw with
    | none => .error (.invalidValue v.key raw)
    | some n => .ok (v.set n s)

def overrideAll (lookup : String → Option String) :
    List Variable → NodeSettings → Except SettingsError NodeSettings
  | [], s => .ok s
  | v :: vs, s =>
    match override lookup v s with
    | .error e => .error e
    | .ok s' => overrideAll lookup vs s'

/-- The settings that must not be zero, in the order in which they are checked. -/
def positives (s : NodeSettings) : List (String × Nat) :=
  [("worker_threads", s.workerThreads),
   ("production_interval_ms", s.productionIntervalMs),
   ("max_block_transactions", s.maxBlockTransactions),
   ("fanout_width", s.sync.fanoutWidth.toNat),
   ("batch_size", s.sync.batchSize.toNat),
   ("target_mining_rate_ms", s.forge.targetRateMs)]

def validate (s : NodeSettings) : Except SettingsError Unit :=
  match s.positives.find? (·.2 = 0) with
  | some (setting, _) => .error (.zero setting)
  | none => .ok ()

/-- Settings from variables. The id is taken as it is. -/
def load (lookup : String → Option String) : Except SettingsError NodeSettings :=
  match overrideAll lookup numericVariables { default with nodeId := lookup "MC_NODE_ID" } with
  | .error e => .error e
  | .ok s =>
    match s.validate with
    | .error e => .error e
    | .ok () => .ok s

end NodeSettings

end ChainNode
