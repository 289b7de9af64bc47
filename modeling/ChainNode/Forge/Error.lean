import ChainNode.Chain

/-!
# Why no block was sealed
-/
namespace ChainNode

def ConsentType.name : ConsentType → String
  | .proofOfWork => "ProofOfWork"
  | .proofOfMajority => "ProofOfMajority"

inductive ForgeError where
  | cancelled
  | noTransactions
  | notImplemented (type : ConsentType)
  | hashing (cause : HashError)
  | store (cause : StoreError)
  | taskFailed (reason : String)
  deriving DecidableEq, Repr

namespace ForgeError

def name : ForgeError → String
  | .cancelled => "Cancelled"
  | .noTransactions => "NoTransactions"
  | .notImplemented _ => "NotImplemented"
  | .hashing cause => s!"Hashing.{cause.name}"
  | .store cause => s!"Store.{cause.name}"
  | .taskFailed _ => "TaskFailed"

def message : ForgeError → String
  | .cancelled => "Consensus search cancelled"
  | .noTransactions => "No transactions to seal"
  | .notImplemented type => s!"Consensus algorithm not implemented: {type.name}"
  | .hashing cause => s!"Hashing error: {cause.message}"
  | .store cause => s!"Chain store error: {cause.message}"
  | .taskFailed reason => s!"Mining task failed: {reason}"

instance : Fault ForgeError := ⟨name, message⟩

/-- Another attempt may succeed. -/
def isRecoverable : ForgeError → Bool
  | .cancelled | .noTransactions | .notImplemented _ | .store _ => true
  | .hashing _ | .taskFailed _ => false

def isCritical : ForgeError → Bool
  | .hashing _ => true
  | _ => false

end ForgeError

end ChainNode
