/-!
# Settings of reconciliation

What is written into requests has the width that it has there; the rest are plain numbers.
-/
namespace ChainNode

structure SyncSettings where
  fanoutWidth : UInt32
  maxFetchRetries : UInt32
  minInformative : Nat
  scanWindow : Nat
  batchSize : UInt32
  requestTimeoutMs : Nat
  cacheTtlSecs : Nat
  cacheCapacity : Nat
  deriving DecidableEq, Repr

namespace SyncSettings

def default : SyncSettings := ⟨50, 3, 1, 10, 50, 10000, 300, 10000⟩

def testing : SyncSettings := ⟨10, 1, 1, 10, 20, 500, 60, 100⟩

def cacheTtlMs (s : SyncSettings) : Nat := s.cacheTtlSecs * 1000

end SyncSettings

end ChainNode
