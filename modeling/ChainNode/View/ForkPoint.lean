import ChainNode.View.Majority

/-!
# The fork point

The highest position on which a local and a remote view of a range agree before the remote view,
read upwards, first contradicts the local one. Positions that only one of them has do not count.
-/
namespace ChainNode

/-- Read a sorted remote view upwards; `best` is the last agreement so far. -/
def agreement (localInfos : List BlockInfo) (best : Option UInt64) :
    List BlockInfo → Option UInt64
  | [] => best
  | i :: rest =>
    match hashAt localInfos i.position with
    | none => agreement localInfos best rest
    | some hash =>
      if hash = i.hash then agreement localInfos (some i.position) rest else best

def forkPoint (localInfos remote : List BlockInfo) : Option UInt64 :=
  agreement localInfos none (BlockInfo.sort remote)

end ChainNode
