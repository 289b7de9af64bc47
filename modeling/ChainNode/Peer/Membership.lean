/-!
# Membership

The nodes that count as active, in the order in which they became so.
-/
namespace ChainNode

abbrev NodeId := String

abbrev Membership := List NodeId

namespace Membership

/-- A node that is already there is not added again. -/
def join (m : Membership) (id : NodeId) : Membership := if id ∈ m then m else m ++ [id]

def leave (m : Membership) (id : NodeId) : Membership := m.filter (· ≠ id)

end Membership

end ChainNode
