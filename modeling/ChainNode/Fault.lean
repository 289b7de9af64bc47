/-!
# Faults

What all errors have in common: a name by which programs tell them apart, and a message for
people. An error that wraps another bears both in its name, joined by a dot.
-/
namespace ChainNode

class Fault (ε : Type) where
  name : ε → String
  message : ε → String

end ChainNode
