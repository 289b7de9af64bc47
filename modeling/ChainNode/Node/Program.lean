import ChainNode.Node

/-!
# What a node does, step by step

Reconciling, listening and producing are written as programs: trees of commands to the node's
own state and to the network, in which every continuation says what comes next for each possible
outcome. A program knows nothing of who carries it out. `Node.Run` carries it out against one
network at a time, `Simulation.Timeline` carries out many at once on a shared timeline.

A program ends with a result, with an error, or unfinished, when a bound on the number of its
rounds ran out.
-/
namespace ChainNode

/-- A round of calls to peers, and how a reply is understood. -/
structure Round (β : Type) where
  timeout : Nat
  calls : List (NodeId × Message)
  read : NodeId → Message → Except SyncError β

/-- A command and the type of what it returns. -/
inductive Command : Type → Type 1 where
  /-- An indivisible step on the node itself. -/
  | act {β : Type} (step : Node → β × Node) : Command β
  /-- Append a block to the node's chain. -/
  | save (b : Block) : Command (Except StoreError Unit)
  /-- The ids of the other nodes that are active. -/
  | members : Command (List NodeId)
  /-- A list in random order. -/
  | shuffle (ids : List NodeId) : Command (List NodeId)
  /-- An id that no request had before. -/
  | newId : Command RequestId
  /-- Tell all others something, without waiting for them. -/
  | broadcast (topic : Topic) (m : Message) : Command (Except SyncError Unit)
  /-- Ask peers and wait for enough of them. -/
  | round {β : Type} (r : Round β) : Command (List β)
  /-- Be busy for a while, during which others may reach the node. -/
  | busy : Command Unit

inductive Program (ε α : Type) : Type 1 where
  | done (r : Except ε α)
  | unfinished
  | perform {β : Type} (c : Command β) (next : β → Program ε α)

namespace Program

variable {ε ε' α β : Type}

def fail (e : ε) : Program ε α := .done (.error e)

def bind : Program ε α → (α → Program ε β) → Program ε β
  | .done (.ok a), f => f a
  | .done (.error e), _ => .done (.error e)
  | .unfinished, _ => .unfinished
  | .perform c next, f => .perform c fun b => (next b).bind f

instance : Monad (Program ε) where
  pure a := .done (.ok a)
  bind := bind

/-- The outcome of a program as its result: an error ends it no longer. -/
def attempt : Program ε α → Program ε' (Except ε α)
  | .done r => .done (.ok r)
  | .unfinished => .unfinished
  | .perform c next => .perform c fun b => (next b).attempt

def command (c : Command α) : Program ε α := .perform c fun a => .done (.ok a)

/-- A step on the node that may fail. -/
def step {δ : Type} (wrap : δ → ε) (f : Node → Except δ α × Node) : Program ε α :=
  .perform (.act f) fun r => .done (r.mapError wrap)

/-- Use the node's store. -/
def store (wrap : StoreError → ε) (op : Store.Op α) : Program ε α := step wrap (Node.withStore op)

@[simp] theorem pure_eq (a : α) : (pure a : Program ε α) = .done (.ok a) := rfl

@[simp] theorem bind_eq (p : Program ε α) (f : α → Program ε β) : (p >>= f) = p.bind f := rfl

theorem bind_assoc {γ : Type} (p : Program ε α) (f : α → Program ε β) (g : β → Program ε γ) :
    (p.bind f).bind g = p.bind fun a => (f a).bind g := by
  induction p with
  | done r => cases r <;> rfl
  | unfinished => rfl
  | perform c next ih => simp only [bind, ih]

end Program

end ChainNode
