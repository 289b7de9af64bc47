import ChainNode.Fanout
import ChainNode.Node.Program

/-!
# Carrying out a program against a network

A `Network` is any behaviour of everybody else: who is active, in which order lists come out of
a shuffle, how long a peer takes and what it answers, what becomes of a broadcast, and what
happens to the node while it is busy. Nothing is assumed about it; in particular a peer may fail,
answer nonsense, or change its mind from one request to the next.

The world notes what the node did: its rounds with the replies that counted, the blocks it saved
and what it announced.

* `run_bind`: a sequence of programs is carried out one after the other.
-/
namespace ChainNode

structure Network (σ : Type) where
  members : σ → List NodeId
  shuffle : List NodeId → σ → List NodeId × σ
  newId : σ → RequestId × σ
  latency : NodeId → Message → σ → Nat
  handle : NodeId → Message → σ → Except SyncError Message × σ
  broadcast : Topic → Message → σ → Except SyncError Unit × σ
  meanwhile : Node → σ → Node × σ

inductive Event where
  | asked (calls : List (NodeId × Message)) (replies : List (NodeId × Message)) (elapsed : Nat)
  | saved (b : Block)
  | announced (topic : Topic) (m : Message)
  deriving DecidableEq, Repr

structure World (σ : Type) where
  node : Node
  peers : σ
  /-- Newest first. -/
  events : List Event

namespace World

variable {σ : Type}

def note (e : Event) (w : World σ) : World σ := { w with events := e :: w.events }

/-- Put a call to a peer and read its reply. -/
def serve {β : Type} (net : Network σ) (r : Round β) (call : NodeId × Message) (peers : σ) :
    Except SyncError (β × NodeId × Message) × σ :=
  match net.handle call.1 call.2 peers with
  | (.error e, peers) => (.error e, peers)
  | (.ok reply, peers) =>
    match r.read call.1 reply with
    | .error e => (.error e, peers)
    | .ok answer => (.ok (answer, call.1, reply), peers)

def round {β : Type} (net : Network σ) (r : Round β) (w : World σ) : List β × World σ :=
  let calls := r.calls.map fun call =>
    (⟨net.latency call.1 call.2 w.peers, call⟩ : Fanout.Call (NodeId × Message))
  match Fanout.fetch r.timeout (serve net r) calls w.peers with
  | (got, peers) =>
    (got.answers.map (·.1),
      note (.asked r.calls (got.answers.map (·.2)) got.elapsed) { w with peers := peers })

end World

variable {σ : Type}

/-- Carry out one command. -/
def Command.exec (net : Network σ) : {β : Type} → Command β → World σ → β × World σ
  | _, .act step, w =>
    match step w.node with
    | (b, n) => (b, { w with node := n })
  | _, .save b, w =>
    match w.node.withStore (Store.save b) with
    | (.ok (), n) => (.ok (), { w with node := n }.note (.saved b))
    | (.error e, n) => (.error e, { w with node := n })
  | _, .members, w => (net.members w.peers, w)
  | _, .shuffle ids, w =>
    match net.shuffle ids w.peers with
    | (ids, peers) => (ids, { w with peers := peers })
  | _, .newId, w =>
    match net.newId w.peers with
    | (id, peers) => (id, { w with peers := peers })
  | _, .broadcast topic m, w =>
    match net.broadcast topic m w.peers with
    | (r, peers) => (r, { w with peers := peers }.note (.announced topic m))
  | _, .round r, w => w.round net r
  | _, .busy, w =>
    match net.meanwhile w.node w.peers with
    | (n, peers) => ((), { w with node := n, peers := peers })

namespace Program

variable {ε ε' α β : Type}

/-- The outcome, if there is one, and the world afterwards. -/
def run (net : Network σ) : Program ε α → World σ → Option (Except ε α) × World σ
  | .done r, w => (some r, w)
  | .unfinished, w => (none, w)
  | .perform c next, w =>
    match c.exec net w with
    | (b, w) => (next b).run net w

theorem run_bind (net : Network σ) (p : Program ε α) (f : α → Program ε β) (w : World σ) :
    (p.bind f).run net w =
      match p.run net w with
      | (some (.ok a), w) => (f a).run net w
      | (some (.error e), w) => (some (.error e), w)
      | (none, w) => (none, w) := by
  induction p generalizing w with
  | done r => cases r <;> rfl
  | unfinished => rfl
  | perform c next ih => simp only [bind, run, ih]

theorem run_attempt (net : Network σ) (p : Program ε α) (w : World σ) :
    (p.attempt : Program ε' (Except ε α)).run net w =
      match p.run net w with
      | (some r, w) => (some (.ok r), w)
      | (none, w) => (none, w) := by
  induction p generalizing w with
  | done r => rfl
  | unfinished => rfl
  | perform c next ih => simp only [attempt, run, ih]

end Program

end ChainNode
