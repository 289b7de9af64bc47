import ChainNode.Gossip
import ChainNode.Production
import ChainNode.Reconcile
import ChainNode.Simulation.Cluster

/-!
# A cluster on a timeline

Programs of several nodes run side by side on one clock. A program is carried out until it waits
for a round of calls; each call is answered by its target at the time at which it is due, from
what the target has then. A round is over as soon as it has enough answers or no open calls.

What happens next is always the first of these: an announcement that is under way, which takes no
time; a call that is due; a production cycle that is due. Between two events nothing happens, so
time jumps from one to the next. How many events may follow each other is bounded by `bound`,
because nodes that keep answering each other need never come to an end.
-/
namespace ChainNode.Simulation

/-- A call that has not settled. One that is not served fails when it is due. -/
structure OpenCall where
  due : Nat
  target : NodeId
  message : Message
  served : Bool

/-- A program in the middle of a round. -/
structure Waiting (ε α : Type) : Type 1 where
  owner : NodeId
  /-- When the round began. -/
  since : Nat
  Answer : Type
  round : Round Answer
  /-- In the order in which they are due. -/
  calls : List OpenCall
  answers : List Answer
  next : List Answer → Program ε α

/-- The time at which a waiting program has something to do. -/
def Waiting.due {ε α : Type} (w : Waiting ε α) : Nat := (w.calls.head?.map OpenCall.due).getD 0

inductive Progress (ε α : Type) : Type 1 where
  | ended (r : Except ε α)
  | unfinished
  | waiting (w : Waiting ε α)

namespace Cluster

/-- The calls of a round, each with the time at which it settles. -/
def openCalls {β : Type} (now : Nat) (r : Round β) (c : Cluster) : List OpenCall :=
  let openCall (call : NodeId × Message) : OpenCall :=
    if call.1 ∈ c.joined then
      let latency := ((c.find call.1).map Member.latency).getD 0
      ⟨now + min latency r.timeout, call.1, call.2, latency ≤ r.timeout⟩
    else ⟨now, call.1, call.2, false⟩
  (r.calls.map openCall).mergeSort (·.due ≤ ·.due)

/-- What a call that is due brings. -/
def settleCall {β : Type} (r : Round β) (call : OpenCall) (c : Cluster) : Option β × Cluster :=
  if call.served then
    match c.answer call.target call.message with
    | (.error _, c) => (none, c)
    | (.ok reply, c) => ((r.read call.target reply).toOption, c)
  else (none, c)

/-- Settle the calls that are due. No call is left open when the answers suffice. -/
def settle {β : Type} (now : Nat) (r : Round β) :
    List OpenCall → List β → Cluster → List OpenCall × List β × Cluster
  | [], answers, c => ([], answers, c)
  | call :: calls, answers, c =>
    if now < call.due then (call :: calls, answers, c)
    else
      match c.settleCall r call with
      | (none, c) => settle now r calls answers c
      | (some answer, c) =>
        if Fanout.minimumDesired r.calls.length ≤ answers.length + 1 then
          ([], answers ++ [answer], c)
        else settle now r calls (answers ++ [answer]) c

/-- Carry out a program of a node until it ends or waits. -/
def proceed {ε α : Type} (now : Nat) : Program ε α → World Cluster → Progress ε α × World Cluster
  | .done r, w => (.ended r, w)
  | .unfinished, w => (.unfinished, w)
  | .perform (.round r) next, w =>
    match settle now r (w.peers.openCalls now r) [] w.peers with
    | ([], answers, c) => proceed now (next answers) { w with peers := c }
    | (calls, answers, c) =>
      (.waiting ⟨w.node.id, now, _, r, calls, answers, next⟩, { w with peers := c })
  | .perform command next, w =>
    match command.exec (network w.node.id) w with
    | (b, w) => proceed now (next b) w

/-- Let a node begin a program. -/
def launch {ε α : Type} (now : Nat) (id : NodeId) (program : Node → Program ε α) (c : Cluster) :
    Progress ε α × Cluster :=
  match c.find id with
  | none => (.unfinished, c)
  | some m =>
    match proceed now (program m.node) ⟨m.node, c, []⟩ with
    | (progress, w) => (progress, w.peers.put w.node)

/-- Settle what is due in a round, and go on with the program if the round is over. -/
def resume {ε α : Type} (now : Nat) (w : Waiting ε α) (c : Cluster) : Progress ε α × Cluster :=
  match settle now w.round w.calls w.answers c with
  | ([], answers, c) => c.launch now w.owner fun _ => w.next answers
  | (calls, answers, c) => (.waiting { w with calls, answers }, c)

end Cluster

/-- The next cycle of a node that produces blocks. -/
structure ProductionLoop where
  owner : NodeId
  due : Nat

structure Timeline : Type 1 where
  now : Nat
  cluster : Cluster
  loops : List ProductionLoop
  /-- Receivers of announcements that are catching up, by the time their rounds began. -/
  background : List (Waiting SyncError FreshOutcome)
  bound : Nat

namespace Timeline

def start (c : Cluster) (bound : Nat) : Timeline := ⟨0, c, [], [], bound⟩

/-- Split a list at the first element that fulfils a condition. -/
def splitFirst.{u} {α : Type u} (p : α → Bool) : List α → Option (List α × α × List α)
  | [] => none
  | a :: as =>
    if p a then some ([], a, as)
    else (splitFirst p as).map fun (before, found, after) => (a :: before, found, after)

/-- Hand an announced block to its receiver. -/
def deliver (a : Announcement) (t : Timeline) : Timeline :=
  match t.cluster.launch t.now a.receiver
      fun n => Gossip.onFreshBlock n.id n.syncSettings t.bound a.block with
  | (.waiting w, c) => { t with cluster := c, background := t.background ++ [w] }
  | (_, c) => { t with cluster := c }

/-- How a production cycle of a member is interrupted. -/
def interruptions (m : Member) : Interruptions := ⟨fun _ => false, fun _ => m.interrupted⟩

def cycle (m : Member) : Program NodeError (Option Block) := do
  let _ ← .command (.act Node.purge)
  Production.cycle (.still (UInt64.ofNat m.node.now)) (interruptions m)

/-- A production cycle and the appointment for the next one. A node that was stopped in the
middle of a cycle makes none. -/
def produce (l : ProductionLoop) (t : Timeline) : Timeline :=
  match t.cluster.find l.owner with
  | none => t
  | some m =>
    match t.cluster.launch t.now l.owner fun _ => cycle m with
    | (.ended (.error (.forge .cancelled)), c) => { t with cluster := c }
    | (_, c) => { t with cluster := c, loops := t.loops ++ [⟨l.owner, l.due + m.interval⟩] }

/-- The time of the next call or cycle that is due. -/
def nextDue (t : Timeline) : Option Nat :=
  (t.background.map Waiting.due ++ t.loops.map ProductionLoop.due).min?

/-- What happens at a time: a call comes before a cycle, and of several calls the one whose round
began first. -/
def happen (now : Nat) (t : Timeline) : Timeline :=
  match splitFirst (·.due = now) t.background with
  | some (before, w, after) =>
    match t.cluster.resume now w with
    | (.waiting w', c) =>
      let background :=
        if w'.since = w.since then before ++ w' :: after else before ++ after ++ [w']
      { t with now, cluster := c, background }
    | (_, c) => { t with now, cluster := c, background := before ++ after }
  | none =>
    match splitFirst (·.due = now) t.loops with
    | some (before, l, after) => { t with now, loops := before ++ after }.produce l
    | none => { t with now }

/-- The next event before a deadline. -/
def step (deadline : Nat) (t : Timeline) : Option Timeline :=
  match t.cluster.announcements with
  | a :: rest => some (deliver a { t with cluster := { t.cluster with announcements := rest } })
  | [] => (t.nextDue.filter (· < deadline)).map fun now => t.happen now

/-- At most `events` events before a deadline. -/
def runTo (deadline : Nat) : Nat → Timeline → Timeline
  | 0, t => t
  | events + 1, t =>
    match t.step deadline with
    | some t => runTo deadline events t
    | none => { t with now := deadline }

/-- Let time pass. -/
def elapse (ms : Nat) (t : Timeline) : Timeline := runTo (t.now + ms) t.bound t

/-- Let everything happen that happens before a waiting program ends. -/
def await {ε α : Type} : Nat → Waiting ε α → Timeline → Option (Except ε α) × Timeline
  | 0, _, t => (none, t)
  | events + 1, w, t =>
    match t.step w.due with
    | some t => await events w t
    | none =>
      match t.cluster.resume w.due w with
      | (.ended r, c) => (some r, { t with now := w.due, cluster := c })
      | (.unfinished, c) => (none, { t with now := w.due, cluster := c })
      | (.waiting w', c) => await events w' { t with now := w.due, cluster := c }

/-- Let a node carry out a program and wait for its outcome. -/
def perform {ε α : Type} (id : NodeId) (program : Node → Program ε α) (t : Timeline) :
    Option (Except ε α) × Timeline :=
  match t.cluster.launch t.now id program with
  | (.ended r, c) => (some r, { t with cluster := c })
  | (.unfinished, c) => (none, { t with cluster := c })
  | (.waiting w, c) => await t.bound w { t with cluster := c }

/-- Put a message to a node and wait for its answer. -/
def ask (target : NodeId) (m : Message) (t : Timeline) : Except SyncError Message × Timeline :=
  if target ∈ t.cluster.joined then
    let t := t.elapse (((t.cluster.find target).map Member.latency).getD 0)
    match t.cluster.answer target m with
    | (r, c) => (r, { t with cluster := c })
  else (.error (Cluster.notMember target), t)

/-- Reconcile a node, then let it produce blocks, the first after one interval. A node that was
shut down, or whose interval is zero, produces none. -/
def startNode (id : NodeId) (t : Timeline) : Option (Except NodeError Reconciliation) × Timeline :=
  match t.perform id fun n => Reconcile.reconcile n.id n.syncSettings t.bound with
  | (none, t) => (none, t)
  | (some (.error e), t) => (some (.error (.sync e)), t)
  | (some (.ok report), t) =>
    let first := (t.cluster.find id).filter fun m => !m.stopped && 0 < m.interval
    (some (.ok report),
      { t with loops := t.loops ++ first.toList.map fun m => ⟨id, t.now + m.interval⟩ })

/-- Shut a node down: its cycles end, and it starts no new ones. -/
def shutdown (id : NodeId) (t : Timeline) : Timeline :=
  { t with
    cluster := t.cluster.modify id fun m => { m with stopped := true, interrupted := false }
    loops := t.loops.filter (·.owner ≠ id) }

/-- Let time pass and shut a node down while it searches for a nonce. -/
def shutdownDuringSearch (id : NodeId) (ms : Nat) (t : Timeline) : Timeline :=
  shutdown id
    ({ t with cluster := t.cluster.modify id fun m => { m with interrupted := true } }.elapse ms)

/-- Set the clock of all nodes. -/
def setClock (now : Nat) (t : Timeline) : Timeline :=
  { t with cluster :=
      { t.cluster with
        members := t.cluster.members.map fun m => { m with node := { m.node with now } } } }

end Timeline

end ChainNode.Simulation
