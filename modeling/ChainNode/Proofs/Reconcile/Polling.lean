import ChainNode.Proofs.Peer.Solo
import ChainNode.Proofs.Reconcile.Ask

/-!
# One report of each peer that was asked

The majority is found by counting reports, so a peer must not be counted twice, and nobody may be
counted who was not asked. Whatever peers say, and under whatever names, a request for infos asks
different peers in each round, as many as it may, under an id of its own, and goes on to the next
round only if too few of the replies carry something. This takes peers that stay the same meanwhile,
shuffles that are shuffles, and ids that are new (`Steady`).

* `Course`, `Steady.nodup`: what can happen while peers are asked, and that ids differ.
* `chosen_take`, `Poll.fair_of_subperm`: one round.
* `Rounds.polled`: from one round to the next.
* `fetchInfos_polled`: all rounds of a request.
-/
namespace ChainNode.Reconcile

open Program

variable {σ : Type}

/-! ## What can happen meanwhile -/

/-- What can become of peers while a node asks them, with the ids that are given out, newest first.
-/
inductive Course (net : Network σ) (s : σ) : List RequestId → σ → Prop where
  | start : Course net s [] s
  | newId {ids : List RequestId} {t : σ} (before : Course net s ids t) :
      Course net s ((net.newId t).1 :: ids) (net.newId t).2
  | shuffle {ids : List RequestId} {t : σ} (before : Course net s ids t) (nodes : List NodeId) :
      Course net s ids (net.shuffle nodes t).2
  | handle {ids : List RequestId} {t : σ} (before : Course net s ids t) (target : NodeId)
      (m : Message) : Course net s ids (net.handle target m t).2

/-- Peers that stay the same while a node asks them, shuffles that change the order only, and ids
that are new as long as no more than `limit` of them are given out. -/
structure Steady (net : Network σ) (limit : Nat) (s : σ) : Prop where
  distinct : (net.members s).Nodup
  fixed : ∀ {ids t}, Course net s ids t → net.members t = net.members s
  shuffled : ∀ {ids t}, Course net s ids t → ∀ nodes, (net.shuffle nodes t).1.Perm nodes
  fresh : ∀ {ids t}, Course net s ids t → ids.length < limit → (net.newId t).1 ∉ ids

variable {net : Network σ} {s : σ} {ids : List RequestId} {w w' : World σ}

theorem Steady.nodup {limit : Nat} (steady : Steady net limit s) {t : σ}
    (course : Course net s ids t)
    (few : ids.length ≤ limit) : ids.Nodup := by
  induction course with
  | start => exact List.nodup_nil
  | newId before ih => exact List.nodup_cons.mpr ⟨steady.fresh before few, ih (Nat.le_of_lt few)⟩
  | shuffle _ _ ih => exact ih few
  | handle _ _ _ ih => exact ih few

theorem Course.round {β : Type} (course : Course net s ids w.peers) (r : Round β) :
    Course net s ids (w.round net r).2.peers :=
  World.round_peers (R := fun t t' => Course net s ids t → Course net s ids t') (fun _ => id)
    (fun first second course => second (first course))
    (fun target m _ course => course.handle target m) r w course

/-! ## One round -/

/-- As many of the others as may be asked, each of them once. -/
structure Chosen (targets others : List NodeId) (width : Nat) : Prop where
  distinct : targets.Nodup
  among : targets ⊆ others
  length : targets.length = min width others.length

theorem chosen_take {others shuffled : List NodeId} (distinct : others.Nodup)
    (perm : shuffled.Perm others) (width : Nat) : Chosen (shuffled.take width) others width where
  distinct := (perm.nodup_iff.mpr distinct).sublist (List.take_sublist _ _)
  among _ ht := perm.subset (List.mem_of_mem_take ht)
  length := by rw [List.length_take, perm.length_eq]

/-- A round of a request for infos: whom it asked under which id, and the replies that counted. -/
structure Poll where
  id : RequestId
  targets : List NodeId
  replies : List (NodeId × Message)
  elapsed : Nat

namespace Poll

/-- How it is noted. -/
def event (settings : SyncSettings) (start : UInt64) (size : UInt32) (p : Poll) : Event :=
  .asked (p.targets.map fun t => (t, .infoRequest (infoRequest settings p.id start size))) p.replies
    p.elapsed

def reports (p : Poll) : List Report := World.understood readInfos p.replies

/-- It asks as many as it may, and counts peers that it asked, each of them once. -/
structure Fair (p : Poll) (others : List NodeId) (width : Nat) : Prop where
  chosen : Chosen p.targets others width
  once : (p.reports.map Report.node).Nodup
  asked : ∀ report ∈ p.reports, report.node ∈ p.targets

/-- A report bears the name of the peer that was asked. -/
theorem node_of_readInfos {id : NodeId} {m : Message} {report : Report}
    (h : readInfos id m = .ok report) : report.node = id := by
  cases m with
  | infos reply =>
    cases h
    rfl
  | infoRequest | blockRequest | blocks | freshBlock => cases h

theorem nodes_sublist (replies : List (NodeId × Message)) :
    ((World.understood readInfos replies).map Report.node).Sublist (replies.map Prod.fst) := by
  induction replies with
  | nil => exact .slnil
  | cons reply replies ih =>
    unfold World.understood at ih ⊢
    rw [List.filterMap_cons]
    cases understood : readInfos reply.1 reply.2 with
    | error e => exact ih.cons _
    | ok report =>
      rw [List.map_cons, ← node_of_readInfos understood]
      exact ih.cons_cons _

theorem fair_of_subperm {p : Poll} {others : List NodeId} {width : Nat}
    (chosen : Chosen p.targets others width) (once : (p.replies.map Prod.fst).Subperm p.targets) :
    p.Fair others width := by
  have some_of : (p.reports.map Report.node).Subperm p.targets :=
    (nodes_sublist p.replies).subperm.trans once
  refine ⟨chosen, ?_, fun report h => some_of.subset (List.mem_map_of_mem h)⟩
  obtain ⟨nodes, perm, sublist⟩ := some_of
  exact perm.nodup_iff.mp (chosen.distinct.sublist sublist)

end Poll

/-! ## Round after round -/

/-- Rounds as they ought to be, at most `retries` of them after the first: the earlier ones, newest
first, brought too little, and the last one brought enough or was the last that is allowed. -/
structure Regular (settings : SyncSettings) (others : List NodeId) (retries : Nat) (last : Poll)
    (earlier : List Poll) : Prop where
  few : earlier.length ≤ retries
  fair : ∀ p ∈ last :: earlier, p.Fair others settings.fanoutWidth.toNat
  short : ∀ p ∈ earlier, informative p.reports < settings.minInformative
  enough : earlier.length < retries → settings.minInformative ≤ informative last.reports

variable {settings : SyncSettings} {others : List NodeId} {self : NodeId} {start : UInt64}
  {size : UInt32}

theorem Regular.single {retries : Nat} {p : Poll} (fair : p.Fair others settings.fanoutWidth.toNat)
    (enough : 0 < retries → settings.minInformative ≤ informative p.reports) :
    Regular settings others retries p [] where
  few := Nat.zero_le _
  fair := List.forall_mem_singleton.mpr fair
  short := nofun
  enough := enough

/-- Rounds after one that brought too little. -/
theorem Regular.after {retries : Nat} {first last : Poll} {earlier : List Poll}
    (more : Regular settings others retries last earlier)
    (fair : first.Fair others settings.fanoutWidth.toNat)
    (short : informative first.reports < settings.minInformative) :
    Regular settings others (retries + 1) last (earlier ++ [first]) where
  few := by simpa using more.few
  fair := by
    rw [← List.cons_append]
    exact List.forall_mem_append.mpr ⟨more.fair, List.forall_mem_singleton.mpr fair⟩
  short := List.forall_mem_append.mpr ⟨more.short, List.forall_mem_singleton.mpr short⟩
  enough := by simpa using more.enough

/-- What becomes of a world in which a range is asked for until it is enough: each round has used
one id, and what the last one counted is returned. -/
structure Polled (net : Network σ) (s : σ) (settings : SyncSettings) (others : List NodeId)
    (start : UInt64) (size : UInt32) (retries : Nat) (ids : List RequestId) (w : World σ)
    (r : Except SyncError (List Report)) (w' : World σ) (last : Poll) (earlier : List Poll) :
    Prop where
  ended : r = .ok last.reports
  events : w'.events = (last :: earlier).map (Poll.event settings start size) ++ w.events
  course : Course net s ((last :: earlier).map Poll.id ++ ids) w'.peers
  regular : Regular settings others retries last earlier

theorem Polled.after {retries : Nat} {p last : Poll} {earlier : List Poll} {w₁ : World σ}
    {r : Except SyncError (List Report)}
    (more : Polled net s settings others start size retries (p.id :: ids) w₁ r w' last earlier)
    (noted : w₁.events = p.event settings start size :: w.events)
    (fair : p.Fair others settings.fanoutWidth.toNat)
    (short : informative p.reports < settings.minInformative) :
    Polled net s settings others start size (retries + 1) ids w r w' last (earlier ++ [p]) where
  ended := more.ended
  events := by
    rw [more.events, noted]
    simp
  course := by simpa using more.course
  regular := more.regular.after fair short

section

variable (steady : Steady net (settings.maxFetchRetries.toNat + 1) s)
  (all : others = (net.members s).filter (· ≠ self))

include steady all

theorem chosen_of_askers {id : RequestId} {targets : List NodeId}
    (course : Course net s ids w.peers)
    (ran : (askers self (infoRequest settings id start size)).run net w =
      (some (.ok targets), w')) :
    Chosen targets others settings.fanoutWidth.toNat ∧ w'.events = w.events ∧
      Course net s ids w'.peers := by
  cases ran
  refine ⟨chosen_take (all ▸ steady.distinct.filter _) ?_ _, rfl, course.shuffle _⟩
  rw [all, ← steady.fixed course]
  exact steady.shuffled course _

/-- Each round is fair. -/
theorem poll_of_round {id : RequestId} {targets : List NodeId} {w₁ : World σ}
    (course : Course net s ids w.peers)
    (ran : (askers self (infoRequest settings id start size)).run net w =
      (some (.ok targets), w₁)) :
    let ended := w₁.round net (infoRound settings (infoRequest settings id start size) targets)
    ∃ p : Poll, p.id = id ∧ p.Fair others settings.fanoutWidth.toNat ∧ ended.1 = p.reports ∧
      ended.2.events = p.event settings start size :: w.events ∧
        Course net s ids ended.2.peers := by
  obtain ⟨chosen, events, course₁⟩ := chosen_of_askers steady all course ran
  let r := infoRound settings (infoRequest settings id start size) targets
  obtain ⟨replies, elapsed, noted, -, understood⟩ := World.round_noted net r w₁
  have once := World.round_once noted
  rw [map_fst_calls] at once
  exact ⟨⟨id, targets, replies, elapsed⟩, rfl, Poll.fair_of_subperm chosen once, understood,
    noted.trans (congrArg _ events), course₁.round r⟩

theorem Rounds.nobody_asked {retries : Nat} {id : RequestId} {r : Except SyncError (List Report)}
    (went : Rounds net self settings retries (infoRequest settings id start size) w r w')
    (nobody : others = []) (course : Course net s ids w.peers) :
    r = .error .noActivePeers ∧ w'.events = w.events := by
  have none : ∀ {targets : List NodeId} {w₁ : World σ},
      (askers self (infoRequest settings id start size)).run net w = (some (.ok targets), w₁) →
      targets = [] ∧ w₁.events = w.events := fun ran => by
    obtain ⟨chosen, events, -⟩ := chosen_of_askers steady all course ran
    exact ⟨List.subset_nil.mp (nobody ▸ chosen.among), events⟩
  cases went with
  | nobody ran => exact ⟨rfl, (none ran).2⟩
  | last ran some_target => exact absurd (none ran).1 some_target
  | again ran some_target => exact absurd (none ran).1 some_target

/-- By induction on the rounds. -/
theorem Rounds.polled {retries : Nat} {request : BatchRequest} {r : Except SyncError (List Report)}
    (went : Rounds net self settings retries request w r w') (some_other : others ≠ [])
    (some_width : 1 ≤ settings.fanoutWidth.toNat) {id : RequestId} {ids : List RequestId}
    (asked : request = infoRequest settings id start size)
    (course : Course net s (id :: ids) w.peers) :
    ∃ last earlier, Polled net s settings others start size retries ids w r w' last earlier := by
  induction went generalizing id ids with
  | nobody ran =>
    subst asked
    have length := (chosen_of_askers steady all course ran).1.length
    have some_other := List.length_pos_of_ne_nil some_other
    rw [List.length_nil] at length
    omega
  | last ran _ enough =>
    subst asked
    obtain ⟨p, rfl, fair, reports, noted, course⟩ := poll_of_round steady all course ran
    rw [reports] at enough
    exact ⟨p, [], congrArg _ reports, noted, course, .single fair enough⟩
  | @again retries request targets w w₁ w₂ w' r next ran _ short drawn _ ih =>
    subst asked
    obtain ⟨p, rfl, fair, reports, noted, course⟩ := poll_of_round steady all course ran
    rw [reports] at short
    cases drawn
    obtain ⟨last, earlier, polled⟩ := ih rfl course.newId
    exact ⟨last, earlier ++ [p], polled.after noted fair short⟩

end

/-- How a request for infos ends, and the rounds that it took, newest first: without any if there is
nobody else, and otherwise with what the last of them counted. -/
inductive Outcome (settings : SyncSettings) (others : List NodeId) :
    Except SyncError (List Report) → List Poll → Prop where
  | nobody (nobody : others = []) : Outcome settings others (.error .noActivePeers) []
  | reported {last : Poll} {earlier : List Poll} (some_other : others ≠ [])
      (regular : Regular settings others settings.maxFetchRetries.toNat last earlier) :
      Outcome settings others (.ok last.reports) (last :: earlier)

/-- **One report of each peer that was asked.** Whatever the peers say and under whatever names, a
request for infos ends. Nothing is noted but its rounds, each under an id of its own, and with
others to ask it returns the reports of the last round, which are of different peers that were asked
in it; only with nobody else there is it refused. -/
theorem fetchInfos_polled (self : NodeId) (start : UInt64) (size : UInt32)
    (steady : Steady net (settings.maxFetchRetries.toNat + 1) w.peers)
    (some_width : 1 ≤ settings.fanoutWidth.toNat) :
    ∃ r w' polls, (fetchInfos self settings start size).run net w = (some r, w') ∧
      w'.events = polls.map (Poll.event settings start size) ++ w.events ∧
      (polls.map Poll.id).Nodup ∧
      Outcome settings ((net.members w.peers).filter (· ≠ self)) r polls := by
  have course : Course net w.peers [(net.newId w.peers).1] (net.newId w.peers).2 :=
    Course.start.newId
  obtain ⟨r, w', ran, went⟩ := (askInfos_rounds settings.maxFetchRetries.toNat
    (infoRequest settings (Command.newId.exec net w).1 start size) (Command.newId.exec net w).2).run
  by_cases nobody : (net.members w.peers).filter (· ≠ self) = []
  · obtain ⟨rfl, events⟩ := went.nobody_asked steady rfl nobody course
    exact ⟨_, w', [], ran, events, List.nodup_nil, .nobody nobody⟩
  · obtain ⟨last, earlier, polled⟩ := went.polled steady rfl nobody some_width rfl course
    have used := polled.course
    rw [List.append_nil] at used
    have few : ((last :: earlier).map Poll.id).length ≤ settings.maxFetchRetries.toNat + 1 := by
      simpa using polled.regular.few
    refine ⟨r, w', last :: earlier, ran, polled.events, steady.nodup used few, ?_⟩
    rw [polled.ended]
    exact .reported nobody polled.regular

/-- Two peers that both bear the node's own name in their replies, and have nothing to tell until
asked a second time. -/
def impostors : Network Nat where
  members _ := ["first", "self", "second"]
  shuffle nodes n := (nodes.reverse, n)
  newId n := (.numbered n, n + 1)
  latency _ _ _ := 0
  handle
    | _, .infoRequest q, n =>
      (.ok (.infos ⟨q.start, if n ≤ 1 then [] else [Block.genesis.info], 1, true, "self"⟩), n)
    | id, _, n => (.error (.peerRequest id "no answer"), n)
  broadcast _ _ n := (.ok (), n)
  meanwhile node n := (node, n)

theorem Course.counted {ids : List RequestId} {n : Nat} (course : Course impostors 0 ids n) :
    ids.length = n ∧ ∀ id ∈ ids, ∃ k < n, id = .numbered k := by
  induction course with
  | start => exact ⟨rfl, nofun⟩
  | @newId ids n before ih =>
    obtain ⟨length, numbered⟩ := ih
    refine ⟨congrArg (· + 1) length, List.forall_mem_cons.mpr ⟨⟨n, Nat.lt_succ_self n, rfl⟩, ?_⟩⟩
    intro id hid
    obtain ⟨k, below, same⟩ := numbered id hid
    exact ⟨k, Nat.lt_succ_of_lt below, same⟩
  | shuffle _ _ ih => exact ih
  | handle _ target m ih => cases m <;> exact ih

theorem steady_impostors : Steady impostors 2 0 where
  distinct := by decide
  fixed _ := rfl
  shuffled _ nodes := List.reverse_perm nodes
  fresh course few used := by
    obtain ⟨length, numbered⟩ := course.counted
    obtain ⟨k, below, same⟩ := numbered _ used
    have room : 2 < UInt64.size := by decide
    have again := RequestId.numbered_inj (by omega) (by omega) same
    omega

theorem fetchInfos_polled_impostors :
    let node := Node.new "self" .testing .testing 50 (.ofChain .new) 0
    let w : World Nat := ⟨node, 0, []⟩
    Steady impostors 2 w.peers ∧ 1 ≤ SyncSettings.testing.fanoutWidth.toNat ∧
      ∃ r w' polls, (fetchInfos "self" .testing 1 1).run impostors w = (some r, w') ∧
        w'.events = polls.map (Poll.event .testing 1 1) ++ w.events ∧
        (polls.map Poll.id).Nodup ∧ Outcome .testing ["first", "second"] r polls := by
  intro node w
  have some_width : 1 ≤ SyncSettings.testing.fanoutWidth.toNat := by decide
  exact ⟨steady_impostors, some_width,
    fetchInfos_polled "self" 1 1 steady_impostors some_width⟩

end ChainNode.Reconcile
