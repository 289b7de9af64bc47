import ChainNode.Proofs.Fanout
import ChainNode.Proofs.Node.Asks
import ChainNode.Proofs.Node.Ensures
import ChainNode.Proofs.Node.Run
import ChainNode.Reconcile.Ask

/-!
# What asking can bring home

Whatever peers do, a request for infos or blocks ends after the rounds it is allowed. Downloaded
blocks are those of a first part of the list that was asked for, each at its position and correctly
named, and since a block is used once no two of them carry one hash.

* `fetchInfos_asks`, `fetchBlocks_asks`: what holds of the outcome against any network.
* `Rounds`, `askInfos_rounds`: how a request goes on from round to round.
* `fetchInfos_inquired`: the rounds of a request, the last of which is the outcome.
* `fetchBlocks_ends`: a download asks one round at most and returns what is picked from the replies.
* `fetchInfos_noted`, `fetchBlocks_noted`: where the outcome comes from.
* `picked_pickBlocks`: the choice among the blocks that came.
-/
namespace ChainNode.Reconcile

open Program

theorem askers_asks (self : NodeId) (request : BatchRequest) :
    (askers self request).Asks fun r => ∃ ids, r = .ok ids := by
  unfold askers
  cases request.selected with
  | none => exact ⟨trivial, fun _ => ⟨trivial, fun _ => ⟨_, rfl⟩⟩⟩
  | some ids => exact ⟨trivial, fun _ => ⟨_, rfl⟩⟩

theorem askInfos_asks (self : NodeId) (settings : SyncSettings) :
    ∀ (retries : Nat) (request : BatchRequest),
      (askInfos self settings retries request).Asks fun r => ∀ e, r = .error e → e = .noActivePeers
  | retries, request => by
    unfold askInfos
    refine (askers_asks self request).bind ?_ (by rintro e ⟨ids, h⟩; cases h)
    intro targets _
    split
    · intro e failed
      cases failed
      rfl
    · refine ⟨trivial, fun reports => ?_⟩
      simp only [bind_eq, Program.bind]
      split
      · intro e failed
        cases failed
      · cases retries with
        | zero =>
          intro e failed
          cases failed
        | succ retries => exact ⟨trivial, fun id => askInfos_asks self settings retries _⟩

theorem fetchInfos_asks (self : NodeId) (settings : SyncSettings) (start : UInt64)
    (size : UInt32) :
    (fetchInfos self settings start size).Asks fun r => ∀ e, r = .error e → e = .noActivePeers :=
  ⟨trivial, fun _ => askInfos_asks self settings _ _⟩

/-- A round in which peers were asked for the infos of a range. -/
inductive RoundOn (start : UInt64) (size : UInt32) : Event → Prop where
  | asked {request : BatchRequest} {targets : List NodeId} {replies : List (NodeId × Message)}
      {elapsed : Nat} (from_start : request.start = start) (of_size : request.size = size)
      (some_target : targets ≠ []) :
      RoundOn start size (.asked (targets.map fun t => (t, .infoRequest request)) replies elapsed)

/-- The reports in what came back in a round. -/
def reportsOf : Event → List Report
  | .asked _ replies _ => World.understood readInfos replies
  | .saved _ => []
  | .announced _ _ => []

/-- What rounds have come to, the newest of them standing first: its reports count, unless in the
end there was nobody to ask. -/
def Collected (rounds : List Event) : Except SyncError (List Report) → Prop
  | .ok reports => ∃ last earlier, rounds = last :: earlier ∧ reports = reportsOf last
  | .error e => e = .noActivePeers

section

variable {σ : Type} {net : Network σ} {self : NodeId} {settings : SyncSettings}

/-- The round that puts a request for infos to peers. -/
def infoRound (settings : SyncSettings) (request : BatchRequest) (targets : List NodeId) :
    Round Report :=
  ⟨settings.requestTimeoutMs, targets.map fun t => (t, .infoRequest request), readInfos⟩

theorem map_fst_calls (settings : SyncSettings) (request : BatchRequest) (targets : List NodeId) :
    (infoRound settings request targets).calls.map Prod.fst = targets := by
  rw [infoRound, List.map_map]
  exact List.map_id targets

/-- How a request goes on from round to round: there is nobody to ask, the round brings enough or is
the last, or it brings too little and the request is put again under another id. -/
inductive Rounds (net : Network σ) (self : NodeId) (settings : SyncSettings) :
    Nat → BatchRequest → World σ → Except SyncError (List Report) → World σ → Prop where
  | nobody {retries : Nat} {request : BatchRequest} {w w₁ : World σ}
      (chosen : (askers self request).run net w = (some (.ok []), w₁)) :
      Rounds net self settings retries request w (.error .noActivePeers) w₁
  | last {retries : Nat} {request : BatchRequest} {targets : List NodeId} {w w₁ : World σ}
      (chosen : (askers self request).run net w = (some (.ok targets), w₁))
      (some_target : targets ≠ [])
      (enough : 0 < retries →
        settings.minInformative ≤ informative (w₁.round net (infoRound settings request targets)).1) :
      Rounds net self settings retries request w
        (.ok (w₁.round net (infoRound settings request targets)).1)
        (w₁.round net (infoRound settings request targets)).2
  | again {retries : Nat} {request : BatchRequest} {targets : List NodeId} {w w₁ w₂ w' : World σ}
      {r : Except SyncError (List Report)} {id : RequestId}
      (chosen : (askers self request).run net w = (some (.ok targets), w₁))
      (some_target : targets ≠ [])
      (short : informative (w₁.round net (infoRound settings request targets)).1 <
        settings.minInformative)
      (drawn : Command.newId.exec net (w₁.round net (infoRound settings request targets)).2 =
        (id, w₂))
      (more : Rounds net self settings retries (request.retried id) w₂ r w') :
      Rounds net self settings (retries + 1) request w r w'

theorem askers_run (net : Network σ) (self : NodeId) (request : BatchRequest) (w : World σ) :
    ∃ targets w', (askers self request).run net w = (some (.ok targets), w') ∧
      w'.events = w.events ∧ w'.node = w.node := by
  unfold askers
  cases request.selected with
  | none => exact ⟨_, _, rfl, rfl, rfl⟩
  | some ids => exact ⟨_, _, rfl, rfl, rfl⟩

theorem askers_kept {request : BatchRequest} {w w₁ : World σ}
    {r : Option (Except SyncError (List NodeId))}
    (chosen : (askers self request).run net w = (r, w₁)) :
    w₁.events = w.events ∧ w₁.node = w.node := by
  obtain ⟨targets, w', ran, kept⟩ := askers_run net self request w
  cases chosen.symm.trans ran
  exact kept

/-- By induction on the retries. -/
theorem askInfos_rounds : ∀ (retries : Nat) (request : BatchRequest) (w : World σ),
    Ensures net (Rounds net self settings retries request w)
      (askInfos self settings retries request) w
  | retries, request, w => by
    obtain ⟨targets, w₁, chosen, -⟩ := askers_run net self request w
    unfold askInfos
    refine Ensures.of_run_bind chosen ?_
    split
    · rename_i none
      rw [List.isEmpty_iff.mp none] at chosen
      exact .nobody chosen
    · rename_i some_target
      have some_target : targets ≠ [] := by simpa using some_target
      refine Ensures.of_run_bind
        (run_command net (.round (infoRound settings request targets)) w₁) ?_
      split
      · rename_i enough
        exact .last chosen some_target fun _ => enough
      · rename_i short
        cases retries with
        | zero => exact .last chosen some_target nofun
        | succ retries =>
          refine Ensures.mono ?_ (askInfos_rounds retries _ _)
          intro r w' more
          exact .again chosen some_target (Nat.lt_of_not_le short) rfl more

/-- What becomes of a world in which a range is asked for, in at most so many rounds. -/
structure Inquired (start : UInt64) (size : UInt32) (limit : Nat) (w : World σ)
    (r : Except SyncError (List Report)) (w' : World σ) (rounds : List Event) : Prop where
  node : w'.node = w.node
  events : w'.events = rounds ++ w.events
  asked : ∀ e ∈ rounds, RoundOn start size e
  few : rounds.length ≤ limit
  collected : Collected rounds r

/-- Nobody is there to ask. -/
theorem Inquired.nobody {start : UInt64} {size : UInt32} {limit : Nat} {w w' : World σ}
    (node : w'.node = w.node) (events : w'.events = w.events) :
    Inquired start size limit w (.error .noActivePeers) w' [] :=
  ⟨node, events, nofun, Nat.zero_le _, rfl⟩

/-- More rounds after a first one. -/
theorem Inquired.after {start : UInt64} {size : UInt32} {limit : Nat} {w w₁ w' : World σ}
    {r : Except SyncError (List Report)} {rounds : List Event} {first : Event}
    (more : Inquired start size limit w₁ r w' rounds) (node : w₁.node = w.node)
    (events : w₁.events = first :: w.events) (asked : RoundOn start size first) :
    Inquired start size (limit + 1) w r w' (rounds ++ [first]) where
  node := more.node.trans node
  events := by rw [more.events, events, List.append_assoc, List.singleton_append]
  asked := List.forall_mem_append.mpr ⟨more.asked, List.forall_mem_singleton.mpr asked⟩
  few := by simpa using more.few
  collected := by
    have collected := more.collected
    cases r with
    | error e => exact collected
    | ok reports =>
      obtain ⟨last, earlier, rfl, same⟩ := collected
      exact ⟨last, earlier ++ [first], rfl, same⟩

theorem infoRound_noted (net : Network σ) (settings : SyncSettings) (request : BatchRequest)
    {targets : List NodeId} (some_target : targets ≠ []) (w : World σ) :
    ∃ e, RoundOn request.start request.size e ∧
      (w.round net (infoRound settings request targets)).2.events = e :: w.events ∧
      (w.round net (infoRound settings request targets)).1 = reportsOf e := by
  obtain ⟨replies, elapsed, noted, -, understood⟩ :=
    World.round_noted net (infoRound settings request targets) w
  exact ⟨_, .asked rfl rfl some_target, noted, understood⟩

/-- By induction on the rounds: what is returned comes from the last one. -/
theorem Rounds.inquired {retries : Nat} {request : BatchRequest} {w w' : World σ}
    {r : Except SyncError (List Report)} (went : Rounds net self settings retries request w r w') :
    ∃ rounds, Inquired request.start request.size (retries + 1) w r w' rounds := by
  induction went with
  | nobody chosen =>
    obtain ⟨events, node⟩ := askers_kept chosen
    exact ⟨[], .nobody node events⟩
  | @last retries request targets w w₁ chosen some_target enough =>
    obtain ⟨events, node⟩ := askers_kept chosen
    obtain ⟨e, asked, noted, collected⟩ := infoRound_noted net settings request some_target w₁
    exact ⟨[e], node, noted.trans (congrArg _ events), List.forall_mem_singleton.mpr asked, by simp,
      e, [], rfl, collected⟩
  | @again retries request targets w w₁ w₂ w' r id chosen some_target short drawn more ih =>
    obtain ⟨events, node⟩ := askers_kept chosen
    obtain ⟨e, asked, noted, -⟩ := infoRound_noted net settings request some_target w₁
    cases drawn
    obtain ⟨rounds, inquired⟩ := ih
    exact ⟨rounds ++ [e], inquired.after node (noted.trans (congrArg _ events)) asked⟩

theorem fetchInfos_inquired (start : UInt64) (size : UInt32) (w : World σ) :
    Ensures net (fun r w' => ∃ rounds,
        Inquired start size (settings.maxFetchRetries.toNat + 1) w r w' rounds)
      (fetchInfos self settings start size) w := by
  refine Ensures.mono ?_ (askInfos_rounds settings.maxFetchRetries.toNat
    (infoRequest settings (Command.newId.exec net w).1 start size) (Command.newId.exec net w).2)
  intro r w' went
  obtain ⟨rounds, inquired⟩ := went.inquired
  exact ⟨rounds, inquired.node, inquired.events, inquired.asked, inquired.few, inquired.collected⟩

/-- Reports that are what is understood of a round that asked for a range, with what was noted when
it was over. -/
inductive Asked (start : UInt64) (size : UInt32) (earlier : List Event) :
    List Report → List Event → Prop where
  | round {request : BatchRequest} {targets : List NodeId} {replies : List (NodeId × Message)}
      {elapsed : Nat} {before : List Event} (from_start : request.start = start)
      (of_size : request.size = size) (some_target : targets ≠ []) (later : earlier <:+ before) :
      Asked start size earlier (World.understood readInfos replies)
        (.asked (targets.map fun t => (t, .infoRequest request)) replies elapsed :: before)

theorem fetchInfos_noted {start : UInt64} {size : UInt32} {w w' : World σ} {reports : List Report}
    (ran : (fetchInfos self settings start size).run net w = (some (.ok reports), w')) :
    Asked start size w.events reports w'.events := by
  obtain ⟨r, w'', ran', rounds, inquired⟩ := (fetchInfos_inquired start size w).run
  cases ran.symm.trans ran'
  obtain ⟨last, earlier, rfl, rfl⟩ := inquired.collected
  rw [inquired.events]
  cases inquired.asked last List.mem_cons_self with
  | asked from_start of_size some_target =>
    exact .round from_start of_size some_target (List.suffix_append ..)

end

/-! ## Blocks -/

/-- Blocks that were downloaded for a list of infos. -/
structure Picked (infos : List BlockInfo) (bs : List Block) : Prop where
  listed : bs.map Block.info <+: infos
  correct : ∀ b ∈ bs, b.isCorrect = true
  distinct : (bs.map Block.hash).Nodup

theorem Picked.nil (infos : List BlockInfo) : Picked infos [] :=
  ⟨by simp, nofun, List.nodup_nil⟩

theorem mem_of_mem_pickBlocks {infos : List BlockInfo} {found : List Block} {b : Block}
    (h : b ∈ pickBlocks infos found) : b ∈ found := by
  induction infos generalizing found with
  | nil => simp [pickBlocks] at h
  | cons i is ih =>
    unfold pickBlocks at h
    split at h
    · cases h
    · rename_i picked hfind
      split at h
      · rcases List.mem_cons.mp h with rfl | h
        · exact List.mem_of_find?_eq_some hfind
        · exact (List.mem_filter.mp (ih h)).1
      · cases h

theorem picked_pickBlocks {infos : List BlockInfo} {found : List Block}
    (correct : ∀ b ∈ found, b.isCorrect = true) : Picked infos (pickBlocks infos found) := by
  induction infos generalizing found with
  | nil => exact Picked.nil _
  | cons i is ih =>
    unfold pickBlocks
    split
    · exact Picked.nil _
    · rename_i b hfind
      split
      · rename_i position
        have hash : b.hash = i.hash := by simpa using List.find?_some hfind
        have rest : Picked is (pickBlocks is (found.filter (·.hash ≠ i.hash))) :=
          ih fun b' h => correct b' (List.mem_filter.mp h).1
        refine ⟨?_, ?_, ?_⟩
        · have info : b.info = i := by rw [Block.info, position, hash]
          rw [List.map_cons, info]
          exact List.prefix_cons_inj i |>.mpr rest.listed
        · intro b' h
          rcases List.mem_cons.mp h with rfl | h
          · exact correct _ (List.mem_of_find?_eq_some hfind)
          · exact rest.correct b' h
        · refine List.nodup_cons.mpr ⟨?_, rest.distinct⟩
          intro again
          obtain ⟨b', h, e⟩ := List.mem_map.mp again
          have other := (List.mem_filter.mp (mem_of_mem_pickBlocks h)).2
          simp [e, hash] at other
      · exact Picked.nil _

theorem fetchBlocks_asks (self : NodeId) (settings : SyncSettings) (infos : List BlockInfo)
    (nodes : List NodeId) :
    (fetchBlocks self settings infos nodes).Asks fun r => ∀ bs, r = .ok bs → Picked infos bs := by
  unfold fetchBlocks
  cases infos with
  | nil =>
    intro bs h
    cases h
    exact Picked.nil _
  | cons first rest =>
    refine ⟨trivial, fun id => ?_⟩
    refine (askers_asks self _).bind ?_ (by rintro e ⟨ids, h⟩; cases h)
    intro targets _
    split
    · exact nofun
    · refine ⟨trivial, fun replies bs h => ?_⟩
      cases h
      exact picked_pickBlocks fun b hb => (List.mem_filter.mp hb).2

theorem fetchBlocks_fails (self : NodeId) (settings : SyncSettings) (infos : List BlockInfo)
    (nodes : List NodeId) :
    (fetchBlocks self settings infos nodes).Asks fun r =>
      ∀ e, r = .error e → e = .noActivePeers := by
  unfold fetchBlocks
  cases infos with
  | nil => exact nofun
  | cons first rest =>
    refine ⟨trivial, fun id => ?_⟩
    refine (askers_asks self _).bind ?_ (by rintro e ⟨ids, h⟩; cases h)
    intro targets _
    split
    · intro e failed
      cases failed
      rfl
    · exact ⟨trivial, fun replies => nofun⟩

/-- The blocks that come with replies. -/
def offered (replies : List (NodeId × Message)) : List Block :=
  (World.understood readBlocks replies).flatten

/-- What a download returns that has collected these replies. -/
def downloaded (infos : List BlockInfo) (replies : List (NodeId × Message)) : List Block :=
  pickBlocks infos ((offered replies).filter Block.isCorrect)

theorem mem_offered {replies : List (NodeId × Message)} {b : Block} :
    b ∈ offered replies ↔ ∃ id reply, (id, .blocks reply) ∈ replies ∧ b ∈ reply.entities := by
  rw [offered, List.mem_flatten]
  constructor
  · rintro ⟨bs, hbs, hb⟩
    obtain ⟨⟨id, m⟩, given, read⟩ := World.mem_understood.mp hbs
    cases m with
    | blocks reply =>
      cases read
      exact ⟨id, reply, given, hb⟩
    | infoRequest | infos | blockRequest | freshBlock => cases read
  · rintro ⟨id, reply, given, hb⟩
    exact ⟨reply.entities, World.mem_understood.mpr ⟨_, given, rfl⟩, hb⟩

/-- How a download ends: with nothing to do, with nobody to ask, or after one round, with the
replies that counted. -/
inductive Download {σ : Type} (net : Network σ) (infos : List BlockInfo) (earlier : List Event) :
    Except SyncError (List Block) → List Event → Prop where
  | nothing (none : infos = []) : Download net infos earlier (.ok []) earlier
  | nobody : Download net infos earlier (.error .noActivePeers) earlier
  | collected {calls replies : List (NodeId × Message)} {elapsed : Nat}
      (given : ∀ reply ∈ replies, ∃ m s, (reply.1, m) ∈ calls ∧
        (net.handle reply.1 m s).1 = .ok reply.2) :
      Download net infos earlier (.ok (downloaded infos replies))
        (.asked calls replies elapsed :: earlier)

theorem fetchBlocks_ends {σ : Type} (net : Network σ) (self : NodeId) (settings : SyncSettings)
    (infos : List BlockInfo) (nodes : List NodeId) (w : World σ) :
    Ensures net (fun r w' => Download net infos w.events r w'.events)
      (fetchBlocks self settings infos nodes) w := by
  unfold fetchBlocks
  cases infos with
  | nil => exact .nothing rfl
  | cons first rest =>
    let request := blockRequest (Command.newId.exec net w).1 first.position (first :: rest) nodes
    obtain ⟨targets, w₁, chosen, unchanged, -⟩ :=
      askers_run net self request (Command.newId.exec net w).2
    have unchanged : w₁.events = w.events := unchanged
    refine Ensures.of_run_bind (run_command net Command.newId w) ?_
    refine Ensures.of_run_bind chosen ?_
    split
    · show Download _ _ _ _ w₁.events
      rw [unchanged]
      exact .nobody
    · let r : Round (List Block) :=
        ⟨settings.requestTimeoutMs, targets.map fun t => (t, .blockRequest request), readBlocks⟩
      obtain ⟨replies, elapsed, noted, given, understood⟩ := World.round_noted net r w₁
      show Download _ _ _ (.ok (pickBlocks _ ((w₁.round net r).1.flatten.filter Block.isCorrect)))
        (w₁.round net r).2.events
      rw [noted, understood, unchanged]
      exact .collected given

/-- A block that came with a reply which was noted between two moments. -/
def Downloaded (earlier events : List Event) (b : Block) : Prop :=
  ∃ new calls replies elapsed id reply, events = new ++ earlier ∧
    .asked calls replies elapsed ∈ new ∧ (id, .blocks reply) ∈ replies ∧ b ∈ reply.entities

theorem Downloaded.mono {earlier earlier' events events' : List Event} {b : Block}
    (h : Downloaded earlier events b) (before : earlier' <:+ earlier) (after : events <:+ events') :
    Downloaded earlier' events' b := by
  obtain ⟨new, calls, replies, elapsed, id, reply, rfl, noted, given, member⟩ := h
  obtain ⟨more, rfl⟩ := after
  obtain ⟨old, rfl⟩ := before
  exact ⟨more ++ new ++ old, calls, replies, elapsed, id, reply, by simp, by simp [noted], given,
    member⟩

section

variable {σ : Type} {net : Network σ} {self : NodeId} {settings : SyncSettings}
  {infos : List BlockInfo} {nodes : List NodeId} {w w' : World σ} {bs : List Block}

/-- A downloaded block is one of a noted reply, which is what a peer said to some request. -/
theorem fetchBlocks_noted
    (ran : (fetchBlocks self settings infos nodes).run net w = (some (.ok bs), w')) :
    ∀ b ∈ bs, Downloaded w.events w'.events b ∧
      ∃ id m s reply, (net.handle id m s).1 = .ok (.blocks reply) ∧ b ∈ reply.entities := by
  obtain ⟨r, w₁, ended, ends⟩ := (fetchBlocks_ends net self settings infos nodes w).run
  rw [ran] at ended
  cases ended
  generalize w'.events = events at ends ⊢
  intro b hb
  cases ends with
  | nothing => cases hb
  | collected given =>
    obtain ⟨found, -⟩ := List.mem_filter.mp (mem_of_mem_pickBlocks hb)
    obtain ⟨id, reply, hreply, member⟩ := mem_offered.mp found
    obtain ⟨question, s, -, handled⟩ := given _ hreply
    exact ⟨⟨[_], _, _, _, id, reply, rfl, List.mem_cons_self, hreply, member⟩,
      id, question, s, reply, handled, member⟩

theorem fetchBlocks_replied
    (ran : (fetchBlocks self settings infos nodes).run net w = (some (.ok bs), w')) :
    ∀ b ∈ bs, ∃ id m s reply, (net.handle id m s).1 = .ok (.blocks reply) ∧ b ∈ reply.entities :=
  fun b hb => (fetchBlocks_noted ran b hb).2

end

end ChainNode.Reconcile
