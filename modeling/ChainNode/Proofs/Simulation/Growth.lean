import ChainNode.Proofs.Peer.Honest
import ChainNode.Proofs.Reconcile.Extension
import ChainNode.Proofs.Simulation.Hub

/-!
# Catching up on a hub comes to an end

Peers decide how often a node that catches up looks again. Members of a hub tell of what they
store, and that does not change while one of them catches up. So a round that takes anything over
leaves the head higher than it was, but not higher than the heads of the members are, and it ends
after as many rounds as there are positions above it. The hash of a block must be spelled in one way
for that: a node that finds its head confirmed in another spelling may take over the head alone, and
perhaps again and again.

* `Tells`: what members can tell of.
* `Attempted.grows`: one round.
* `catchUp_at_last`, `catchUp_ends`: all of them.
-/
namespace ChainNode

namespace Chain

theorem info_head_mem (l : Chain) : l.head.info ∈ l.infos :=
  List.mem_map_of_mem (List.mem_of_getLast? l.getLast?_blocks)

theorem head_pushAll_mem (c : Chain) {bs : List Block} (nonempty : bs ≠ []) :
    (c.pushAll bs).head ∈ bs := by
  have last := (c.pushAll bs).getLast?_blocks
  rw [blocks_pushAll, List.getLast?_append_of_ne_nil _ nonempty] at last
  exact List.mem_of_getLast? last

end Chain

namespace Reconcile

variable {c c' : Chain} {infos : List BlockInfo}

/-- What a chain holds after a view was applied, it held before or the view tells of. -/
theorem Attempted.mem_infos {r : Except SyncError Nat} (h : Attempted c infos r c') {i : BlockInfo}
    (hi : i ∈ c'.infos) : i ∈ c.infos ∨ i ∈ infos := by
  cases h with
  | nothing | unchanged => exact .inl hi
  | @replaced lowest first rest hl pending n next above _ _ replaced =>
    have kept : ∀ {new : List Block}, new.map Block.info <+: first :: rest →
        i ∈ ((c.cut n).pushAll new).infos → i ∈ c.infos ∨ i ∈ infos := by
      intro new listed hi
      rw [Chain.infos, Chain.blocks_pushAll, List.map_append, List.mem_append] at hi
      rcases hi with old | new
      · rw [Chain.blocks_cut] at old
        exact .inl (((List.take_sublist _ _).map Block.info).subset old)
      · have told := listed.subset new
        rw [← pending] at told
        exact .inr ((List.dropWhile_sublist _).subset told)
    cases replaced with
    | unchanged => exact .inl hi
    | saved nonempty listed saved =>
      cases saved with
      | all => exact kept listed hi
      | known done split known =>
        refine kept (List.IsPrefix.trans ?_ listed) hi
        rw [split, List.map_append]
        exact List.prefix_append _ _

/-- The first info of a view is not pending if what is found at its position has the same hash. -/
theorem Overlaps.pending_above (h : Overlaps c infos) (sound : c.Sound) {b : Block}
    (found : c.at? c.head.height = some b) {lowest : BlockInfo} (hl : infos.head? = some lowest)
    (spelled : b.hash = lowest.hash) {i : BlockInfo}
    (hi : i ∈ pendingInfos (c.span lowest.height infos.length) infos) :
    c.head.height < i.height := by
  obtain ⟨others, rfl⟩ := List.head?_eq_some_iff.mp hl
  have ordered := h.consecutive
  have low : lowest.height = c.head.height := ordered.height_head
  obtain ⟨above, entry⟩ := Chain.getElem?_of_at? found
  -- the range that is read begins with that block, and its positions are distinct
  have read : c.span lowest.height (lowest :: others).length =
      b.info :: (c.span lowest.height (lowest :: others).length).tail := by
    rw [low, Chain.span, Chain.range_of_le above, List.drop_eq_getElem?_toList_append, entry]
    rfl
  have within : lowest.height + (c.span lowest.height (lowest :: others).length).length ≤
      UInt64.size := by
    have top := ordered.height_getElem (i := others.length) (by simp)
    have word := (lowest :: others)[others.length].height_lt
    have short := c.length_span_le lowest.height (lowest :: others).length
    have length : (lowest :: others).length = others.length + 1 := rfl
    omega
  have distinct := (sound.consecutive_span (low ▸ above) within).increasing.nodup_positions
  have stored : (⟨lowest.position, lowest.hash⟩ : BlockInfo) ∈
      c.span lowest.height (lowest :: others).length := by
    have same : b.info = lowest := by
      refine BlockInfo.eq_of_height_hash ?_ spelled
      rw [low, Block.height_info, sound.height_of_at? found c.head.height_lt]
    rw [read, same]
    exact List.mem_cons_self
  rw [pendingInfos, List.dropWhile_cons_of_pos (by
    rw [(hashAt_eq_some_iff distinct).mpr stored]
    exact beq_self_eq_true _)] at hi
  have later := (List.dropWhile_sublist _).subset hi
  have higher := (List.pairwise_cons.mp ordered.increasing).1 i later
  omega

/-- A round that takes something over leaves the head higher, if the view spells the hash of what is
found at its first position as the node does. -/
theorem Attempted.grows {n : Nat} (h : Attempted c infos (.ok n) c') (some_block : n ≠ 0)
    (overlaps : Overlaps c infos) (sound : c.Sound) {b : Block}
    (found : c.at? c.head.height = some b)
    (spelled : ∀ first ∈ infos.head?, b.hash = first.hash) : c.head.height < c'.head.height := by
  generalize hr : (Except.ok n : Except SyncError Nat) = r at h
  cases h with
  | nothing =>
    cases hr
    exact absurd rfl some_block
  | unchanged e => cases hr
  | @replaced lowest first rest hl pending k next above _ _ replaced =>
    cases replaced with
    | unchanged e => cases hr
    | @saved new nonempty listed r _ saved =>
      cases saved with
      | known => cases hr
      | all =>
        have head := (c.cut k).head_pushAll_mem nonempty
        have told := listed.subset (List.mem_map_of_mem head)
        rw [← pending] at told
        exact overlaps.pending_above sound found hl (spelled lowest hl) told

end Reconcile

namespace Simulation

open Program Reconcile

variable {id : NodeId} {net : Network Cluster} {c c' : Cluster} {I : BlockInfo → Prop}
  {settings : SyncSettings}

/-- All that the members store satisfies `I`. -/
def Tells (I : BlockInfo → Prop) (c : Cluster) : Prop :=
  ∀ m ∈ c.members, ∀ i ∈ m.node.store.chain.infos, I i

theorem Cluster.Served.tells (h : c.Served c') (tells : Tells I c) : Tells I c' := by
  obtain ⟨r, members⟩ := h.members
  intro m hm
  rw [members] at hm
  obtain ⟨m, hm', rfl⟩ := List.mem_map.mp hm
  exact tells m hm'

theorem Tells.of_handle (tells : Tells I c) (sound : c.Sound) {m : Message}
    {reply : BatchReply BlockInfo} (given : (c.handle id m).1 = .ok (.infos reply)) :
    ∀ i ∈ reply.entities, I i := by
  unfold Cluster.handle Cluster.answer at given
  split at given
  · cases found : c.find id with
    | none =>
      rw [found] at given
      cases given
    | some member =>
      rw [found] at given
      obtain ⟨hm, -⟩ := sound.find_eq_some_iff.mp found
      obtain ⟨chain, stored⟩ := sound.stores member hm
      have answer : (member.node.responder.handle member.node.now m (.ofChain chain)).1 =
          .ok (.infos reply) := by
        rw [← stored]
        exact given
      intro i hi
      refine tells member hm i ?_
      rw [stored]
      exact Responder.mem_of_handle_infos _ _ _ answer i hi
  · cases given

/-- What is reported in a round comes from the members. -/
theorem Tells.of_round (hub : Hub id net) {w : World Cluster} (sound : w.peers.Sound)
    (tells : Tells I w.peers) {timeout : Nat} {calls : List (NodeId × Message)} {report : Report}
    (h : report ∈ (w.round net ⟨timeout, calls, readInfos⟩).1) : ∀ i ∈ report.infos, I i := by
  obtain ⟨target, m, c, reply, served, handled, understood⟩ :=
    World.mem_round (R := fun c c' : Cluster => c.Sound → c.Served c') (fun c _ => .refl c)
      (fun h h' sound => (h sound).trans (h' ((h sound).sound sound)))
      (fun target m c sound => sound.served_by hub target m) h
  rw [hub.handle] at handled
  cases reply with
  | infos reply =>
    cases understood
    exact ((served sound).tells tells).of_handle ((served sound).sound sound) handled
  | infoRequest | blockRequest | blocks | freshBlock => cases understood

/-- The choice of whom to ask changes nothing. -/
theorem Tells.of_askers (hub : Hub id net) {self : NodeId} {request : BatchRequest}
    {w w' : World Cluster} {r : Option (Except SyncError (List NodeId))} (faultless : Faultless w)
    (tells : Tells I w.peers) (chosen : (askers self request).run net w = (r, w')) :
    Faultless w' ∧ Tells I w'.peers := by
  have asked := Quieted.run hub (Uses.of_asks writing_quiet.asks (askers_asks self request))
    faultless
  rw [chosen] at asked
  exact ⟨asked.faultless faultless, asked.peers.tells tells⟩

/-- By induction on the rounds. -/
theorem Tells.of_rounds (hub : Hub id net) {self : NodeId} {retries : Nat} {request : BatchRequest}
    {w w' : World Cluster} {r : Except SyncError (List Report)}
    (went : Rounds net self settings retries request w r w') (faultless : Faultless w)
    (tells : Tells I w.peers) :
    ∀ reports, r = .ok reports → ∀ report ∈ reports, ∀ i ∈ report.infos, I i := by
  induction went with
  | nobody chosen => exact nofun
  | last chosen _ _ =>
    obtain ⟨faultless₁, tells₁⟩ := of_askers hub faultless tells chosen
    intro reports same
    cases same
    exact fun report => tells₁.of_round hub faultless₁.peers
  | @again retries request targets w w₁ w₂ w' r id chosen _ _ drawn _ ih =>
    obtain ⟨faultless₁, tells₁⟩ := of_askers hub faultless tells chosen
    have round :=
      Quieted.exec hub (.round (infoRound settings request targets)) w₁ trivial faultless₁
    have again := round.trans (Quieted.exec hub .newId _ trivial (round.faultless faultless₁))
    cases drawn
    exact ih (again.faultless faultless₁) (again.peers.tells tells₁)

theorem Tells.of_fetchInfos (hub : Hub id net) {self : NodeId} {start : UInt64} {size : UInt32}
    {w w' : World Cluster} {reports : List Report} (faultless : Faultless w)
    (tells : Tells I w.peers)
    (ran : (fetchInfos self settings start size).run net w = (some (.ok reports), w')) :
    ∀ report ∈ reports, ∀ i ∈ report.infos, I i := by
  have drawn := Quieted.exec hub .newId w trivial faultless
  obtain ⟨r, w₁, ran₁, went⟩ := (askInfos_rounds settings.maxFetchRetries.toNat
    (infoRequest settings (Command.newId.exec net w).1 start size) (Command.newId.exec net w).2).run
  cases ran.symm.trans ran₁
  exact of_rounds hub went (drawn.faultless faultless) (drawn.peers.tells tells) reports rfl

/-- A view that confirms the head comes from the members. -/
theorem Tells.of_fetchConfident (hub : Hub id net) {self : NodeId} {start : UInt64} {size : UInt32}
    {w w' : World Cluster} {view : View} (faultless : Faultless w) (tells : Tells I w.peers)
    (ran : (fetchConfident self settings start size).run net w = (some (.ok (some view)), w')) :
    ∀ i ∈ view.infos, I i := by
  obtain ⟨r, w₁, asked, -, -⟩ := (fetchInfos_asks self settings start size).run net w
  unfold fetchConfident at ran
  rw [bind_eq, run_bind, asked] at ran
  cases r with
  | error e => cases ran
  | ok reports =>
    simp only at ran
    cases chosen : choose reports with
    | none =>
      rw [chosen] at ran
      cases ran
    | some chosen_view =>
      rw [chosen] at ran
      have told : ∀ i ∈ chosen_view.infos, I i := by
        intro i hi
        obtain ⟨report, hreport, member⟩ := mem_of_choose chosen hi
        exact of_fetchInfos hub faultless tells asked report hreport i member
      simp only at ran
      split at ran
      · cases ran
      · split at ran
        · cases ran
        · rw [bind_eq, run_bind] at ran
          generalize (Program.store _ _).run net w₁ = stored at ran
          rcases stored with ⟨_ | _ | _ | head, w₂⟩
          · cases ran
          · cases ran
          · cases ran
          · simp only at ran
            split at ran
            · cases ran
              exact told
            · cases ran

/-! ## All rounds -/

/-- A sound chain of which the members can tell. -/
structure Regular (I : BlockInfo → Prop) (l : Chain) : Prop where
  sound : l.Sound
  told : ∀ i ∈ l.infos, I i

/-- The hash of a block is spelled in one way, and no position is as high as `top`. -/
structure Plain (I : BlockInfo → Prop) (top : Nat) : Prop where
  spelled : ∀ i j, I i → I j → i.position = j.position → sameHash i.hash j.hash = true →
    i.hash = j.hash
  low : ∀ i, I i → i.height < top

/-- What is found at the position of the head is spelled in one way. -/
theorem Plain.overlap {top : Nat} (plain : Plain I top) {l : Chain} (regular : Regular I l)
    {infos : List BlockInfo} (overlaps : Overlaps l infos) (told : ∀ i ∈ infos, I i) :
    ∃ b, l.at? l.head.height = some b ∧ ∀ first ∈ infos.head?, b.hash = first.hash := by
  obtain ⟨b, found, same⟩ := overlaps.found
  refine ⟨b, found, fun first hfirst => ?_⟩
  obtain ⟨others, hinfos⟩ := List.head?_eq_some_iff.mp hfirst
  have first_height : first.height = l.head.height := by
    have ordered := overlaps.consecutive
    rw [hinfos] at ordered
    exact ordered.height_head
  have here : b.info.position = first.position := by
    refine BlockInfo.position_eq_iff.mpr ?_
    rw [first_height, Block.height_info, regular.sound.height_of_at? found l.head.height_lt]
  have stored : b.info ∈ l.infos :=
    List.mem_map_of_mem (List.mem_of_getElem? (Chain.getElem?_of_at? found).2)
  exact plain.spelled _ _ (regular.told _ stored) (told first (List.mem_of_mem_head? hfirst)) here
    (same first hfirst)

/-- Nothing goes beyond a head at the last position. -/
theorem catchUp_at_last {σ : Type} (net : Network σ) (self : NodeId) (settings : SyncSettings)
    (rounds : Nat) {w : World σ} {l : Chain} (stored : w.node.store = .ofChain l)
    (last : UInt64.size ≤ l.head.height + 1) :
    ((catchUp self settings rounds).run net w).2.node = w.node := by
  cases rounds with
  | zero => rfl
  | succ rounds =>
    obtain ⟨r, w₁, fetched, node₁, -⟩ :=
      fetchConfident_overlaps net self settings settings.batchSize stored
    have stays : ∀ view : View, goesBeyond view l.head.position = false := by
      intro view
      unfold goesBeyond
      split
      · rfl
      · rename_i p _
        have low : p.toNat < UInt64.size := p.toNat_lt
        rw [decide_eq_false_iff_not, UInt64.lt_iff_toNat_lt]
        simp only [Block.height] at last
        omega
    unfold catchUp
    rw [bind_eq, run_bind, run_latestBlock stored]
    simp only
    rw [bind_eq, run_bind, fetched]
    rcases r with _ | _ | view
    · exact node₁
    · exact node₁
    · simp only [stays view, Bool.false_eq_true, if_false]
      exact node₁

/-- By induction on the rounds, of which there are enough to go as high as the members do. -/
theorem catchUp_ends (hub : Hub id net) {top : Nat} (plain : Plain I top) (self : NodeId)
    (settings : SyncSettings) : ∀ (rounds : Nat) {w : World Cluster} {l : Chain}, Faultless w →
    Tells I w.peers → w.node.store = .ofChain l → Regular I l → top ≤ l.head.height + rounds →
    Ensures net (fun _ w' => ∃ l', w'.node.store = .ofChain l' ∧ Regular I l')
      (catchUp self settings rounds) w
  | 0, w, l, _, _, _, regular, enough => by
    have below : l.head.height < top := plain.low _ (regular.told _ l.info_head_mem)
    omega
  | rounds + 1, w, l, faultless, tells, stored, regular, enough => by
    obtain ⟨r, w₁, fetched, node₁, overlaps⟩ :=
      fetchConfident_overlaps net self settings settings.batchSize stored
    have asked := Quieted.run hub (fetchConfident_uses self settings writing_quiet.toLooking
      l.head.position settings.batchSize) faultless
    rw [fetched] at asked
    have stored₁ : w₁.node.store = .ofChain l := by rw [node₁, stored]
    unfold catchUp
    refine .of_run_bind (run_latestBlock stored) ?_
    cases r with
    | error e => exact .of_run_bind_error fetched ⟨l, stored₁, regular⟩
    | ok seen =>
      refine .of_run_bind fetched ?_
      cases seen with
      | none => exact ⟨l, stored₁, regular⟩
      | some view =>
        simp only
        split
        · have overlaps := overlaps view rfl
          have faultless₁ := asked.faultless faultless
          have tells₁ := asked.peers.tells tells
          have told := tells.of_fetchConfident hub faultless fetched
          obtain ⟨r, w₂, applied_run, l', node₂, sound', attempted⟩ :=
            (apply_attempted net self settings view stored₁ regular.sound).run
          have written := Quieted.run hub (apply_uses self settings writing_quiet view) faultless₁
          rw [applied_run] at written
          have stored₂ : w₂.node.store = .ofChain l' := by rw [node₂]
          have regular' : Regular I l' :=
            ⟨sound', fun i hi => (attempted.mem_infos hi).elim (regular.told i) (told i)⟩
          cases r with
          | error e => exact .of_run_bind_error applied_run ⟨l', stored₂, regular'⟩
          | ok n =>
            refine .of_run_bind applied_run ?_
            split
            · exact ⟨l', stored₂, regular'⟩
            · rename_i some_block
              obtain ⟨b, found, spelled⟩ := plain.overlap regular overlaps told
              have higher := attempted.grows some_block overlaps regular.sound found spelled
              have rest := catchUp_ends hub plain self settings rounds
                (written.faultless faultless₁) (written.peers.tells tells₁) stored₂ regular'
                (by omega)
              exact rest.bind (fun _ _ ended => ended) (fun _ _ ended => ended)
        · exact ⟨l, stored₁, regular⟩

end Simulation

end ChainNode
