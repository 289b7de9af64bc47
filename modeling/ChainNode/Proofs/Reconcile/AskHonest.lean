import ChainNode.Proofs.Peer.Honest
import ChainNode.Proofs.View.Unanimous

/-!
# Asking honest peers

Every request bears an id of its own, so it is not refused, and honest peers are unanimous: every
round of info requests brings at least one report, and all reports are the requested range of their
chain, cut to what a responder gives at most. Blocks come as copies of one such range.

* `fetchInfos_succeeds`: asking for infos.
* `fetchBlocks_succeeds`: asking for blocks.
-/
namespace ChainNode.Reconcile

open Program

variable {σ : Type} {net : Network σ} {node : NodeId} {settings : SyncSettings} {h : Chain}
  (p : HonestPeers net node settings h)

include p

theorem askers_succeeds (request : BatchRequest) (width : 1 ≤ request.receivers.toNat)
    (selected : ∀ ids, request.selected = some ids → ids ≠ [] ∧ ∀ id ∈ ids, id ∈ p.ids)
    (w : World σ) :
    Succeeds net (fun targets w' => targets ≠ [] ∧ (∀ t ∈ targets, t ∈ p.ids) ∧
        w'.node = w.node ∧ ∀ id, p.Unused w.peers id → p.Unused w'.peers id)
      (askers node request) w := by
  -- the choice among candidates of whom one is a peer and all but the node are
  have choice : ∀ candidates : List NodeId, (∃ id ∈ candidates, id ≠ node) →
      (∀ id ∈ candidates, id ≠ node → id ∈ p.ids) → ∀ w : World σ,
      ((net.shuffle (candidates.filter (· ≠ node)) w.peers).1.take request.receivers.toNat) ≠ [] ∧
        ∀ t ∈ (net.shuffle (candidates.filter (· ≠ node)) w.peers).1.take request.receivers.toNat,
          t ∈ p.ids := by
    intro candidates someone peers w
    have perm := p.shuffled w.peers (candidates.filter (· ≠ node))
    constructor
    · intro empty
      obtain ⟨id, hid, other⟩ := someone
      have kept : id ∈ candidates.filter (· ≠ node) :=
        List.mem_filter.mpr ⟨hid, by simpa using other⟩
      rcases List.take_eq_nil_iff.mp empty with zero | none
      · omega
      · have shuffled := perm.mem_iff.mpr kept
        rw [none] at shuffled
        cases shuffled
    · intro t ht
      have kept := perm.mem_iff.mp (List.mem_of_mem_take ht)
      obtain ⟨candidate, other⟩ := List.mem_filter.mp kept
      exact peers t candidate (by simpa using other)
  unfold askers
  cases hsel : request.selected with
  | none =>
    obtain ⟨nonempty, peers⟩ := choice _ (p.active w.peers) (p.known w.peers) w
    exact ⟨_, rfl, nonempty, peers, rfl, p.undisturbed _ _⟩
  | some ids =>
    obtain ⟨some_id, all⟩ := selected ids hsel
    obtain ⟨id, hid⟩ := List.exists_mem_of_ne_nil _ some_id
    have other : id ≠ node := fun e => p.others (e ▸ all id hid)
    obtain ⟨nonempty, peers⟩ := choice ids ⟨id, hid, other⟩ (fun i hi _ => all i hi) w
    exact ⟨_, rfl, nonempty, peers, rfl, p.undisturbed _ _⟩

/-- A round of one message to honest peers, of whom none remembers it, when each answers it with
what is read as `value` unless it remembers it. -/
theorem round_succeeds {β : Type} {targets : List NodeId} (nonempty : targets ≠ [])
    (peers : ∀ t ∈ targets, t ∈ p.ids) {m : Message} {q : BatchRequest} {w : World σ}
    (unused : p.Unused w.peers q.id) {reply : NodeId → σ → Message}
    (handle : ∀ t ∈ p.ids, ∀ s, (net.handle t m s).1 =
      if (p.responder s t).served.contains (p.clock s) q.id then .error (.duplicateRequest q.id)
      else .ok (reply t s))
    {read : NodeId → Message → Except SyncError β} (value : NodeId → β)
    (hread : ∀ t s, read t (reply t s) = .ok (value t)) :
    Succeeds net (fun answers w' => answers ≠ [] ∧ (∀ a ∈ answers, ∃ t ∈ p.ids, a = value t) ∧
        w'.node = w.node)
      (command (.round ⟨settings.requestTimeoutMs, targets.map fun t => (t, m), read⟩) :
        Program SyncError (List β)) w := by
  let r : Round β := ⟨settings.requestTimeoutMs, targets.map fun t => (t, m), read⟩
  have asked : ∀ call ∈ r.calls, call.1 ∈ p.ids ∧ call.2 = m := by
    intro call hcall
    obtain ⟨t, ht, rfl⟩ := List.mem_map.mp hcall
    exact ⟨peers t ht, rfl⟩
  have first : ∀ call ∈ r.calls, ∃ a s, World.serve net r call w.peers = (.ok a, s) := by
    intro call hcall
    obtain ⟨t, m'⟩ := call
    obtain ⟨ht, rfl⟩ := asked _ hcall
    apply World.serve_of_handle _ (hread t w.peers)
    rw [handle t ht, unused t ht]
    rfl
  have good : ∀ call ∈ r.calls, ∀ s a s', World.serve net r call s = (.ok a, s') →
      a.1 = value call.1 := by
    intro call hcall s a s' served
    obtain ⟨t, m'⟩ := call
    obtain ⟨ht, rfl⟩ := asked _ hcall
    obtain ⟨handled, -, hgot⟩ := World.serve_eq_ok served
    rw [handle t ht] at handled
    split at handled
    · cases handled
    · rw [← Except.ok.inj handled] at hgot
      exact Except.ok.inj (hgot.symm.trans (hread t s))
  obtain ⟨answered, all⟩ := World.round_answers net r w (fun call a => a = value call.1)
    (by simpa [r] using nonempty) (fun call hcall => p.intime _ (asked call hcall).1 _ _) first good
  refine ⟨_, rfl, answered, ?_, rfl⟩
  intro a ha
  obtain ⟨call, hcall, e⟩ := all a ha
  exact ⟨call.1, (asked call hcall).1, e⟩

theorem infoRound_succeeds {targets : List NodeId} (nonempty : targets ≠ [])
    (peers : ∀ t ∈ targets, t ∈ p.ids) (request : BatchRequest) {w : World σ}
    (unused : p.Unused w.peers request.id) :
    Succeeds net (fun reports w' =>
        Unanimous p.ids (h.span request.start.toNat (settings.served request.size)) reports ∧
        w'.node = w.node)
      (command (.round ⟨settings.requestTimeoutMs, targets.map fun t => (t, .infoRequest request),
        readInfos⟩) : Program SyncError (List Report)) w := by
  refine (round_succeeds p nonempty peers unused (fun t ht s => p.handle_infos ht s request)
    (fun t => ⟨t, h.span request.start.toNat (settings.served request.size)⟩)
    (fun _ _ => rfl)).mono ?_
  intro reports w' ended
  obtain ⟨some_report, all, same⟩ := ended
  refine ⟨⟨some_report, ?_, ?_⟩, same⟩
  · intro report hreport
    obtain ⟨t, ht, rfl⟩ := all report hreport
    exact ht
  · intro report hreport
    obtain ⟨t, ht, rfl⟩ := all report hreport
    rfl

theorem blockRound_succeeds {targets : List NodeId} (nonempty : targets ≠ [])
    (peers : ∀ t ∈ targets, t ∈ p.ids) (request : BatchRequest) {w : World σ}
    (unused : p.Unused w.peers request.id) :
    Succeeds net (fun replies w' => replies ≠ [] ∧
        (∀ bs ∈ replies, bs = h.range request.start.toNat (settings.served request.size)) ∧
        w'.node = w.node)
      (command (.round ⟨settings.requestTimeoutMs, targets.map fun t => (t, .blockRequest request),
        readBlocks⟩) : Program SyncError (List (List Block))) w := by
  refine (round_succeeds p nonempty peers unused (fun t ht s => p.handle_blocks ht s request)
    (fun _ => h.range request.start.toNat (settings.served request.size))
    (fun _ _ => rfl)).mono ?_
  intro replies w' ended
  obtain ⟨some_reply, all, same⟩ := ended
  refine ⟨some_reply, ?_, same⟩
  intro bs hbs
  obtain ⟨_, _, e⟩ := all bs hbs
  exact e

/-- By induction on the retries: whichever round is the last, its reports are unanimous. -/
theorem askInfos_succeeds (retries : Nat) (request : BatchRequest)
    (width : 1 ≤ request.receivers.toNat) (unselected : request.selected = none) (w : World σ)
    (unused : p.Unused w.peers request.id) :
    Succeeds net (fun reports w' =>
        Unanimous p.ids (h.span request.start.toNat (settings.served request.size)) reports ∧
        w'.node = w.node)
      (askInfos node settings retries request) w := by
  unfold askInfos
  refine (askers_succeeds p request width (by simp [unselected]) w).bind ?_
  intro targets w₁ ended
  obtain ⟨nonempty, peers, same₁, kept⟩ := ended
  rw [if_neg (by simpa using nonempty)]
  refine (infoRound_succeeds p nonempty peers request (kept _ unused)).bind ?_
  intro reports w₂ ended
  obtain ⟨unanimous, same₂⟩ := ended
  have same := same₂.trans same₁
  split
  · exact ⟨reports, rfl, unanimous, same⟩
  · cases retries with
    | zero => exact ⟨reports, rfl, unanimous, same⟩
    | succ retries =>
      refine (askInfos_succeeds retries (request.retried (Command.newId.exec net w₂).1) width
        unselected (Command.newId.exec net w₂).2 (p.new w₂.peers)).mono ?_
      intro reports' w' ended
      obtain ⟨unanimous', same'⟩ := ended
      exact ⟨unanimous', same'.trans same⟩

theorem fetchInfos_succeeds (width : 1 ≤ settings.fanoutWidth.toNat) (start : UInt64)
    (size : UInt32) (w : World σ) :
    Succeeds net (fun reports w' =>
        Unanimous p.ids (h.span start.toNat (settings.served size)) reports ∧ w'.node = w.node)
      (fetchInfos node settings start size) w :=
  askInfos_succeeds p _ (infoRequest settings (Command.newId.exec net w).1 start size) width rfl
    (Command.newId.exec net w).2 (p.new w.peers)

/-! ## Blocks -/

omit p in
theorem pickBlocks_eq : ∀ {bs found : List Block} (more : List BlockInfo),
    (bs.map Block.hash).Nodup → (∀ b, b ∈ found ↔ b ∈ bs) →
    pickBlocks (bs.map Block.info ++ more) found = bs
  | [], found, more, _, same => by
    have nothing : found = [] := List.eq_nil_iff_forall_not_mem.mpr fun b hb => by
      cases (same b).mp hb
    cases more <;> simp [nothing, pickBlocks]
  | b :: bs, found, more, distinct, same => by
    obtain ⟨apart, rest⟩ := List.nodup_cons.mp distinct
    have is_b : ∀ b' ∈ found, b'.hash = b.hash → b' = b := fun b' hb' e =>
      List.inj_on_of_nodup_map distinct ((same b').mp hb') List.mem_cons_self e
    have first : found.find? (·.hash = b.info.hash) = some b := by
      cases hfind : found.find? (·.hash = b.info.hash) with
      | none =>
        have := List.find?_eq_none.mp hfind b ((same b).mpr List.mem_cons_self)
        simp at this
      | some b' =>
        have matched := List.find?_some hfind
        have hash : b'.hash = b.hash := of_decide_eq_true matched
        rw [is_b b' (List.mem_of_find?_eq_some hfind) hash]
    have others : ∀ b', b' ∈ found.filter (·.hash ≠ b.info.hash) ↔ b' ∈ bs := by
      intro b'
      rw [List.mem_filter, same b', List.mem_cons]
      constructor
      · intro kept
        obtain ⟨rfl | hb', ne⟩ := kept
        · simp at ne
        · exact hb'
      · intro hb'
        have ne : b'.hash ≠ b.hash := fun e => apart (e ▸ List.mem_map_of_mem hb')
        exact ⟨.inr hb', decide_eq_true ne⟩
    rw [List.map_cons, List.cons_append, pickBlocks, first]
    simp only [Block.position_info, if_true]
    exact congrArg _ (pickBlocks_eq more rest others)

omit p in
theorem mem_copies_iff (sound : h.Sound) {q m : Nat} (above : h.first.height < q)
    {replies : List (List Block)} (some_reply : replies ≠ [])
    (copies : ∀ bs ∈ replies, bs = h.range q m) (b : Block) :
    b ∈ replies.flatten.filter Block.isCorrect ↔ b ∈ h.range q m := by
  rw [List.mem_filter, List.mem_flatten]
  constructor
  · intro correct
    obtain ⟨⟨bs, hbs, hb⟩, -⟩ := correct
    rwa [← copies bs hbs]
  · intro hb
    obtain ⟨bs, hbs⟩ := List.exists_mem_of_ne_nil _ some_reply
    exact ⟨⟨bs, hbs, by rwa [copies bs hbs]⟩, sound.isCorrect_of_mem_range above b hb⟩

omit p in
theorem toNat_word32 (n : Nat) : (word32 n).toNat = min n maxWord32 := by
  unfold word32
  exact UInt32.toNat_ofNat_of_lt' (by unfold maxWord32 UInt32.size; omega)

/-- Honest peers give blocks for the first of the infos of a range, one or more. -/
theorem fetchBlocks_succeeds (sound : h.Sound) (batch : 1 ≤ settings.batchSize.toNat) {q k : Nat}
    (above : h.first.height < q) (ordered : Consecutive q (h.span q k))
    (nonempty : h.span q k ≠ [])
    {nodes : List NodeId} (some_node : nodes ≠ []) (peers : ∀ id ∈ nodes, id ∈ p.ids)
    (w : World σ) :
    Succeeds net (fun fetched w' => ∃ m, 1 ≤ m ∧ m ≤ (h.span q k).length ∧
        fetched = h.range q m ∧ w'.node = w.node)
      (fetchBlocks node settings (h.span q k) nodes) w := by
  have size := List.length_pos_iff.mpr nonempty
  have limit : 1 ≤ maxWord32 := by decide
  obtain ⟨m, hm⟩ : ∃ m, m = settings.served (word32 (h.span q k).length) := ⟨_, rfl⟩
  have bounds : 1 ≤ m ∧ m ≤ (h.span q k).length := by
    rw [hm, SyncSettings.served, toNat_word32]
    omega
  have le_k : m ≤ k := by
    have := h.length_span_le q k
    omega
  have listed : h.span q k = (h.range q m).map Block.info ++ (h.span q k).drop m := by
    rw [← Chain.span, ← h.take_span q le_k, List.take_append_drop]
  cases hspan : h.span q k with
  | nil => exact absurd hspan nonempty
  | cons first rest =>
    rw [hspan] at hm bounds listed ordered
    have start : first.position.toNat = q := ordered.height_head
    have width : 1 ≤ (word32 nodes.length).toNat := by
      have := List.length_pos_iff.mpr some_node
      rw [toNat_word32]
      omega
    let request := blockRequest (Command.newId.exec net w).1 first.position (first :: rest) nodes
    have selected : ∀ ids, request.selected = some ids → ids ≠ [] ∧ ∀ id ∈ ids, id ∈ p.ids := by
      intro ids same
      cases same
      exact ⟨some_node, peers⟩
    refine (askers_succeeds p request width selected (Command.newId.exec net w).2).bind ?_
    intro targets w₁ ended
    obtain ⟨some_target, all, same₁, kept⟩ := ended
    rw [if_neg (by simpa using some_target)]
    refine (blockRound_succeeds p some_target all request (kept _ (p.new w.peers))).bind ?_
    intro replies w₂ ended
    obtain ⟨some_reply, copies, same₂⟩ := ended
    refine ⟨_, rfl, m, bounds.1, bounds.2, ?_, same₂.trans same₁⟩
    have copy : ∀ bs ∈ replies, bs = h.range q m := by
      intro bs hbs
      rw [copies bs hbs, hm, ← start]
      rfl
    rw [listed, pickBlocks_eq _ (sound.nodup_range q m)
      (mem_copies_iff sound above some_reply copy)]

end ChainNode.Reconcile
