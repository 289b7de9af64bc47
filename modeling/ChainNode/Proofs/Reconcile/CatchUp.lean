import ChainNode.Proofs.Reconcile.ApplyHonest
import ChainNode.Reconcile.CatchUp

/-!
# Catching up with honest peers

A node whose chain is a first part of that of its peers finds its head confirmed as long as it
asks, and every round in which something lies above the head adds at least one block. So it ends
with their chain after at most as many rounds as there are blocks to add, and one more. A node
whose chain reaches above that of its peers hears nothing about its head and leaves it at that.

* `fetchConfident_of_head`, `fetchConfident_succeeds`: what the peers say from the head on.
* `catchUp_succeeds`, `catchUp_above`: the two cases.
-/
namespace ChainNode

namespace Reconcile

open Program

variable {σ : Type} {net : Network σ} {node : NodeId} {settings : SyncSettings} {h : Chain}
  (p : HonestPeers net node settings h)

theorem served_batch (settings : SyncSettings) :
    settings.served settings.batchSize = settings.batchSize.toNat := by
  rw [SyncSettings.served]
  omega

/-- Honest peers confirm a head with whose info their answer begins. -/
theorem fetchConfident_of_head (width : 1 ≤ settings.fanoutWidth.toNat) {x : Chain}
    {infos : List BlockInfo}
    (answer : h.span x.head.height settings.batchSize.toNat = x.head.info :: infos)
    (ordered : Consecutive x.head.height (x.head.info :: infos))
    (top : x.at? x.head.height = some x.head) {w : World σ} (stored : w.node.store = .ofChain x) :
    Succeeds net (fun view w' => ∃ nodes, view = some ⟨nodes, x.head.info :: infos⟩ ∧ nodes ≠ [] ∧
        (∀ id ∈ nodes, id ∈ p.ids) ∧ w'.node = w.node)
      (fetchConfident node settings x.head.position settings.batchSize) w := by
  unfold fetchConfident
  refine (fetchInfos_succeeds p width _ _ w).bind ?_
  intro reports w₁ ended
  obtain ⟨unanimous, same⟩ := ended
  change Unanimous p.ids (h.span x.head.height _) reports at unanimous
  rw [served_batch, answer] at unanimous
  rw [unanimous.choose_eq ordered (List.cons_ne_nil _ _)]
  simp only [Block.position_info, ne_eq, not_true_eq_false, if_false]
  refine Ensures.of_run_bind (run_blockAt (by rw [same, stored]) _) ?_
  have found : x.at? x.head.position.toNat = some x.head := top
  simp only [found, Block.hash_info, sameHash_self, if_true]
  exact ⟨_, rfl, reports.map Report.node, rfl, unanimous.nodes_ne_nil, unanimous.mem_nodes, same⟩

/-- The head of a first part of their chain is theirs. -/
theorem fetchConfident_succeeds (width : 1 ≤ settings.fanoutWidth.toNat)
    (batch : 1 ≤ settings.batchSize.toNat) (hh : h.Valid) (genesis : h.first.height = 1)
    {x : Chain} {n : Nat} (positive : 1 ≤ n) (within : n ≤ h.blocks.length)
    (part : h.FirstPart n x) {w : World σ} (stored : w.node.store = .ofChain x) :
    Succeeds net (fun view w' => ∃ nodes,
        view = some ⟨nodes, h.span n settings.batchSize.toNat⟩ ∧ nodes ≠ [] ∧
        (∀ id ∈ nodes, id ∈ p.ids) ∧ w'.node = w.node)
      (fetchConfident node settings x.head.position settings.batchSize) w := by
  have genesis' : x.first.height = 1 := by rw [part.first, genesis]
  have long := part.length within
  have head : x.head.height = n := by
    rw [← long]
    exact (part.valid hh).height_head_eq genesis'
  obtain ⟨b, hb⟩ : ∃ b, settings.batchSize.toNat = b + 1 :=
    ⟨settings.batchSize.toNat - 1, by omega⟩
  have more : n - 1 < h.infos.length := by
    rw [Chain.length_infos]
    omega
  have same_info : x.head.info = h.infos[n - 1] := by
    have last : x.later.length = n - 1 := by
      rw [← long, Chain.length_blocks, Nat.add_sub_cancel]
    rw [← x.getElem_length_later x.length_later_lt, Chain.getElem_infos more (by omega)]
    simp only [last]
    exact (part.forks hh genesis positive within).getElem_info (by omega) (by omega) (by omega)
  have answer : h.span x.head.height settings.batchSize.toNat =
      x.head.info :: h.span (n + 1) b := by
    rw [head, hb, same_info]
    exact Chain.span_eq_cons genesis positive more b
  have ordered := hh.consecutive_span x.head.height settings.batchSize.toNat
  rw [answer] at ordered
  rw [← head, answer]
  exact fetchConfident_of_head p width answer ordered ((part.valid hh).at?_head genesis') stored

/-- Infos that count up from a position tell of something above it if there is a second one. -/
theorem goesBeyond_iff {infos : List BlockInfo} {position : UInt64}
    (ordered : Consecutive position.toNat infos) (nodes : List NodeId) :
    goesBeyond ⟨nodes, infos⟩ position = true ↔ 2 ≤ infos.length := by
  unfold goesBeyond View.lastPosition
  cases hlast : infos.getLast? with
  | none =>
    rw [List.getLast?_eq_none_iff.mp hlast]
    simp
  | some last =>
    have height := ordered.height_getLast hlast
    simp only [Option.map_some, decide_eq_true_eq, UInt64.lt_iff_toNat_lt]
    change position.toNat < last.height ↔ _
    omega

/-- A view that is a range of `h` tells of something above its start if there is anything. -/
theorem goesBeyond_span (hh : h.Valid) (genesis : h.first.height = 1) {n b : Nat} (positive : 1 ≤ n)
    (within : n ≤ h.blocks.length) (batch : 2 ≤ b) (nodes : List NodeId) {position : UInt64}
    (hposition : position.toNat = n) :
    goesBeyond ⟨nodes, h.span n b⟩ position = true ↔ n < h.blocks.length := by
  rw [goesBeyond_iff (hposition ▸ hh.consecutive_span n b), h.length_span genesis positive b]
  omega

include p in
/-- By induction on the rounds: each either adds a block or is the last. -/
theorem catchUp_succeeds (width : 1 ≤ settings.fanoutWidth.toNat)
    (batch : 2 ≤ settings.batchSize.toNat) (hh : h.Valid) (genesis : h.first.height = 1)
    {rounds : Nat} {x : Chain} {n : Nat} {w : World σ} (positive : 1 ≤ n)
    (within : n ≤ h.blocks.length) (part : h.FirstPart n x) (stored : w.node.store = .ofChain x)
    (enough : h.blocks.length - n < rounds) :
    Succeeds net (fun added w' => added = h.blocks.length - n ∧ ∃ x',
        w'.node = { w.node with store := .ofChain x' } ∧ h.FirstPart h.blocks.length x' ∧
        (n = h.blocks.length → x' = x))
      (catchUp node settings rounds) w := by
  induction rounds generalizing x n w with
  | zero => exact absurd enough (Nat.not_lt_zero _)
  | succ rounds ih =>
    have genesis' : x.first.height = 1 := by rw [part.first, genesis]
    have head : x.head.position.toNat = n := by
      rw [← part.length within]
      exact (part.valid hh).height_head_eq genesis'
    unfold catchUp
    refine Ensures.of_run_bind (run_latestBlock stored) ?_
    refine (fetchConfident_succeeds p width (by omega) hh genesis positive within part
      stored).bind ?_
    intro view w₁ ended
    obtain ⟨nodes, rfl, some_node, peers, same⟩ := ended
    have stored₁ : w₁.node.store = .ofChain x := by rw [same, stored]
    by_cases more : n < h.blocks.length
    · simp only
      rw [if_pos ((goesBeyond_span hh genesis positive within batch nodes head).mpr more)]
      refine (apply_succeeds p (by omega) stored₁ (part.forks hh genesis positive within) positive
        (by omega) (by omega) more some_node peers).bind ?_
      intro m w₂ ended
      obtain ⟨some_block, within₂, x₂, node₂, part₂⟩ := ended
      rw [if_neg (by omega)]
      refine (ih (by omega) within₂ part₂ (by rw [node₂]) (by omega)).bind ?_
      intro rest w₃ ended
      obtain ⟨rfl, x₃, node₃, part₃, -⟩ := ended
      exact ⟨_, rfl, by omega, x₃, by rw [node₃, node₂, same], part₃, by omega⟩
    · simp only
      rw [if_neg (fun beyond => more ((goesBeyond_span hh genesis positive within batch nodes
        head).mp beyond))]
      obtain rfl : n = h.blocks.length := by omega
      exact ⟨0, rfl, by rw [Nat.sub_self], x, by rw [same, ← stored], part, fun _ => rfl⟩

include p in
/-- Where the peers' answer makes no view, nobody confirms the head. -/
theorem catchUp_unseen (width : 1 ≤ settings.fanoutWidth.toNat) {x : Chain} {w : World σ}
    (unseen : ∀ reports,
      Unanimous p.ids (h.span x.head.height settings.batchSize.toNat) reports →
        choose reports = none)
    (stored : w.node.store = .ofChain x) (rounds : Nat) :
    Succeeds net (fun added w' => added = 0 ∧ w'.node = w.node)
      (catchUp node settings (rounds + 1)) w := by
  unfold catchUp
  refine Ensures.of_run_bind (run_latestBlock stored) ?_
  have silent : Succeeds net (fun view w' => view = none ∧ w'.node = w.node)
      (fetchConfident node settings x.head.position settings.batchSize) w := by
    unfold fetchConfident
    refine (fetchInfos_succeeds p width _ _ w).bind ?_
    intro reports w₁ ended
    obtain ⟨unanimous, same⟩ := ended
    rw [served_batch] at unanimous
    rw [unseen reports unanimous]
    exact ⟨none, rfl, rfl, same⟩
  refine silent.bind ?_
  intro view w₁ ended
  obtain ⟨rfl, same⟩ := ended
  exact ⟨0, rfl, rfl, same⟩

include p in
/-- Nobody confirms a head that stands above all that the peers have. -/
theorem catchUp_above (width : 1 ≤ settings.fanoutWidth.toNat) (genesis : h.first.height = 1)
    {rounds : Nat} {x : Chain} {w : World σ} (hx : x.Valid) (first : x.first = h.first)
    (above : h.blocks.length < x.blocks.length) (stored : w.node.store = .ofChain x)
    (enough : 0 < rounds) :
    Succeeds net (fun added w' => added = 0 ∧ w'.node = w.node)
      (catchUp node settings rounds) w := by
  obtain ⟨rounds, rfl⟩ : ∃ k, rounds = k + 1 := ⟨rounds - 1, by omega⟩
  have head : x.head.height = x.blocks.length := hx.height_head_eq (by rw [first, genesis])
  refine catchUp_unseen p width (fun reports unanimous => ?_) stored rounds
  rw [head, h.span_eq_nil genesis (by omega) above] at unanimous
  exact unanimous.choose_nil

end Reconcile

end ChainNode
