import ChainNode.Proofs.Node.Settings
import ChainNode.Proofs.Peer.Solo
import ChainNode.Proofs.Reconcile.CatchUp

/-!
# How far catching up gets

The node's blocks are the first ones of its peers' chain, wherever that chain starts. In each round
the node asks for a batch that begins with its own head, which the peers confirm, and takes over
what else the batch holds. Three things can keep a round from going on: a batch of one block holds
the head and nothing else; a block at position 1 is never taken over, not even on top of a block at
position 0; and a batch that passes the last position has a gap, so that it makes no view, as has
nothing that begins below the first position of the peers' chain.

* `Chain.Lacks`: the peers' chain is the node's with some blocks on top.
* `takeOver_head`, `apply_run_head`, `apply_head`, `catchUp_round`: one round, block by block.
* `catchUp_idle`, `catchUp_diverges`, `catchUp_arrives`: how all the rounds end.
* `catchUp_stops`, `catchUp_passed`: how they end if the peers' chain passes the last position.
* `CaughtUp`: these ends together.
* `catchUp_arrives_unless_stuck`: which of these it is under settings that are accepted.
-/
namespace ChainNode

namespace Chain

variable {x h : Chain} {rest : List Block}

theorem saveAll_eq_pushAll {bs : List Block} {c c' : Chain} (ok : saveAll bs c = .ok c') :
    c' = c.pushAll bs := by
  induction bs generalizing c with
  | nil =>
    cases ok
    rfl
  | cons b bs ih =>
    unfold saveAll at ok
    cases saved : c.save b with
    | error e =>
      rw [saved] at ok
      cases ok
    | ok d =>
      rw [saved] at ok
      obtain ⟨-, -, rfl⟩ := save_eq_ok_iff.mp saved
      exact ih ok

theorem pushAll_append (bs later : List Block) (c : Chain) :
    c.pushAll (bs ++ later) = (c.pushAll bs).pushAll later :=
  List.foldl_append

theorem length_later_pushAll (bs : List Block) (c : Chain) :
    (c.pushAll bs).later.length = c.later.length + bs.length := by
  have total := congrArg List.length (c.blocks_pushAll bs)
  rw [List.length_append, length_blocks, length_blocks] at total
  omega

theorem Valid.height_head_pushAll {bs : List Block} (hx : x.Valid) (valid : (x.pushAll bs).Valid) :
    (x.pushAll bs).head.height = x.head.height + bs.length := by
  have before := hx.height_head
  have after := valid.height_head
  rw [first_pushAll, blocks_pushAll, List.length_append] at after
  omega

/-- A range that passes the last position, and is short, has a gap between position 0 and where it
began. -/
theorem Sound.isContiguous_span {c : Chain} (h : c.Sound) {p n : Nat} (above : c.first.height ≤ p)
    (low : p < UInt64.size) (passes : UInt64.size < p + (c.span p n).length)
    (short : (c.span p n).length ≤ p) : isContiguous (c.span p n) = false := by
  rw [Bool.eq_false_iff, ne_eq, isContiguous_iff]
  rintro ⟨q, run⟩
  have between : ∀ k < (c.span p n).length,
      q ≤ (p + k) % UInt64.size ∧ (p + k) % UInt64.size < q + (c.span p n).length := by
    intro k hk
    have member := run.mem_iff.mp (List.mem_map_of_mem (List.getElem_mem hk))
    rwa [h.height_getElem_span above hk, List.mem_range'_1] at member
  have start := between 0 (by omega)
  have zero := between (UInt64.size - p) (by omega)
  rw [Nat.add_zero, Nat.mod_eq_of_lt low] at start
  rw [Nat.add_sub_cancel' (Nat.le_of_lt low), Nat.mod_self] at zero
  omega

/-- `h` is `x` with the blocks `rest` on top. The positions of `x` do not pass the last one, those
of `rest` may. -/
structure Lacks (x h : Chain) (rest : List Block) : Prop where
  valid : x.Valid
  whole : h.Sound
  above : h = x.pushAll rest

/-- Two chains are built from blocks, the one from the first of those of the other. -/
theorem sound_of_prefix {held blocks : List Block} (hx : ofBlocks held = .ok x)
    (hh : ofBlocks blocks = .ok h) (part : held <+: blocks) :
    ∃ rest, x.Sound ∧ h.Sound ∧ h = x.pushAll rest := by
  cases held with
  | nil => cases hx
  | cons b bs =>
    obtain ⟨rest, rfl⟩ := part
    have start : (start b).Sound ∧ (start b).first = b := ⟨sound_start b, rfl⟩
    have keeps := Sound.preserved b
    refine ⟨rest, (keeps.saveAll start hx).1, (keeps.saveAll start hh).1, ?_⟩
    rw [saveAll_eq_pushAll hx, ← pushAll_append]
    exact saveAll_eq_pushAll hh

namespace Lacks

theorem refl (valid : x.Valid) : x.Lacks x [] := ⟨valid, valid.toSound, rfl⟩

variable (l : x.Lacks h rest)

include l

theorem first : h.first = x.first := by rw [l.above, first_pushAll]

theorem blocks : h.blocks = x.blocks ++ rest := by rw [l.above, blocks_pushAll]

theorem height_head : x.head.height = h.first.height + x.later.length := by
  have := l.valid.height_head
  rw [length_blocks, ← l.first] at this
  omega

/-- The peers' chain does not pass the last position if there are as many positions above the head
as blocks that are lacking. -/
theorem unwrapped_iff : h.Unwrapped ↔ x.head.height + rest.length < UInt64.size := by
  rw [Unwrapped, l.height_head, l.above, length_later_pushAll, first_pushAll, Nat.add_assoc]

theorem drop_blocks : h.blocks.drop x.later.length = x.head :: rest := by
  have last := List.drop_eq_getElem_cons x.length_later_lt
  rw [x.getElem_length_later x.length_later_lt, ← x.length_blocks, List.drop_length] at last
  rw [l.blocks, List.drop_append_of_le_length x.length_later_lt.le, last, List.singleton_append]

theorem range_head (n : Nat) : h.range x.head.height (n + 1) = x.head :: rest.take n := by
  rw [l.height_head, range_of_le (by omega), Nat.add_sub_cancel_left, l.drop_blocks,
    List.take_succ_cons]

theorem range_above (n : Nat) : h.range (x.head.height + 1) n = rest.take n := by
  rw [l.height_head, range_of_le (by omega), Nat.add_assoc, Nat.add_sub_cancel_left,
    ← List.drop_drop, l.drop_blocks, List.drop_one, List.tail_cons]

/-- The infos that are told when the head is asked about, followed by a number of positions. -/
theorem span_head (n : Nat) :
    h.span x.head.height (n + 1) = x.head.info :: (rest.take n).map Block.info := by
  rw [span, l.range_head, List.map_cons]

theorem length_span_head (n : Nat) :
    (h.span x.head.height (n + 1)).length = (rest.take n).length + 1 := by
  rw [l.span_head, List.length_cons, List.length_map]

theorem consecutive_head {n : Nat} (room : x.head.height + (rest.take n).length < UInt64.size) :
    Consecutive x.head.height (x.head.info :: (rest.take n).map Block.info) := by
  rw [← l.span_head]
  refine l.whole.consecutive_span (by rw [l.height_head]; omega) ?_
  rw [l.length_span_head]
  exact room

theorem at?_head : x.at? x.head.height = some x.head := by
  rw [at?, (refl l.valid).range_head 0]
  rfl

theorem linked : (x.head :: rest).IsChain Block.Follows := by
  rw [← l.drop_blocks]
  exact l.whole.linked.drop _

theorem nodup : (x.blocks.map Block.hash ++ rest.map Block.hash).Nodup := by
  rw [← List.map_append, ← l.blocks]
  exact l.whole.distinct

theorem fresh {b : Block} (hb : b ∈ rest) : b.hash ∉ x.known := fun known =>
  List.disjoint_of_nodup_append l.nodup ((l.valid.known _).mp known) (List.mem_map_of_mem hb)

/-- The lower ones of the blocks that are lacking have been saved, and have positions of their own.
-/
theorem further {done later : List Block} (split : rest = done ++ later)
    (sound : (x.pushAll done).Sound) (room : x.head.height + done.length < UInt64.size) :
    (x.pushAll done).Lacks h later where
  valid := by
    refine ⟨sound, ?_⟩
    rw [Unwrapped, first_pushAll, length_later_pushAll, ← Nat.add_assoc, ← l.first,
      ← l.height_head]
    exact room
  whole := l.whole
  above := by rw [l.above, split, pushAll_append]

end Lacks

end Chain

/-- A node with accepted settings asks somebody, and for something. -/
theorem NodeSettings.sync_of_validate {s : NodeSettings} (accepted : s.validate = .ok ()) :
    1 ≤ s.sync.fanoutWidth.toNat ∧ 1 ≤ s.sync.batchSize.toNat := by
  have positive := validate_eq_ok_iff.mp accepted
  constructor <;> refine Nat.one_le_iff_ne_zero.mpr fun zero => ?_
  · exact positive.fanoutWidth (UInt32.toNat_inj.mp zero)
  · exact positive.batchSize (UInt32.toNat_inj.mp zero)

namespace Reconcile

open Program

variable {σ : Type} {net : Network σ} {node : NodeId} {settings : SyncSettings} {x h : Chain}
  {rest : List Block} {w : World σ}

/-! ## One round -/

theorem takeOver_head (net : Network σ) (stored : w.node.store = .ofChain x)
    (l : x.Lacks h rest) {done later : List Block} (split : rest = done ++ later)
    (room : x.head.height + done.length < UInt64.size) (some_block : done ≠ []) :
    ∃ w', (takeOver (x.head.height + 1) x.head done).run net w =
        (some (.ok done.length), w') ∧
      World.Rewritten (x.pushAll done) w w' ∧ (x.pushAll done).Lacks h later := by
  have linked : (x.head :: done).IsChain Block.Follows := by
    have all := l.linked.take (done.length + 1)
    rwa [split, List.take_succ_cons, List.take_left] at all
  have distinct : (done.map Block.hash).Nodup := by
    have all := l.nodup.of_append_right
    rw [split, List.map_append] at all
    exact all.of_append_left
  have head := x.getElem_length_later x.length_later_lt
  have all := validChain_eq linked
  have next : x.head.height + 1 = x.first.height + x.later.length + 1 := by
    rw [l.height_head, l.first]
  obtain ⟨r, w', c', hrun, hw, saved, sound⟩ := takeOver_run net stored l.valid.toSound
    x.length_later_lt next distinct (by rwa [head, all])
  rw [head, all] at hrun saved
  rw [Chain.cut_of_le (Nat.le_refl _)] at saved
  cases saved with
  | all => exact ⟨w', hrun, hw, l.further split sound room⟩
  | known _ among known =>
    -- the refused block is one of the peers' chain, which repeats no hash
    exact absurd known (l.fresh (by rw [split, among]; simp))

/-- Of infos that count up from the one that is stored, all the others are pending. -/
theorem pendingInfos_head {i : BlockInfo} {infos : List BlockInfo} {p : Nat}
    (ordered : Consecutive p (i :: infos)) : pendingInfos [i] (i :: infos) = infos := by
  have here : (hashAt [i] i.position == some i.hash) = true := by simp [hashAt]
  rw [pendingInfos, List.dropWhile_cons, if_pos here]
  cases infos with
  | nil => rfl
  | cons j others =>
    have above : i.position ≠ j.position := by
      have low := ordered.height_head
      have high := ordered.height_getElem (i := 1) (by simp)
      intro same
      have := congrArg UInt64.toNat same
      change i.height = j.height at this
      simp only [List.getElem_cons_succ, List.getElem_cons_zero] at high
      omega
    exact List.dropWhile_cons_of_neg (by simp [hashAt, above])

/-- A view that begins with the node's head is applied from the position above it on. -/
theorem apply_run_head (net : Network σ) (self : NodeId) (settings : SyncSettings)
    (stored : w.node.store = .ofChain x) (valid : x.Valid) {infos : List BlockInfo}
    (some_info : infos ≠ []) (ordered : Consecutive x.head.height (x.head.info :: infos))
    (nodes : List NodeId) :
    (apply self settings ⟨nodes, x.head.info :: infos⟩).run net w =
      if x.head.height = 0 then (some (.error .divergence), w)
      else (replaceFrom self settings (x.head.height + 1) x.head infos nodes).run net w := by
  have here : x.span x.head.height (infos.length + 1) = [x.head.info] := by
    rw [(Chain.Lacks.refl valid).span_head, List.take_nil, List.map_nil]
  unfold apply
  simp only [List.length_cons]
  rw [bind_eq, run_bind, run_infosInRange stored, Block.height_info, here]
  simp only
  rw [pendingInfos_head ordered]
  cases infos with
  | nil => exact absurd rfl some_info
  | cons first others =>
    have height : first.height = x.head.height + 1 :=
      ordered.height_getElem (i := 1) (by simp)
    simp only [height]
    by_cases low : x.head.height = 0
    · rw [if_pos (by omega), if_pos low]
      rfl
    · rw [if_neg (by omega), if_neg low, Nat.add_sub_cancel, bind_eq, run_bind,
        run_blockAt stored, (Chain.Lacks.refl valid).at?_head]

/-- What a batch that begins with the head holds of the blocks above it. -/
def shown (settings : SyncSettings) (rest : List Block) : List Block :=
  rest.take (settings.batchSize.toNat - 1)

theorem shown_eq_nil_iff : shown settings rest = [] ↔ settings.batchSize.toNat ≤ 1 ∨ rest = [] := by
  rw [shown, List.take_eq_nil_iff, Nat.sub_eq_zero_iff_le]

theorem length_shown_le (settings : SyncSettings) (rest : List Block) :
    (shown settings rest).length ≤ settings.batchSize.toNat - 1 ∧
      (shown settings rest).length ≤ rest.length := by
  rw [shown, List.length_take]
  omega

section

variable (p : HonestPeers net node settings h)

include p

/-- At least one of the blocks that are lacking is taken over, if any was shown, and no more than
were shown. -/
theorem apply_head (batch : 1 ≤ settings.batchSize.toNat) (stored : w.node.store = .ofChain x)
    (l : x.Lacks h rest) (high : 1 ≤ x.head.height) (some_block : shown settings rest ≠ [])
    (room : x.head.height + (shown settings rest).length < UInt64.size)
    {nodes : List NodeId} (some_node : nodes ≠ []) (peers : ∀ id ∈ nodes, id ∈ p.ids) :
    Succeeds net (fun applied w' => ∃ done later, rest = done ++ later ∧ done ≠ [] ∧
        applied = done.length ∧ w'.node = { w.node with store := .ofChain (x.pushAll done) } ∧
        (x.pushAll done).Lacks h later)
      (apply node settings ⟨nodes, x.head.info :: (shown settings rest).map Block.info⟩) w := by
  have above : h.span (x.head.height + 1) (settings.batchSize.toNat - 1) =
      (shown settings rest).map Block.info := by
    rw [Chain.span, l.range_above, shown]
  have some_info : (shown settings rest).map Block.info ≠ [] := by
    simpa only [ne_eq, List.map_eq_nil_iff] using some_block
  refine Ensures.of_run_eq ((apply_run_head net node settings stored l.valid some_info
    (l.consecutive_head room) nodes).trans (if_neg (by omega))) ?_
  have top : h.first.height < x.head.height + 1 := by
    have := l.height_head
    omega
  have length := congrArg List.length above
  rw [List.length_map] at length
  have ordered := l.whole.consecutive_span (Nat.le_of_lt top) (n := settings.batchSize.toNat - 1)
    (by omega)
  rw [← above] at some_info ⊢
  unfold replaceFrom
  refine (fetchBlocks_succeeds p l.whole batch top ordered some_info some_node peers w).bind ?_
  intro fetched w₁ ended
  obtain ⟨m, m_pos, m_le, rfl, same⟩ := ended
  rw [l.range_above]
  have some_fetched : rest.take m ≠ [] := by
    intro nothing
    rcases List.take_eq_nil_iff.mp nothing with zero | empty
    · omega
    · exact some_block (shown_eq_nil_iff.mpr (.inr empty))
  have few := List.length_take_le m rest
  obtain ⟨w', hrun, hw, lacks⟩ := takeOver_head net (by rw [same, stored]) l
    (List.take_append_drop m rest).symm (by omega) some_fetched
  exact Ensures.of_run hrun ⟨_, rfl, rest.take m, rest.drop m, (List.take_append_drop m rest).symm,
    some_fetched, rfl, by rw [hw.node, same], lacks⟩

/-- What a round does once the head is confirmed: it ends the run if nothing is shown above the
head, and else the view is applied. -/
theorem catchUp_round {Q : Except SyncError Nat → World σ → Prop}
    (width : 1 ≤ settings.fanoutWidth.toNat) (batch : 1 ≤ settings.batchSize.toNat)
    (l : x.Lacks h rest) (room : x.head.height + (shown settings rest).length < UInt64.size)
    (stored : w.node.store = .ofChain x) {rounds : Nat}
    (hidden : shown settings rest = [] → ∀ w₁ : World σ, w₁.node = w.node → Q (.ok 0) w₁)
    (seen : shown settings rest ≠ [] → ∀ nodes ≠ [], (∀ id ∈ nodes, id ∈ p.ids) →
      ∀ w₁ : World σ, w₁.node = w.node → Ensures net Q
        ((apply node settings ⟨nodes, x.head.info :: (shown settings rest).map Block.info⟩).bind
          fun applied => if applied = 0 then pure 0 else
            (catchUp node settings rounds).bind fun more => pure (applied + more)) w₁) :
    Ensures net Q (catchUp node settings (rounds + 1)) w := by
  have answer := l.span_head (settings.batchSize.toNat - 1)
  rw [Nat.sub_add_cancel batch, ← shown] at answer
  have ordered : Consecutive x.head.position.toNat
      (x.head.info :: (shown settings rest).map Block.info) := l.consecutive_head room
  unfold catchUp
  refine Ensures.of_run_bind (run_latestBlock stored) ?_
  refine (fetchConfident_of_head p width answer ordered l.at?_head stored).bind ?_
  intro view w₁ ended
  obtain ⟨nodes, rfl, some_node, peers, same⟩ := ended
  simp only [goesBeyond_iff ordered nodes, List.length_cons, List.length_map]
  by_cases nothing : shown settings rest = []
  · rw [nothing, if_neg (by decide)]
    exact hidden nothing w₁ same
  · have some_block := List.length_pos_iff.mpr nothing
    rw [if_pos (by omega)]
    exact seen nothing nodes some_node peers w₁ same

/-! ## All rounds -/

/-- Nothing is lacking, or the batch does not reach beyond the head. -/
theorem catchUp_idle (width : 1 ≤ settings.fanoutWidth.toNat)
    (batch : 1 ≤ settings.batchSize.toNat) (l : x.Lacks h rest)
    (stored : w.node.store = .ofChain x) (hidden : shown settings rest = []) (rounds : Nat) :
    Succeeds net (fun added w' => added = 0 ∧ w'.node = w.node)
      (catchUp node settings (rounds + 1)) w := by
  have room : x.head.height + (shown settings rest).length < UInt64.size := by
    rw [hidden]
    exact x.head.height_lt
  exact catchUp_round p width batch l room stored (fun _ _ same => ⟨0, rfl, rfl, same⟩)
    fun some_block => absurd hidden some_block

/-- The first block that is lacking would stand at position 1. -/
theorem catchUp_diverges (width : 1 ≤ settings.fanoutWidth.toNat)
    (batch : 1 ≤ settings.batchSize.toNat) (l : x.Lacks h rest) (unwrapped : h.Unwrapped)
    (stored : w.node.store = .ofChain x) (some_block : shown settings rest ≠ [])
    (low : x.head.height = 0) (rounds : Nat) :
    Ensures net (fun r w' => r = .error .divergence ∧ w'.node = w.node)
      (catchUp node settings (rounds + 1)) w := by
  have few := length_shown_le settings rest
  have positions := l.unwrapped_iff.mp unwrapped
  refine catchUp_round p width batch l (by omega) stored (fun hidden => absurd hidden some_block) ?_
  intro _ nodes _ _ w₁ same
  have stored₁ : w₁.node.store = .ofChain x := by rw [same, stored]
  have some_info : (shown settings rest).map Block.info ≠ [] := by
    simpa only [ne_eq, List.map_eq_nil_iff] using some_block
  have refused := apply_run_head net node settings stored₁ l.valid some_info
    (l.consecutive_head (by rw [← shown]; omega)) nodes
  rw [if_pos low] at refused
  exact Ensures.of_run_bind_error refused ⟨rfl, same⟩

/-- By induction on the rounds: each takes over one of the blocks that are lacking, or more, as long
as there are any. -/
theorem catchUp_arrives (width : 1 ≤ settings.fanoutWidth.toNat)
    (batch : 2 ≤ settings.batchSize.toNat) (l : x.Lacks h rest) (unwrapped : h.Unwrapped)
    (high : 1 ≤ x.head.height) (stored : w.node.store = .ofChain x) {rounds : Nat}
    (enough : rest.length < rounds) :
    Succeeds net (fun added w' => added = rest.length ∧
        w'.node = { w.node with store := .ofChain h })
      (catchUp node settings rounds) w := by
  induction rounds generalizing x rest w with
  | zero => exact absurd enough (Nat.not_lt_zero _)
  | succ rounds ih =>
    have few := length_shown_le settings rest
    have positions := l.unwrapped_iff.mp unwrapped
    refine catchUp_round p width (by omega) l (by omega) stored ?_ ?_
    · intro hidden w₁ same
      obtain rfl : rest = [] := (shown_eq_nil_iff.mp hidden).resolve_left (by omega)
      have whole : h = x := l.above
      exact ⟨0, rfl, rfl, by rw [same, whole, ← stored]⟩
    · intro some_block nodes some_node peers w₁ same
      refine (apply_head p (by omega) (by rw [same, stored]) l high some_block (by omega) some_node
        peers).bind ?_
      intro applied w₂ ended
      obtain ⟨done, later, rfl, some_done, rfl, node₂, lacks⟩ := ended
      have positive := List.length_pos_iff.mpr some_done
      have higher := l.valid.height_head_pushAll lacks.valid
      rw [List.length_append] at enough
      rw [if_neg (by omega)]
      refine (ih lacks (by omega) (by rw [node₂]) (by omega)).bind ?_
      intro more w₃ ended
      obtain ⟨rfl, node₃⟩ := ended
      exact ⟨_, rfl, by rw [List.length_append], by rw [node₃, node₂, same]⟩

/-- By induction on the rounds: each takes over blocks of a batch that does not pass the last
position, or is the last. So some of the blocks that are lacking are left. -/
theorem catchUp_stops (width : 1 ≤ settings.fanoutWidth.toNat)
    (batch : 1 ≤ settings.batchSize.toNat) (l : x.Lacks h rest) (passes : ¬ h.Unwrapped)
    (high : 1 ≤ x.head.height) (stored : w.node.store = .ofChain x) {rounds : Nat}
    (enough : rest.length < rounds) :
    Succeeds net (fun added w' => ∃ done later, rest = done ++ later ∧ later ≠ [] ∧
        added = done.length ∧ w'.node = { w.node with store := .ofChain (x.pushAll done) })
      (catchUp node settings rounds) w := by
  induction rounds generalizing x rest w with
  | zero => exact absurd enough (Nat.not_lt_zero _)
  | succ rounds ih =>
    have some_rest : rest ≠ [] := by
      rintro rfl
      exact passes (l.unwrapped_iff.mpr x.head.height_lt)
    have stays : ∀ w₁ : World σ, w₁.node = w.node →
        w₁.node = { w.node with store := .ofChain (x.pushAll []) } := by
      intro w₁ same
      show w₁.node = { w.node with store := .ofChain x }
      rw [same, ← stored]
    by_cases room : x.head.height + (shown settings rest).length < UInt64.size
    · refine catchUp_round p width batch l room stored ?_ ?_
      · exact fun _ w₁ same => ⟨0, rfl, [], rest, rfl, some_rest, rfl, stays w₁ same⟩
      · intro some_block nodes some_node peers w₁ same
        refine (apply_head p batch (by rw [same, stored]) l high some_block room some_node
          peers).bind ?_
        intro applied w₂ ended
        obtain ⟨done, later, rfl, some_done, rfl, node₂, lacks⟩ := ended
        have positive := List.length_pos_iff.mpr some_done
        have higher := l.valid.height_head_pushAll lacks.valid
        rw [List.length_append] at enough
        rw [if_neg (by omega)]
        refine (ih lacks (by omega) (by rw [node₂]) (by omega)).bind ?_
        intro more w₃ ended
        obtain ⟨done', later', rfl, some_later, rfl, node₃⟩ := ended
        refine ⟨_, rfl, done ++ done', later', (List.append_assoc ..).symm, some_later,
          by rw [List.length_append], ?_⟩
        rw [node₃, node₂, same, Chain.pushAll_append]
    · -- the batch passes the last position, so what the peers tell makes no view
      refine (catchUp_unseen p width (fun reports unanimous => ?_) stored rounds).mono ?_
      · have few := length_shown_le settings rest
        have small := settings.batchSize.toNat_lt
        have words : UInt64.size = 2 ^ 64 := rfl
        have low := x.head.height_lt
        have length := l.length_span_head (settings.batchSize.toNat - 1)
        rw [Nat.sub_add_cancel batch, ← shown] at length
        have gap := l.whole.isContiguous_span (n := settings.batchSize.toNat)
          (by rw [l.height_head]; omega) low (by omega) (by omega)
        exact unanimous.choose_eq_none (by rw [gap, Bool.and_false])
      · intro added w₁ ended
        obtain ⟨rfl, same⟩ := ended
        exact ⟨[], rest, rfl, some_rest, rfl, stays w₁ same⟩

/-- Where the node has passed the last position itself, its head stands below the first position of
the peers' chain, of which they tell nothing. -/
theorem catchUp_passed (width : 1 ≤ settings.fanoutWidth.toNat) (sound : x.Sound)
    (first : h.first = x.first) (passed : ¬ x.Unwrapped) (fits : x.count < UInt64.size)
    (stored : w.node.store = .ofChain x) (rounds : Nat) :
    Succeeds net (fun added w' => added = 0 ∧ w'.node = w.node)
      (catchUp node settings (rounds + 1)) w := by
  have below : x.head.height < h.first.height := by
    have lowest := x.first.height_lt
    rw [← x.getElem_length_later x.length_later_lt, sound.height_getElem_mod, first]
    rw [Chain.Unwrapped] at passed
    rw [Chain.count, Chain.length_blocks] at fits
    rw [Nat.mod_eq_sub_mod (by omega), Nat.mod_eq_of_lt (by omega)]
    omega
  refine catchUp_unseen p width (fun reports unanimous => ?_) stored rounds
  have nothing : h.span x.head.height settings.batchSize.toNat = [] := by
    rw [Chain.span, Chain.range, if_pos below, List.map_nil]
  rw [nothing] at unanimous
  exact unanimous.choose_nil

end

/-! ## Settings that are accepted -/

/-- How catching up ends: with which result, and with which chain stored. -/
inductive CaughtUp (settings : SyncSettings) (x h : Chain) :
    Except SyncError Nat → Chain → Prop where
  | arrived (able : x.count = h.count ∨
      h.Unwrapped ∧ 2 ≤ settings.batchSize.toNat ∧ 1 ≤ x.head.height) :
      CaughtUp settings x h (.ok (h.count - x.count)) h
  | unseen (lacking : x.count < h.count)
      (hidden : settings.batchSize.toNat ≤ 1 ∨ ¬ h.Unwrapped) :
      CaughtUp settings x h (.ok 0) x
  | diverged (lacking : x.count < h.count) (unwrapped : h.Unwrapped)
      (two : 2 ≤ settings.batchSize.toNat) (low : x.head.height = 0) :
      CaughtUp settings x h (.error .divergence) x
  | stopped {done later : List Block} (passes : ¬ h.Unwrapped)
      (two : 2 ≤ settings.batchSize.toNat) (split : h.blocks = x.blocks ++ (done ++ later))
      (some_later : later ≠ []) :
      CaughtUp settings x h (.ok done.length) (x.pushAll done)

namespace CaughtUp

variable {r : Except SyncError Nat} {c : Chain}

theorem of_able (caught : CaughtUp settings x h r c)
    (able : x.count = h.count ∨
      h.Unwrapped ∧ 2 ≤ settings.batchSize.toNat ∧ 1 ≤ x.head.height) :
    r = .ok (h.count - x.count) ∧ c = h := by
  cases caught with
  | arrived => exact ⟨rfl, rfl⟩
  | unseen lacking hidden =>
    rcases able with all | ⟨unwrapped, two, -⟩
    · omega
    · exact absurd unwrapped (hidden.resolve_left (by omega))
  | diverged lacking _ _ low => omega
  | stopped passes _ split some_later =>
    rcases able with all | ⟨unwrapped, -⟩
    · have left := List.length_pos_iff.mpr some_later
      simp only [Chain.count, split, List.length_append] at all
      omega
    · exact absurd unwrapped passes

theorem of_one (caught : CaughtUp settings x h r c) (lacking : x.count < h.count)
    (one : settings.batchSize.toNat ≤ 1) : r = .ok 0 ∧ c = x := by
  cases caught with
  | arrived able => omega
  | unseen => exact ⟨rfl, rfl⟩
  | diverged _ _ two => omega
  | stopped _ two => omega

theorem of_low (caught : CaughtUp settings x h r c) (lacking : x.count < h.count)
    (unwrapped : h.Unwrapped) (two : 2 ≤ settings.batchSize.toNat) (low : x.head.height = 0) :
    r = .error .divergence ∧ c = x := by
  cases caught with
  | arrived able => omega
  | unseen _ hidden => exact absurd unwrapped (hidden.resolve_left (by omega))
  | diverged => exact ⟨rfl, rfl⟩
  | stopped passes => exact absurd unwrapped passes

theorem of_passes (caught : CaughtUp settings x h r c) (lacking : x.count < h.count)
    (passes : ¬ h.Unwrapped) (part : x.blocks <+: h.blocks) :
    ∃ n, r = .ok n ∧ x.count + n < h.count ∧ c.blocks = h.blocks.take (x.count + n) := by
  cases caught with
  | arrived able =>
    rcases able with all | ⟨unwrapped, -⟩
    · omega
    · exact absurd unwrapped passes
  | unseen => exact ⟨0, rfl, lacking, List.prefix_iff_eq_take.mp part⟩
  | diverged _ unwrapped => exact absurd unwrapped passes
  | @stopped done later _ _ split some_later =>
    have left := List.length_pos_iff.mpr some_later
    refine ⟨done.length, rfl, ?_, ?_⟩
    · simp only [Chain.count, split, List.length_append]
      omega
    · rw [split, Chain.blocks_pushAll, ← List.append_assoc, Chain.count, ← List.length_append,
        List.take_left]

/-- Nothing is counted where nothing is lacking, and where it is not shown. -/
theorem nothing (above : h = x.pushAll rest)
    (hidden : rest ≠ [] → settings.batchSize.toNat ≤ 1 ∨ ¬ h.Unwrapped) :
    CaughtUp settings x h (.ok 0) x := by
  by_cases whole : rest = []
  · obtain rfl : h = x := by rw [above, whole]; rfl
    rw [← Nat.sub_self h.count]
    exact .arrived (.inl rfl)
  · have some_rest := List.length_pos_iff.mpr whole
    refine .unseen ?_ (hidden whole)
    rw [Chain.count, Chain.count, above, Chain.blocks_pushAll, List.length_append]
    omega

end CaughtUp

/-- All the rounds together, of a node whose chain does not pass the last position. -/
theorem catchUp_caughtUp (p : HonestPeers net node settings h)
    (width : 1 ≤ settings.fanoutWidth.toNat) (batch : 1 ≤ settings.batchSize.toNat)
    (l : x.Lacks h rest) (fits : h.count < UInt64.size) (stored : w.node.store = .ofChain x)
    {rounds : Nat} (enough : rest.length < rounds + 1) :
    ∃ r w' c, (catchUp node settings (rounds + 1)).run net w = (some r, w') ∧
      CaughtUp settings x h r c ∧ w'.node = { w.node with store := .ofChain c } := by
  have count : h.count = x.count + rest.length := by
    rw [Chain.count, l.blocks, List.length_append, Chain.count]
  have stays : ∀ w' : World σ, w'.node = w.node →
      w'.node = { w.node with store := .ofChain x } := by
    intro w' same
    rw [same, ← stored]
  by_cases hidden : shown settings rest = []
  · obtain ⟨added, w', ran, rfl, same⟩ := (catchUp_idle p width batch l stored hidden rounds).run
    have one := (shown_eq_nil_iff.mp hidden).resolve_right
    exact ⟨_, w', x, ran, .nothing l.above fun some_rest => .inl (one some_rest), stays w' same⟩
  · obtain ⟨two, some_rest⟩ := not_or.mp (mt shown_eq_nil_iff.mpr hidden)
    rw [Nat.not_le] at two
    have positive := List.length_pos_iff.mpr some_rest
    by_cases upwards : h.Unwrapped
    · by_cases low : x.head.height = 0
      · obtain ⟨r, w', ran, rfl, same⟩ :=
          (catchUp_diverges p width batch l upwards stored hidden low rounds).run
        exact ⟨_, w', x, ran, .diverged (by omega) upwards two low, stays w' same⟩
      · obtain ⟨added, w', ran, rfl, whole⟩ :=
          (catchUp_arrives p width two l upwards (by omega) stored enough).run
        have arrived : CaughtUp settings x h (.ok (h.count - x.count)) h :=
          .arrived (.inr ⟨upwards, two, by omega⟩)
        rw [count, Nat.add_sub_cancel_left] at arrived
        exact ⟨_, w', h, ran, arrived, whole⟩
    · have high : 1 ≤ x.head.height := by
        have top := mt l.unwrapped_iff.mpr upwards
        have some_head : x.count = x.later.length + 1 := x.length_blocks
        omega
      obtain ⟨added, w', ran, done, later, split, some_later, rfl, stored'⟩ :=
        (catchUp_stops p width batch l upwards high stored enough).run
      exact ⟨_, w', _, ran, .stopped upwards two (by rw [l.blocks, split]) some_later, stored'⟩

/-- **How far catching up gets.** The settings are accepted, the peers are honest and their chain
`h` is any that can be built from blocks, and the node's chain `x` is built from the first of these.
Then the run ends. If nothing is missing it counts nothing. If `h` does not pass the last position,
a batch holds two blocks or more and the node's head stands at position 1 or above, it counts what
was missing and ends with `h`. Otherwise it ends without some of what was missing. A batch of one
block, though it is accepted, makes it end as if nothing were missing; when the only block stands at
position 0 the chains are said to diverge; and if `h` passes the last position, what was taken over
is counted, but it is not all. -/
theorem catchUp_arrives_unless_stuck {s : NodeSettings} (accepted : s.validate = .ok ())
    {held blocks : List Block} (hx : Chain.ofBlocks held = .ok x)
    (hh : Chain.ofBlocks blocks = .ok h) (part : held <+: blocks)
    (fits : blocks.length < UInt64.size)
    (p : HonestPeers net node s.sync h) (stored : w.node.store = .ofChain x) {rounds : Nat}
    (enough : h.count - x.count < rounds) :
    ∃ r w', (catchUp node s.sync rounds).run net w = (some r, w') ∧
      (x.count = h.count ∨ h.Unwrapped ∧ 2 ≤ s.sync.batchSize.toNat ∧ 1 ≤ x.head.height →
        r = .ok (h.count - x.count) ∧ w'.node = { w.node with store := .ofChain h }) ∧
      (x.count < h.count → s.sync.batchSize = 1 → r = .ok 0 ∧ w'.node = w.node) ∧
      (x.count < h.count → h.Unwrapped → 2 ≤ s.sync.batchSize.toNat → x.head.height = 0 →
        r = .error .divergence ∧ w'.node = w.node) ∧
      (x.count < h.count → ¬ h.Unwrapped → ∃ n c, r = .ok n ∧ x.count + n < h.count ∧
        w'.node = { w.node with store := .ofChain c } ∧
        c.blocks = h.blocks.take (x.count + n)) := by
  obtain ⟨rest, sound, sound', above⟩ := Chain.sound_of_prefix hx hh part
  obtain ⟨width, batch⟩ := s.sync_of_validate accepted
  have blocks : h.blocks = x.blocks ++ rest := by rw [above, Chain.blocks_pushAll]
  have count : h.count = x.count + rest.length := by
    rw [Chain.count, blocks, List.length_append, Chain.count]
  have words : h.count < UInt64.size := by
    rw [Chain.count, Chain.blocks_ofBlocks hh]
    exact fits
  obtain ⟨k, rfl⟩ : ∃ k, rounds = k + 1 := ⟨rounds - 1, by omega⟩
  obtain ⟨r, w', c, ran, caught, node⟩ : ∃ r w' c,
      (catchUp node s.sync (k + 1)).run net w = (some r, w') ∧ CaughtUp s.sync x h r c ∧
        w'.node = { w.node with store := .ofChain c } := by
    by_cases room : x.Unwrapped
    · exact catchUp_caughtUp p width batch ⟨⟨sound, room⟩, sound', above⟩ words stored (by omega)
    · have first : h.first = x.first := by rw [above, Chain.first_pushAll]
      have passes : ¬ h.Unwrapped := by
        rw [Chain.Unwrapped, first, above, Chain.length_later_pushAll]
        rw [Chain.Unwrapped] at room
        omega
      obtain ⟨added, w', ran, rfl, same⟩ :=
        (catchUp_passed p width sound first room (by omega) stored k).run
      exact ⟨_, w', x, ran, .nothing above fun _ => .inr passes, by rw [same, ← stored]⟩
  have stays : c = x → w'.node = w.node := by
    rintro rfl
    rw [node, ← stored]
  have one_word : s.sync.batchSize = 1 → s.sync.batchSize.toNat ≤ 1 := by
    intro one
    rw [one]
    decide
  refine ⟨r, w', ran, fun able => ?_, fun lacking one => ?_, fun lacking upwards two low => ?_,
    fun lacking passes => ?_⟩
  · obtain ⟨rfl, rfl⟩ := caught.of_able able
    exact ⟨rfl, node⟩
  · exact (caught.of_one lacking (one_word one)).imp_right stays
  · exact (caught.of_low lacking upwards two low).imp_right stays
  · obtain ⟨n, rfl, fewer, stored'⟩ := caught.of_passes lacking passes ⟨rest, blocks.symm⟩
    exact ⟨n, c, rfl, fewer, node, stored'⟩

/-- The peer has a second block, which a node that asks for one block at a time never gets. -/
theorem catchUp_stuck_second :
    let s := { NodeSettings.testing "self" with sync.batchSize := 1 }
    let h := Chain.new.push Sample.second
    let net := Solo.network "peer" s.sync (by decide) h
    let w : World Solo.Memory :=
      ⟨.new "self" s.forge s.sync s.maxBlockTransactions (.ofChain .new) 0, .empty, []⟩
    s.validate = .ok () ∧ Chain.new.count < h.count ∧
      ∃ w', (catchUp "self" s.sync 2).run net w = (some (.ok 0), w') ∧ w'.node = w.node := by
  intro s h net w
  have accepted : s.validate = .ok () := by decide
  have lacking : Chain.new.count < h.count := Nat.lt_succ_self 1
  have peers := Solo.honest "peer" s.sync (by decide) h (show "peer" ≠ "self" by decide)
  obtain ⟨r, w', ran, -, stuck, -⟩ :=
    catchUp_arrives_unless_stuck accepted (show Chain.ofBlocks [.genesis] = .ok .new from rfl)
      Chain.ofBlocks_second ⟨[Sample.second], rfl⟩ (by decide) peers (w := w) rfl
      (show h.count - Chain.new.count < 2 by decide)
  obtain ⟨rfl, same⟩ := stuck lacking rfl
  exact ⟨accepted, lacking, w', ran, same⟩

end Reconcile

end ChainNode
