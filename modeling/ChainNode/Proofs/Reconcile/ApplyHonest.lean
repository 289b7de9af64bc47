import ChainNode.Proofs.Chain.Fork
import ChainNode.Proofs.Reconcile.Apply
import ChainNode.Proofs.Reconcile.AskHonest

/-!
# Applying the view of honest peers

`x` is the node's chain, `h` that of the peers, and they fork at `n`. A view of honest peers is a
range of `h`. If it reaches above `n` and begins no higher than just above it, applying it takes the
node's chain to a longer first part of `h`: nothing in the new blocks can be refused.

* `takeOver_forks`: replacing what is above the fork by blocks of `h`.
* `apply_succeeds`, `apply_nothing`: applying a range of `h`.
-/
namespace ChainNode

namespace Reconcile

open Program

variable {σ : Type} {net : Network σ} {x h : Chain} {n : Nat} {w : World σ}

theorem validChain_eq : ∀ {parent : Block} {bs : List Block},
    (parent :: bs).IsChain Block.Follows → validChain parent bs = bs
  | _, [], _ => rfl
  | parent, b :: bs, linked => by
    obtain ⟨follows, rest⟩ := List.isChain_cons_cons.mp linked
    rw [validChain, Block.checkFollows_eq_ok_iff.mpr follows]
    simp only
    rw [validChain_eq rest]

/-- The blocks of `h` above the fork form a chain on top of the node's block below it: that block
carries the same position and hash. -/
theorem isChain_range {k : Nat} (fork : Chain.Forks x h (k + 1)) (hk : k < x.blocks.length)
    (m : Nat) :
    (x.blocks[k] :: h.range (k + 2) m).IsChain Block.Follows := by
  have right := fork.right
  have hk' : k < h.blocks.length := by omega
  have same := (fork.getElem_info (Nat.lt_succ_self k) hk hk').symm
  have segment : (h.blocks[k] :: h.range (k + 2) m).IsChain Block.Follows := by
    have all := (fork.valid_right.linked.drop k).take (m + 1)
    rw [List.drop_eq_getElem_cons hk', List.take_succ_cons] at all
    rw [Chain.range_eq fork.genesis (by omega)]
    exact all
  cases hr : h.range (k + 2) m with
  | nil => exact List.isChain_singleton _
  | cons b bs =>
    rw [hr] at segment
    obtain ⟨follows, rest⟩ := List.isChain_cons_cons.mp segment
    exact List.isChain_cons_cons.mpr ⟨follows.of_info_eq same, rest⟩

/-- No block of `h` above the fork has the hash of a block that the node keeps. -/
theorem fresh_range (fork : Chain.Forks x h n) {m : Nat} {b : Block} (hb : b ∈ h.range (n + 1) m) :
    b.hash ∉ (x.blocks.take n).map Block.hash := by
  intro known
  have hashes : (x.blocks.take n).map Block.hash = (h.blocks.take n).map Block.hash := by
    have kept := congrArg (List.map BlockInfo.hash) fork.below
    rwa [List.map_take, List.map_take, Chain.map_hash_infos, Chain.map_hash_infos,
      ← List.map_take, ← List.map_take] at kept
  rw [Chain.range_eq fork.genesis (by omega), Nat.add_sub_cancel] at hb
  have distinct := fork.valid_right.distinct
  rw [← List.take_append_drop n h.blocks, List.map_append, List.nodup_append] at distinct
  rw [hashes] at known
  exact distinct.2.2 _ known _ (List.mem_map_of_mem (List.mem_of_mem_take hb)) rfl

theorem takeOver_forks (net : Network σ) (stored : w.node.store = .ofChain x) {k m : Nat}
    (fork : Chain.Forks x h (k + 1)) (hk : k < x.blocks.length) (some_block : 1 ≤ m)
    (within : k + 1 + m ≤ h.blocks.length) :
    ∃ w' x', (takeOver (k + 2) x.blocks[k] (h.range (k + 2) m)).run net w = (some (.ok m), w') ∧
      World.Rewritten x' w w' ∧ h.FirstPart (k + 1 + m) x' := by
  have length : (h.range (k + 2) m).length = m := by
    rw [Chain.range_eq fork.genesis (by omega), List.length_take, List.length_drop]
    omega
  have all := validChain_eq (isChain_range fork hk m)
  have nonempty : validChain x.blocks[k] (h.range (k + 2) m) ≠ [] := by
    rw [all, ← List.length_pos_iff]
    omega
  have next : k + 2 = x.first.height + k + 1 := by
    rw [fork.genesis_left]
    omega
  obtain ⟨r, w', x', hrun, hw, saved, sound⟩ := takeOver_run net stored fork.valid_left.toSound hk
    next (fork.valid_right.nodup_range (k + 2) m) nonempty
  rw [all] at hrun saved
  have kept : (x.cut k).blocks = x.blocks.take (k + 1) := Chain.blocks_cut k x
  cases saved with
  | all =>
    refine ⟨w', _, by rw [hrun, length]; rfl, hw, sound, ?_, ?_⟩
    · rw [Chain.first_pushAll, Chain.first_cut, fork.first]
    · have new : (h.range (k + 2) m).map Block.info = (h.infos.drop (k + 1)).take m :=
        Chain.span_eq fork.genesis (by omega) m
      have old : (x.blocks.take (k + 1)).map Block.info = h.infos.take (k + 1) := by
        rw [← fork.below, Chain.infos, List.map_take]
      rw [Chain.infos, Chain.blocks_pushAll, kept, List.map_append, new, old, ← List.take_add]
  | known done split known =>
    rw [(fork.valid_left.cut k).known, kept] at known
    exact absurd known (fresh_range fork (by rw [split]; simp))

/-- In a range of `h` that begins no higher than just above the fork and reaches above it, the
first info that the node lacks is the one just above the fork. -/
theorem firstMissing_span (fork : Chain.Forks x h n) {a l : Nat} (ha : 1 ≤ a) (low : a ≤ n + 1)
    (high : n + 1 < a + l) (more : n < h.infos.length) :
    FirstMissing x (h.span a l) (h.span a (n + 1 - a)) h.infos[n]
      (h.span (n + 2) (l - (n + 1 - a) - 1)) := by
  have hh := fork.valid_right
  have genesis := fork.genesis
  have height : h.infos[n].height = n + 1 := by
    rw [hh.height_getElem_infos more, genesis, Nat.add_comm]
  have parts := Chain.span_split genesis ha low high (by rwa [Nat.add_sub_cancel])
  simp only [Nat.add_sub_cancel] at parts
  refine ⟨parts, ?_, ?_⟩
  · intro i hi
    obtain ⟨known, low', high'⟩ := (hh.mem_span genesis ha _).mp hi
    refine ⟨fork.mem known (by omega), ?_⟩
    have long := Chain.length_span genesis ha l
    rw [Chain.length_infos] at more
    cases hspan : h.span a l with
    | nil =>
      rw [hspan, List.length_nil] at long
      omega
    | cons lowest others =>
      have ordered := hh.consecutive_span a l
      rw [hspan] at ordered long
      refine ⟨lowest, rfl, ?_, ?_⟩
      · rw [ordered.height_head]
        exact low'
      · rw [ordered.height_head, long]
        omega
  · intro stored
    exact fork.not_mem (List.getElem_mem more) (by omega) stored.1

/-- An info that is missing is downloaded, with those above it, on top of the block below it. -/
theorem apply_run_of_missing (net : Network σ) (self : NodeId) (settings : SyncSettings)
    (stored : w.node.store = .ofChain x) (valid : x.Valid) (genesis : x.first.height = 1)
    {view : View} {lowest first : BlockInfo} {skipped rest : List BlockInfo}
    (hl : view.infos.head? = some lowest) (hp : 1 ≤ lowest.height)
    (missing : FirstMissing x view.infos skipped first rest) {k : Nat}
    (height : first.height = k + 2) (hk : k < x.blocks.length) :
    (apply self settings view).run net w =
      (replaceFrom self settings (k + 2) x.blocks[k] (first :: rest) view.nodes).run net w := by
  unfold apply
  split
  · rename_i empty
    rw [empty] at hl
    cases hl
  · rename_i lowest' others hinfos
    obtain rfl : lowest' = lowest := by
      rw [hinfos] at hl
      exact Option.some.inj hl
    rw [bind_eq, run_bind, run_infosInRange stored]
    simp only
    rw [pendingInfos_of_missing valid genesis hl hp missing]
    simp only
    rw [height, if_neg (by omega), bind_eq, run_bind, run_blockAt stored]
    simp only
    have below : k + 2 - 1 = k + 1 := rfl
    rw [below, Chain.at?_eq genesis (by omega), Nat.add_sub_cancel, List.getElem?_eq_getElem hk]

section

variable {node : NodeId} {settings : SyncSettings} (p : HonestPeers net node settings h)

theorem apply_succeeds (batch : 1 ≤ settings.batchSize.toNat) (stored : w.node.store = .ofChain x)
    (fork : Chain.Forks x h n) {a l : Nat} (ha : 1 ≤ a) (low : a ≤ n + 1) (high : n + 1 < a + l)
    (more : n < h.blocks.length) {nodes : List NodeId} (some_node : nodes ≠ [])
    (peers : ∀ id ∈ nodes, id ∈ p.ids) :
    Succeeds net (fun m w' => 1 ≤ m ∧ n + m ≤ h.blocks.length ∧ ∃ x',
        w'.node = { w.node with store := .ofChain x' } ∧ h.FirstPart (n + m) x')
      (apply node settings ⟨nodes, h.span a l⟩) w := by
  have hh := fork.valid_right
  have genesis := fork.genesis
  have more' : n < h.infos.length := by rwa [Chain.length_infos]
  have missing := firstMissing_span fork ha low high more'
  have height : h.infos[n].height = n + 1 := by
    rw [hh.height_getElem_infos more', genesis, Nat.add_comm]
  have positive := fork.positive
  obtain ⟨k, rfl⟩ : ∃ k, n = k + 1 := ⟨n - 1, by omega⟩
  have hk : k < x.blocks.length := fork.left
  obtain ⟨lowest, hl, hp⟩ : ∃ lowest, (h.span a l).head? = some lowest ∧ 1 ≤ lowest.height := by
    have ordered := hh.consecutive_span a l
    cases hspan : h.span a l with
    | nil =>
      have empty := missing.split
      rw [hspan] at empty
      simp at empty
    | cons lowest others =>
      rw [hspan] at ordered
      exact ⟨lowest, rfl, by rw [ordered.height_head]; exact ha⟩
  refine Ensures.of_run_eq (apply_run_of_missing net node settings stored fork.valid_left
    fork.genesis_left hl hp missing height hk) ?_
  let j := l - (k + 1 + 1 - a) - 1
  have pending : h.infos[k + 1] :: h.span (k + 1 + 2) j = h.span (k + 2) (j + 1) :=
    (Chain.span_eq_cons genesis (by omega : 1 ≤ k + 2) more' j).symm
  have nonempty : h.span (k + 2) (j + 1) ≠ [] := by
    rw [← pending]
    exact List.cons_ne_nil _ _
  have long := h.length_span genesis (by omega : 1 ≤ k + 2) (j + 1)
  rw [pending]
  unfold replaceFrom
  refine (fetchBlocks_succeeds p hh.toSound batch (by omega) (hh.consecutive_span _ _) nonempty
    some_node peers w).bind ?_
  intro fetched w₁ ended
  obtain ⟨m, m_pos, m_le, rfl, same⟩ := ended
  have within : k + 1 + m ≤ h.blocks.length := by omega
  obtain ⟨w', x', hrun, hw, part⟩ := takeOver_forks net (by rw [same, stored])
    fork hk m_pos within
  exact Ensures.of_run hrun ⟨m, rfl, m_pos, within, x', by rw [hw.node, same], part⟩

omit p in
/-- A view without infos is applied at once. -/
theorem apply_nothing (net : Network σ) (nodes : List NodeId) (w : World σ) :
    (apply node settings ⟨nodes, []⟩).run net w = (some (.ok 0), w) := rfl

end

end Reconcile

end ChainNode
