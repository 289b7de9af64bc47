import ChainNode.Proofs.Mempool
import ChainNode.Proofs.Peer.Solo
import ChainNode.Proofs.Reconcile.CatchUp
import ChainNode.Proofs.Reconcile.Scan
import ChainNode.Reconcile

/-!
# Reconciling with honest peers

The node's chain is `x`, that of its peers `h`, and they fork at `n`. The scan finds `n` and a range
of `h` above it; applying that range takes the node's chain to a first part of `h`, unless there is
nothing above `n`; catching up does the rest. If `n` is all of `h`, none of this changes anything.

* `apply_found`, `catchUp_forks`, `reconcile_succeeds`: the three stages.
* `reconcile_converges`: two chains of one first block.
* `scan_exact`: what a scan from any position finds between two such chains.
-/
namespace ChainNode.Reconcile

open Program

variable {σ : Type} {net : Network σ} {node : NodeId} {settings : SyncSettings} {x h : Chain}
  {n : Nat}

section

variable (p : HonestPeers net node settings h) (width : 1 ≤ settings.fanoutWidth.toNat)
  (batch : 2 ≤ settings.batchSize.toNat)

/-- A chain that stands where it forks is a first part of the other. -/
theorem firstPart_of_length (fork : Chain.Forks x h n) (top : n = x.blocks.length) :
    h.FirstPart n x := by
  refine ⟨fork.valid_left.toSound, fork.first, ?_⟩
  rw [← fork.below, top, ← Chain.length_infos, List.take_length]

include p batch in
theorem apply_found (fork : Chain.Forks x h n) {found : ScanResult}
    (hfound : FoundFork p.ids h settings.batchSize.toNat x.blocks.length n found) {w : World σ}
    (stored : w.node.store = .ofChain x) :
    Succeeds net (fun m w' => n + m ≤ h.blocks.length ∧ ∃ x₁,
        w'.node = { w.node with store := .ofChain x₁ } ∧ Chain.Forks x₁ h (n + m) ∧
        (h.FirstPart (n + m) x₁ ∨ n = h.blocks.length) ∧ (m = 0 → x₁ = x))
      (apply node settings found.missing) w := by
  obtain ⟨k, infos, reach, -⟩ := hfound.missing
  have left := fork.left
  have right := fork.right
  have view : found.missing = ⟨found.missing.nodes, h.span (n + 1) k⟩ := by rw [← infos]
  rw [view]
  by_cases more : n < h.blocks.length ∧ 1 ≤ k
  · refine (apply_succeeds p (by omega) stored fork (by omega) (Nat.le_refl _) (by omega) more.1
      hfound.some_node hfound.peers).mono ?_
    intro m w' ended
    obtain ⟨some_block, within, x₁, node₁, part⟩ := ended
    have positive := fork.positive
    exact ⟨within, x₁, node₁,
      part.forks fork.valid_right fork.genesis (by omega) within, .inl part, by omega⟩
  · have nothing : h.span (n + 1) k = [] := by
      rw [← List.length_eq_zero_iff, h.length_span fork.genesis (by omega)]
      omega
    rw [nothing]
    refine Ensures.of_run (apply_nothing net found.missing.nodes w) ?_
    refine ⟨0, rfl, right, x, by rw [← stored], fork, ?_, fun _ => rfl⟩
    by_cases top : n = h.blocks.length
    · exact .inr top
    · exact .inl (firstPart_of_length fork (by omega))

include p width batch in
theorem catchUp_forks (fork : Chain.Forks x h n) (ready : h.FirstPart n x ∨ n = h.blocks.length)
    {w : World σ} (stored : w.node.store = .ofChain x) {rounds : Nat}
    (enough : h.blocks.length < rounds) :
    Succeeds net (fun added w' => added = h.blocks.length - n ∧ ∃ x',
        w'.node = { w.node with store := .ofChain x' } ∧ Chain.Forks x' h h.blocks.length ∧
        (if n = h.blocks.length then x' = x else x'.infos = h.infos))
      (catchUp node settings rounds) w := by
  have hh := fork.valid_right
  have genesis := fork.genesis
  have positive := fork.positive
  have left := fork.left
  have right := fork.right
  by_cases above : h.blocks.length < x.blocks.length
  · have top : n = h.blocks.length := by
      rcases ready with part | top
      · have := part.length right
        omega
      · exact top
    refine (catchUp_above p width genesis fork.valid_left fork.first above stored
      (by omega)).mono ?_
    intro added w' ended
    obtain ⟨rfl, same⟩ := ended
    exact ⟨by rw [top, Nat.sub_self], x, by rw [same, ← stored], top ▸ fork, by rw [if_pos top]⟩
  · have part : h.FirstPart n x := by
      rcases ready with part | top
      · exact part
      · exact firstPart_of_length fork (by omega)
    refine (catchUp_succeeds p width batch hh genesis positive right part stored (by omega)).mono ?_
    intro added w' ended
    obtain ⟨rfl, x', node', part', same⟩ := ended
    refine ⟨rfl, x', node', part'.forks hh genesis (by omega) (Nat.le_refl _), ?_⟩
    split
    · rename_i top
      exact same top
    · exact part'.infos_eq

include p width batch in
theorem reconcileChain_succeeds (window : settings.scanWindow < UInt32.size)
    (fork : Chain.Forks x h n) {w : World σ} (stored : w.node.store = .ofChain x) {rounds : Nat}
    (enough : h.blocks.length < rounds) :
    Succeeds net (fun reached w' => ∃ position x',
        reached = (⟨some position, h.blocks.length - n, 0⟩, none) ∧ position.toNat = n ∧
        w'.node = { w.node with store := .ofChain x' } ∧ Chain.Forks x' h h.blocks.length ∧
        (if n = h.blocks.length then x' = x else x'.infos = h.infos))
      (reconcileChain node settings rounds x.head.position) w := by
  have right := fork.right
  have head : x.head.position.toNat = x.blocks.length :=
    fork.valid_left.height_head_eq fork.genesis_left
  have positive := fork.positive
  have left := fork.left
  unfold reconcileChain
  refine (scan_succeeds p width (by omega) window fork (by omega) stored).attempt_bind ?_
  intro found w₁ ended
  obtain ⟨hfound, same₁⟩ := ended
  rw [head, Nat.min_eq_left left] at hfound
  refine (apply_found p batch fork hfound (same₁ ▸ stored)).attempt_bind ?_
  intro m w₂ ended
  obtain ⟨within, x₁, node₂, fork₁, ready, kept⟩ := ended
  refine (catchUp_forks p width batch fork₁ (ready.imp_right fun top => by omega) (by rw [node₂])
    enough).attempt_bind ?_
  intro more w₃ ended
  obtain ⟨rfl, x', node₃, fork', final⟩ := ended
  have total : m + (h.blocks.length - (n + m)) = h.blocks.length - n := by omega
  refine ⟨_, rfl, found.fork, x', by rw [← total], hfound.fork, by rw [node₃, node₂, same₁], fork',
    ?_⟩
  split
  · have nothing : m = 0 := by omega
    rw [if_pos (by omega)] at final
    rw [final, kept nothing]
  · rename_i some_missing
    split at final
    · -- the range that was found reaches the head of `h`
      rename_i top
      obtain part | none_missing := ready
      · rw [final, (top ▸ part : h.FirstPart _ x₁).infos_eq]
      · exact absurd none_missing some_missing
    · exact final

include p width batch in
theorem reconcile_succeeds (window : settings.scanWindow < UInt32.size) (fork : Chain.Forks x h n)
    {w : World σ} (stored : w.node.store = .ofChain x)
    (online : ∀ reason, w.node.poolLink ≠ .offline reason) {rounds : Nat}
    (enough : h.blocks.length < rounds) :
    Succeeds net (fun report w' => ∃ x', w'.node.store = .ofChain x' ∧
        (∀ reason, w'.node.poolLink ≠ .offline reason) ∧ report.fork.map UInt64.toNat = some n ∧
        report.applied = h.blocks.length - n ∧ Chain.Forks x' h h.blocks.length ∧
        (if n = h.blocks.length then x' = x else x'.infos = h.infos))
      (reconcile node settings rounds) w := by
  unfold reconcile
  refine Ensures.of_run_bind (run_latestBlock stored) ?_
  refine (reconcileChain_succeeds p width batch window fork stored enough).bind ?_
  intro reached w₁ ended
  obtain ⟨position, x', rfl, hposition, node₁, fork', final⟩ := ended
  obtain ⟨dropped, n', resynced, stored', online'⟩ :=
    Node.resync_ok (n := w₁.node) (c := x') (by rw [node₁]) (by rw [node₁]; exact online)
  have hrun : (Program.step id Node.resync : Program SyncError Nat).run net w₁ =
      (some (.ok dropped), { w₁ with node := n' }) := by
    simp only [Program.step, run, Command.exec, resynced, Except.mapError]
  refine Ensures.of_run_bind hrun ?_
  exact ⟨_, rfl, x', stored', online', congrArg some hposition, rfl, fork', final⟩

end

/-- With honest peers over `h` and a pool that can be reached, reconciling finds where the two
chains fork and takes over all that the node lacks; doing it again changes nothing. -/
theorem reconcile_converges (p : HonestPeers net node settings h)
    (width : 1 ≤ settings.fanoutWidth.toNat) (batch : 2 ≤ settings.batchSize.toNat)
    (window : settings.scanWindow < UInt32.size) {first : Block} {l : Chain}
    (genesis : first.height = 1) (hl : Chain.Built first l) (hh : Chain.Built first h)
    {w : World σ} (stored : w.node.store = .ofChain l)
    (online : ∀ reason, w.node.poolLink ≠ .offline reason) {rounds : Nat}
    (enough : h.count < rounds) :
    (∃ report w' l', (reconcile node settings rounds).run net w = (some (.ok report), w') ∧
        w'.node.store = .ofChain l' ∧ report.fork.map UInt64.toNat = some (l.shared h) ∧
        report.applied = h.count - l.shared h ∧
        (if l.shared h = h.count then l' = l else l'.infos = h.infos) ∧
        ∀ w₁ : World σ, w₁.node = w'.node → ∃ report' w₂,
          (reconcile node settings rounds).run net w₁ = (some (.ok report'), w₂) ∧
            report'.applied = 0 ∧ w₂.node.store = .ofChain l') ∨
      Chain.SealCollision l h := by
  obtain ⟨valid_l, rfl⟩ := Chain.Valid.built hl genesis
  obtain ⟨valid_h, same⟩ := Chain.Valid.built hh genesis
  refine (Chain.forks_shared valid_l valid_h same.symm (same ▸ genesis)).imp_left fun fork => ?_
  obtain ⟨report, w', hrun, l', stored', online', position, applied, fork', final⟩ :=
    (reconcile_succeeds p width batch window fork stored online enough).run
  refine ⟨report, w', l', hrun, stored', position, applied, final, fun w₁ same₁ => ?_⟩
  obtain ⟨report', w₂, hrun', x', stored₂, -, -, nothing, -, kept⟩ :=
    (reconcile_succeeds p width batch window fork' (same₁ ▸ stored') (same₁ ▸ online') enough).run
  rw [if_pos rfl] at kept
  exact ⟨report', w₂, hrun', by rw [nothing, Nat.sub_self], by rw [stored₂, kept]⟩

theorem not_sealCollision_second :
    ¬ Chain.SealCollision .new (Chain.new.push Sample.second) := by
  intro collision
  obtain ⟨a, ha, b, hb, differ, digest⟩ := collision
  obtain rfl : a = Block.genesis := List.mem_singleton.mp ha
  rw [Chain.blocks_push, List.mem_append, List.mem_singleton] at hb
  rcases hb with hb | rfl
  · obtain rfl : b = Block.genesis := List.mem_singleton.mp hb
    exact differ rfl
  · exact Sample.sealDigest_second_ne digest

theorem shared_second : Chain.new.shared (Chain.new.push Sample.second) = 1 := by
  simp [Chain.shared, Chain.new, Chain.start, Chain.push, Chain.blocks, sharedLength]

theorem forks_second : Chain.Forks .new (Chain.new.push Sample.second) 1 := by
  have valid := Chain.valid_second
  rcases Chain.forks_shared (Chain.valid_start _) valid rfl rfl with forks | collision
  · rwa [← shared_second]
  · exact absurd collision not_sealCollision_second

/-- A node with the genesis block only reconciles with one peer, which has a second block. -/
theorem run_with_second {w : World Solo.Memory} (stored : w.node.store = .ofChain .new)
    (online : ∀ reason, w.node.poolLink ≠ .offline reason) :
    ∃ report w', (reconcile "self" .testing 3).run
        (Solo.network "peer" .testing (by decide) (Chain.new.push Sample.second)) w =
          (some (.ok report), w') ∧ report.applied = 1 := by
  have peers := Solo.honest "peer" .testing (by decide) (Chain.new.push Sample.second)
    (show "peer" ≠ "self" by decide)
  have enough : (Chain.new.push Sample.second).blocks.length < 3 := by decide
  obtain ⟨report, w', ran, -, -, -, -, applied, -⟩ :=
    (reconcile_succeeds peers (by decide) (by decide) (by decide) forks_second stored online
      enough).run
  exact ⟨report, w', ran, applied⟩

/-- A node with the genesis block only, and a peer that has a second block. -/
theorem reconcile_converges_second :
    let h := Chain.new.push Sample.second
    let net := Solo.network "peer" .testing (by decide) h
    let w : World Solo.Memory :=
      ⟨.new "self" .testing .testing 50 (.ofChain .new) 0, .empty, []⟩
    ∃ report w' l', (reconcile "self" .testing 3).run net w = (some (.ok report), w') ∧
      w'.node.store = .ofChain l' ∧ report.fork.map UInt64.toNat = some 1 ∧ report.applied = 1 ∧
      l'.infos = h.infos ∧
      ∀ w₁ : World Solo.Memory, w₁.node = w'.node → ∃ report' w₂,
        (reconcile "self" .testing 3).run net w₁ = (some (.ok report'), w₂) ∧
          report'.applied = 0 ∧ w₂.node.store = .ofChain l' := by
  intro h net w
  have shared : Chain.new.shared h = 1 := shared_second
  have two : h.count = 2 := rfl
  have peers := Solo.honest "peer" .testing (by decide) h (show "peer" ≠ "self" by decide)
  obtain ⟨report, w', l', hrun, rest⟩ | collision :=
    reconcile_converges peers (by decide) (by decide) (by decide) rfl .new
      (.ofBlocks Chain.ofBlocks_second (by decide)) (w := w) rfl (by rintro _ ⟨⟩)
      (by omega : h.count < 3)
  · rw [shared, two, if_neg (by decide)] at rest
    exact ⟨report, w', l', hrun, rest⟩
  · exact absurd collision not_sealCollision_second

/-! ## Scanning alone -/

/-- What a scan with honest peers finds missing, if it does not go beyond what can be asked for. -/
theorem FoundFork.missing_eq {ids : List NodeId} {batch top : Nat} {found : ScanResult}
    (hfound : FoundFork ids h batch top n found) (hh : h.Valid) (genesis : h.first.height = 1)
    (within : n ≤ h.blocks.length) (small : top + batch ≤ maxWord32) :
    found.missing.infos = (h.infos.take (top + batch)).drop n ∧
      found.missing.infos.map BlockInfo.height =
        List.range' (n + 1) (min (top + batch) h.blocks.length - n) := by
  obtain ⟨k, infos, -, total⟩ := hfound.missing
  have exact := total small
  have ordered := hh.consecutive_span (n + 1) k
  have length := h.length_span genesis (by omega : 1 ≤ n + 1) k
  rw [infos]
  constructor
  · rw [h.span_eq genesis (by omega), List.drop_take, Nat.add_sub_cancel, ← exact,
      Nat.add_sub_cancel_left]
  · rw [Consecutive] at ordered
    rw [ordered, length]
    congr 1
    omega

/-- **Exactness of a scan.** With honest peers over `h`, a scan from any position finds the last
position that the two chains share, or the one where it began if that is lower, and leaves the node
as it is. What is missing are the infos of `h` from there up to a batch above the position where the
scan began, or up to the head of `h`, each position once and in order. -/
theorem scan_exact (p : HonestPeers net node settings h)
    (width : 1 ≤ settings.fanoutWidth.toNat) (batch : 1 ≤ settings.batchSize.toNat)
    (window : settings.scanWindow < UInt32.size) {first : Block} {l : Chain}
    (genesis : first.height = 1) (hl : Chain.Built first l) (hh : Chain.Built first h)
    {origin : UInt64} (positive : 1 ≤ origin.toNat) {w : World σ}
    (stored : w.node.store = .ofChain l) :
    (∃ found w', (scan node settings origin).run net w = (some (.ok found), w') ∧
        w'.node = w.node ∧ found.fork.toNat = min (l.shared h) origin.toNat ∧
        (origin.toNat + settings.batchSize.toNat ≤ maxWord32 →
          found.missing.infos =
            (h.infos.take (origin.toNat + settings.batchSize.toNat)).drop found.fork.toNat ∧
          found.missing.infos.map BlockInfo.height =
            List.range' (found.fork.toNat + 1)
              (min (origin.toNat + settings.batchSize.toNat) h.count - found.fork.toNat))) ∨
      Chain.SealCollision l h := by
  obtain ⟨valid_l, rfl⟩ := Chain.Valid.built hl genesis
  obtain ⟨valid_h, same⟩ := Chain.Valid.built hh genesis
  refine (Chain.forks_shared valid_l valid_h same.symm (same ▸ genesis)).imp_left fun fork => ?_
  obtain ⟨found, w', hrun, hfound, same'⟩ :=
    (scan_succeeds p width batch window fork positive stored).run
  have right := fork.right
  refine ⟨found, w', hrun, same', hfound.fork, fun small => ?_⟩
  rw [hfound.fork]
  exact hfound.missing_eq valid_h (same ▸ genesis) (by omega) small

/-- A node with the genesis block only looks from position 5 downwards. The peer has a second block.
-/
theorem scan_exact_second :
    let h := Chain.new.push Sample.second
    let net := Solo.network "peer" .testing (by decide) h
    let w : World Solo.Memory := ⟨.new "self" .testing .testing 50 (.ofChain .new) 0, .empty, []⟩
    ∃ found w', (scan "self" .testing 5).run net w = (some (.ok found), w') ∧ w'.node = w.node ∧
      found.fork.toNat = 1 ∧ found.missing.infos = [Sample.second.info] := by
  intro h net w
  have shared : Chain.new.shared h = 1 := shared_second
  have peers := Solo.honest "peer" .testing (by decide) h (show "peer" ≠ "self" by decide)
  obtain ⟨found, w', hrun, same, fork, missing⟩ | collision :=
    scan_exact peers (by decide) (by decide) (by decide) rfl .new
      (.ofBlocks Chain.ofBlocks_second (by decide)) (by decide : 1 ≤ (5 : UInt64).toNat)
      (w := w) rfl
  · rw [shared] at fork
    have infos := (missing (by decide)).1
    rw [fork] at infos
    exact ⟨found, w', hrun, same, fork, infos⟩
  · exact absurd collision not_sealCollision_second

end ChainNode.Reconcile
