import ChainNode.Proofs.Mempool
import ChainNode.Proofs.Node.Keeps
import ChainNode.Proofs.Node.Returns
import ChainNode.Proofs.Reconcile.Convergence
import ChainNode.Proofs.Reconcile.Extension
import ChainNode.Proofs.View.Absorb

/-!
# How reconciling may fail

Each stage may be ended by the network, which does not matter, by divergence, or by a store that
refuses a downloaded block whose hash stands further down in the chain. Divergence means that a view
differs from the chain at the first position. Nobody gets that far once a block was taken over:
applying a view leaves at least two blocks, and catching up never looks below the head. So a
divergence that reaches the caller was found by a node that had changed nothing yet.

* `Stage`: what applying a view and catching up come to.
* `apply_stage`, `catchUp_stage`: against any peers.
* `reconcile_classified`: the outcomes of reconciling, with the chain and the pool in each of them.
-/
namespace ChainNode.Reconcile

open Program

variable {σ : Type} {net : Network σ} {self : NodeId} {settings : SyncSettings} {w : World σ}
  {c : Chain}

/-! ## Errors of the stages -/

/-- What a stage failed with, and the chain it leaves. `low` is what divergence tells of the stage.
-/
inductive Failure (low : Prop) (earlier : List Event) (c : Chain) :
    SyncError → List Event → Chain → Prop where
  | network {e : SyncError} {events : List Event} {c' : Chain}
      (unavailable : e.isNetworkUnavailable = true) : Failure low earlier c e events c'
  | diverged {events : List Event} (at_start : low) : Failure low earlier c .divergence events c
  /-- A downloaded block was refused because a block below it has its hash. -/
  | twin {events : List Event} {c' : Chain} {a b : Block} (downloaded : Downloaded earlier events b)
      (stored : a ∈ c'.blocks) (hash : a.hash = b.hash) (below : a.height < b.height) :
      Failure low earlier c (.store (.invalid (.alreadyKnown b.hash))) events c'

/-- How a stage stands to the world and the chain it started with. Unless it did nothing, a stage
that succeeds leaves a chain that goes beyond its first block. -/
structure Stage (low : Prop) (w : World σ) (c : Chain) (r : Except SyncError Nat) (w' : World σ)
    (c' : Chain) : Prop where
  node : w'.node = { w.node with store := .ofChain c' }
  valid : c'.Valid
  first : c'.first = c.first
  ok : ∀ n, r = .ok n → (n = 0 ∧ c' = c) ∨ 2 ≤ c'.blocks.length
  error : ∀ e, r = .error e → Failure low w.events c e w'.events c'

namespace Stage

variable {low : Prop} {w' : World σ}

theorem nothing (same : w'.node = w.node) (stored : w.node.store = .ofChain c) (valid : c.Valid) :
    Stage low w c (.ok 0) w' c where
  node := by rw [same, ← stored]
  valid := valid
  first := rfl
  ok n h := by cases h; exact .inl ⟨rfl, rfl⟩
  error := nofun

theorem failed {e : SyncError} (same : w'.node = w.node) (stored : w.node.store = .ofChain c)
    (valid : c.Valid) (failure : Failure low w.events c e w'.events c) :
    Stage low w c (.error e) w' c where
  node := by rw [same, ← stored]
  valid := valid
  first := rfl
  ok := nofun
  error e' h := by cases h; exact failure

/-- A stage that starts after something that leaves the node as it is. -/
theorem after {low' : Prop} {w₁ : World σ} {r : Except SyncError Nat} {c' : Chain}
    (h : Stage low' w₁ c r w' c') (same : w₁.node = w.node) (later : w.events <:+ w₁.events)
    (implies : low' → low) : Stage low w c r w' c' where
  node := by rw [h.node, same]
  valid := h.valid
  first := h.first
  ok := h.ok
  error e failed := by
    cases h.error e failed with
    | network unavailable => exact .network unavailable
    | diverged at_start => exact .diverged (implies at_start)
    | twin downloaded stored hash below =>
      exact .twin (downloaded.mono later (List.suffix_refl _)) stored hash below

end Stage

/-! ## Scanning -/

theorem fetchInfos_returns (start : UInt64) (size : UInt32) (w : World σ) :
    Returns net (fun r w' => (∀ e, r = .error e → e.isNetworkUnavailable = true) ∧
        w'.node = w.node) (fetchInfos self settings start size) w := by
  refine (Returns.of_asks (fetchInfos_asks self settings start size) w).mono fun r w' h => ?_
  refine ⟨fun e failed => ?_, h.2⟩
  rw [h.1 e failed]
  rfl

/-- What a scan fails with. -/
def ScanFailure (e : SyncError) : Prop := e = .divergence ∨ e.isNetworkUnavailable = true

/-- How a scan, or one window of it, stands to the world that it started with. -/
structure ScanStage {α : Type} (missing : α → List BlockInfo) (w : World σ) (r : Except SyncError α)
    (w' : World σ) : Prop where
  same : w'.node = w.node
  error : ∀ e, r = .error e → ScanFailure e
  increasing : ∀ result, r = .ok result → Increasing (missing result)

/-- What one window leaves to be applied, if it ends the scan. -/
def missingOf : ScanResult ⊕ Scanned → List BlockInfo
  | .inl result => result.missing.infos
  | .inr _ => []

theorem scanWindow_returns (stored : w.node.store = .ofChain c) (start length : Nat)
    (before : Scanned) :
    Returns net (ScanStage missingOf w) (scanWindow self settings start length before) w := by
  unfold scanWindow
  refine (fetchInfos_returns _ _ w).bind ?_ ?_
  · intro reports w₁ h
    cases chosen : choose reports with
    | none => exact ⟨h.2, nofun, fun _ ended => by cases ended; exact List.Pairwise.nil⟩
    | some view =>
      refine .of_run_bind (run_infosInRange (h.2 ▸ stored) _ _) ?_
      cases forkPoint (c.span start length) view.infos with
      | none => exact ⟨h.2, nofun, fun _ ended => by cases ended; exact List.Pairwise.nil⟩
      | some fork =>
        refine ⟨h.2, nofun, fun _ ended => ?_⟩
        cases ended
        obtain ⟨-, _, ordered⟩ := consecutive_of_choose chosen
        exact (View.increasing_absorb ordered.increasing.nodup_positions before.views).filter _
  · intro e w₁ h
    refine ⟨h.2, fun e' same => ?_, nofun⟩
    cases same
    exact .inr (h.1 e rfl)

theorem scanFrom_returns {w : World σ} (stored : w.node.store = .ofChain c) (origin cursor : Nat)
    (before : Scanned) :
    Returns net (ScanStage (fun result : ScanResult => result.missing.infos) w)
      (scanFrom self settings origin cursor before) w := by
  rw [scanFrom]
  refine (scanWindow_returns stored _ _ before).bind ?_ fun e w₁ h =>
    ⟨h.same, fun e' same => ?_, fun _ ended => by cases ended⟩
  · intro found w₁ h
    cases found with
    | inl result =>
      refine ⟨h.same, fun e failed => (by cases failed), fun _ ended => ?_⟩
      cases ended
      exact h.increasing _ rfl
    | inr seen =>
      simp only
      split
      · refine ⟨h.same, fun e same => ?_, fun _ ended => by cases ended⟩
        cases same
        split
        · exact .inl rfl
        · exact .inr rfl
      · have stored₁ : w₁.node.store = .ofChain c := by rw [h.same, stored]
        refine (scanFrom_returns stored₁ origin (windowStart settings cursor - 1) seen).mono ?_
        intro r w₂ h₂
        exact ⟨h₂.same.trans h.same, h₂.error, h₂.increasing⟩
  · cases same
    exact h.error e rfl
termination_by cursor
decreasing_by exact windowStart_le settings (by assumption)

/-! ## Applying a view -/

theorem takeOver_stage {low : Prop} {fetched : List Block} {n : Nat} {w₁ : World σ}
    (same : w₁.node = w.node) (stored : w.node.store = .ofChain c) (valid : c.Valid)
    (genesis : c.first.height = 1) (hn : n < c.blocks.length) {first : BlockInfo}
    {rest : List BlockInfo} (height : first.height = n + 2)
    (increasing : Increasing (first :: rest))
    (listed : fetched.map Block.info <+: first :: rest)
    (distinct : (fetched.map Block.hash).Nodup)
    (downloaded : ∀ b ∈ fetched, Downloaded w.events w₁.events b) :
    Returns net (fun r w' => ∃ c', Stage low w c r w' c')
      (takeOver (n + 2) c.blocks[n] fetched) w₁ := by
  have above := valid.below_pending genesis height increasing
  by_cases nonempty : validChain c.blocks[n] fetched = []
  · unfold takeOver
    simp only [nonempty, List.isEmpty_nil, if_true]
    exact ⟨c, .failed same stored valid (.network rfl)⟩
  · refine .of_run fun r w' ran => ?_
    have stored₁ : w₁.node.store = .ofChain c := by rw [same, stored]
    obtain ⟨saving, w₂, c', taken, hw, saved, sound⟩ :=
      takeOver_run net stored₁ valid.toSound hn (by omega : n + 2 = _) distinct nonempty
    have more := events_suffix_of_run ran
    cases ran.symm.trans taken
    have part := validChain_isPrefix c.blocks[n] fetched
    have valid' := saved.valid (valid.cut n) sound increasing ((part.map _).trans listed) above
    refine ⟨c', by rw [hw.node, same], valid', by cases saved <;> simp, ?_, ?_⟩
    · intro k ended
      cases saved with
      | all =>
        have some_block := List.length_pos_of_ne_nil nonempty
        refine .inr ?_
        simp
        omega
      | known => cases ended
    · intro e ended
      cases saved with
      | all => cases ended
      | @known done b later split hk =>
        cases ended
        have member : b ∈ fetched := part.subset (by simp [split])
        rw [(valid.cut n).known] at hk
        obtain ⟨a, ha, hash⟩ := List.mem_map.mp hk
        have kept : a ∈ ((c.cut n).pushAll done).blocks := by
          rw [Chain.blocks_pushAll]
          exact List.mem_append_left _ ha
        have told : b.info ∈ first :: rest := listed.subset (List.mem_map_of_mem member)
        exact .twin ((downloaded b member).mono (List.suffix_refl _) more) kept hash
          (above a ha _ told)

theorem replaceFrom_stage {low : Prop} (stored : w.node.store = .ofChain c) (valid : c.Valid)
    (genesis : c.first.height = 1) {n : Nat} (hn : n < c.blocks.length) {first : BlockInfo}
    {rest : List BlockInfo} (height : first.height = n + 2)
    (increasing : Increasing (first :: rest))
    (nodes : List NodeId) :
    Returns net (fun r w' => ∃ c', Stage low w c r w' c')
      (replaceFrom self settings (n + 2) c.blocks[n] (first :: rest) nodes) w := by
  unfold replaceFrom
  refine (((Returns.of_asks (fetchBlocks_asks self settings (first :: rest) nodes) w).and
    (Returns.of_asks (fetchBlocks_fails self settings (first :: rest) nodes) w)).with_run).bind
    ?_ ?_
  · intro fetched w₁ h
    obtain ⟨ran, ⟨picked, same⟩, -⟩ := h
    have picked := picked fetched rfl
    exact takeOver_stage same stored valid genesis hn height increasing picked.listed
      picked.distinct fun b hb => (fetchBlocks_noted ran b hb).1
  · intro e w₁ h
    obtain ⟨-, ⟨-, same⟩, failed, -⟩ := h
    refine ⟨c, .failed same stored valid (.network ?_)⟩
    rw [failed e rfl]
    rfl

/-- Applying a view diverges only if the view tells of the first position. -/
theorem apply_stage {view : View} (increasing : Increasing view.infos)
    (stored : w.node.store = .ofChain c) (valid : c.Valid) (genesis : c.first.height = 1) :
    Returns net (fun r w' => ∃ c', Stage (∃ i ∈ view.infos, i.height ≤ 1) w c r w' c')
      (apply self settings view) w := by
  unfold apply
  split
  · exact ⟨c, .nothing rfl stored valid⟩
  · rename_i lowest others infos
    refine .of_run_bind (run_infosInRange stored _ _) ?_
    split
    · exact ⟨c, .nothing rfl stored valid⟩
    · rename_i first rest pending
      have kept : first ∈ pendingInfos (c.span lowest.height view.infos.length) view.infos := by
        simp [pending]
      have told : first ∈ view.infos := List.dropWhile_subset _ kept
      have still : Increasing (first :: rest) :=
        pending ▸ increasing.sublist (List.dropWhile_sublist _)
      split
      · rename_i low
        exact ⟨c, .failed rfl stored valid (.diverged ⟨first, told, low⟩)⟩
      · obtain ⟨n, height⟩ : ∃ n, first.height = n + 2 := ⟨first.height - 2, by omega⟩
        rw [height]
        refine .of_run_bind (run_blockAt stored _) ?_
        rw [Chain.at?_eq genesis (by omega), show n + 2 - 1 - 1 = n from rfl]
        by_cases hn : n < c.blocks.length
        · rw [List.getElem?_eq_getElem hn]
          exact replaceFrom_stage stored valid genesis hn height still _
        · rw [List.getElem?_eq_none (by omega)]
          exact ⟨c, .failed rfl stored valid (.network rfl)⟩

/-! ## Catching up -/

theorem fetchConfident_fails (stored : w.node.store = .ofChain c) (start : UInt64) (size : UInt32) :
    Returns net (fun r _ => ∀ e, r = .error e → e.isNetworkUnavailable = true)
      (fetchConfident self settings start size) w := by
  unfold fetchConfident
  refine (fetchInfos_returns _ _ w).bind ?_ ?_
  · intro reports w₁ h
    cases choose reports with
    | none => exact nofun
    | some view =>
      simp only
      split
      · exact nofun
      · split
        · exact nofun
        · have stored₁ : w₁.node.store = .ofChain c := by rw [h.2, stored]
          refine .of_run_bind (run_blockAt stored₁ _) ?_
          cases c.at? start.toNat <;> exact nofun
  · intro e w₁ h e' same
    cases same
    exact h.1 e rfl

theorem fetchConfident_returns (size : UInt32) (stored : w.node.store = .ofChain c)
    (valid : c.Valid) (genesis : c.first.height = 1) :
    Returns net (fun r w' => w'.node = w.node ∧
        (∀ view, r = .ok (some view) → Confirmed c view.infos) ∧
        ∀ e, r = .error e → e.isNetworkUnavailable = true)
      (fetchConfident self settings c.head.position size) w := by
  refine .of_run fun r w' ran => ?_
  obtain ⟨r', w'', fetch, same, confirmed⟩ :=
    fetchConfident_run net self settings size stored valid genesis
  cases ran.symm.trans fetch
  exact ⟨same, confirmed, (fetchConfident_fails stored _ _).run ran⟩

/-- A view that begins at the head tells of the first position only if there is nothing above it. -/
theorem Confirmed.length_eq_one {infos : List BlockInfo} (confirmed : Confirmed c infos)
    (valid : c.Valid) (genesis : c.first.height = 1) (low : ∃ i ∈ infos, i.height ≤ 1) :
    c.blocks.length = 1 := by
  obtain ⟨i, hi, low⟩ := low
  obtain ⟨k, hk, rfl⟩ := List.mem_iff_getElem.mp hi
  have height := confirmed.consecutive.height_getElem hk
  have top := valid.height_head_eq genesis
  have some_block := List.length_pos_of_ne_nil c.blocks_ne_nil
  omega

/-- A stage that has succeeded, and rounds after it. These diverge only on a chain of one block,
which is the one that the first stage started with. -/
theorem Stage.trans {low : Prop} {n : Nat} {w₁ w₂ : World σ} {c₁ c₂ : Chain}
    {r : Except SyncError Nat} (h : Stage low w c (.ok n) w₁ c₁)
    (h' : Stage (c₁.blocks.length = 1) w₁ c₁ r w₂ c₂) (later : w.events <:+ w₁.events) :
    Stage (c.blocks.length = 1) w c (r.map (n + ·)) w₂ c₂ where
  node := by rw [h'.node, h.node]
  valid := h'.valid
  first := h'.first.trans h.first
  ok k ended := by
    cases r with
    | error e => cases ended
    | ok more =>
      cases ended
      rcases h'.ok more rfl with ⟨rfl, rfl⟩ | long
      · exact h.ok n rfl
      · exact .inr long
  error e ended := by
    cases r with
    | ok more => cases ended
    | error e' =>
      cases ended
      cases h'.error e rfl with
      | network unavailable => exact .network unavailable
      | diverged alone =>
        rcases h.ok n rfl with ⟨-, rfl⟩ | long
        · exact .diverged alone
        · omega
      | twin downloaded stored hash below =>
        exact .twin (downloaded.mono later (List.suffix_refl _)) stored hash below

/-- By induction on the rounds: only the first can diverge, and only on a chain of one block. -/
theorem catchUp_stage (rounds : Nat) {w : World σ} {c : Chain} (stored : w.node.store = .ofChain c)
    (valid : c.Valid) (genesis : c.first.height = 1) :
    Returns net (fun r w' => ∃ c', Stage (c.blocks.length = 1) w c r w' c')
      (catchUp self settings rounds) w := by
  induction rounds generalizing w c with
  | zero => trivial
  | succ rounds ih =>
    unfold catchUp
    refine .of_run_bind (run_latestBlock stored) ?_
    refine (fetchConfident_returns settings.batchSize stored valid genesis).with_run.bind ?_ ?_
    · intro found w₁ h₁
      obtain ⟨ran₁, same, confirmed, -⟩ := h₁
      have stored₁ : w₁.node.store = .ofChain c := by rw [same, stored]
      have more₁ := events_suffix_of_run ran₁
      cases found with
      | none => exact ⟨c, .nothing same stored valid⟩
      | some view =>
        simp only
        split
        · have low := (confirmed view rfl).length_eq_one valid genesis
          refine (apply_stage (confirmed view rfl).consecutive.increasing stored₁ valid
            genesis).with_run.bind ?_ ?_
          · intro n w₂ h₂
            obtain ⟨ran₂, c₂, stage⟩ := h₂
            have round := stage.after same more₁ low
            split
            · rename_i none_applied
              exact ⟨c₂, none_applied ▸ round⟩
            · have genesis₂ : c₂.first.height = 1 := by rw [stage.first, genesis]
              have more₂ := more₁.trans (events_suffix_of_run ran₂)
              refine (ih (by rw [stage.node]) stage.valid genesis₂).bind ?_ ?_
              · rintro k w₃ ⟨c₃, rest⟩
                exact ⟨c₃, round.trans rest more₂⟩
              · rintro e w₃ ⟨c₃, rest⟩
                exact ⟨c₃, round.trans rest more₂⟩
          · rintro e w₂ ⟨-, c₂, stage⟩
            exact ⟨c₂, stage.after same more₁ low⟩
        · exact ⟨c, .nothing same stored valid⟩
    · intro e w₁ h₁
      obtain ⟨-, same, -, unavailable⟩ := h₁
      exact ⟨c, .failed same stored valid (.network (unavailable e rfl))⟩

/-! ## Reconciling -/

/-- How reconciling may end for a node that had the chain `c`, with the world it is in then. -/
inductive Reconciled (w : World σ) (c : Chain) :
    Except SyncError Reconciliation → World σ → Prop where
  /-- The pool was compared with the chain that the node has now: nothing in it is in a block. -/
  | settled {report : Reconciliation} {w' : World σ} {c' : Chain} (valid : c'.Valid)
      (first : c'.first = c.first)
      (node : w'.node =
        { w.node with store := .ofChain c', pool := w.node.pool.remaining c' })
      (dropped : report.resynced = w.node.pool.length - (w.node.pool.remaining c').length)
      (clear : ∀ t ∈ w'.node.pool.pending, ∀ b ∈ c'.blocks, ∀ t' ∈ b.transactions,
        t'.hash ≠ t.hash) : Reconciled w c (.ok report) w'
  /-- The chains differ from the first position on, and the node is as it was. -/
  | diverged {w' : World σ} (same : w'.node = w.node) : Reconciled w c (.error .divergence) w'
  /-- A block that was downloaded has the hash of one that is stored below it. -/
  | twin {w' : World σ} {c' : Chain} {a b : Block}
      (node : w'.node = { w.node with store := .ofChain c' })
      (downloaded : Downloaded w.events w'.events b) (stored : a ∈ c'.blocks)
      (hash : a.hash = b.hash) (below : a.height < b.height) :
      Reconciled w c (.error (.store (.invalid (.alreadyKnown b.hash)))) w'

/-- How far the chain part came: what it leaves, and the error that ended it early, if any. -/
theorem reconcileChain_returns (rounds : Nat) (stored : w.node.store = .ofChain c) (valid : c.Valid)
    (genesis : c.first.height = 1) :
    Returns net (fun r w' => ∃ report ended c', r = .ok (report, ended) ∧
        w'.node = { w.node with store := .ofChain c' } ∧ c'.Valid ∧ c'.first = c.first ∧
        ∀ e, ended = some e → Failure True w.events c e w'.events c')
      (reconcileChain self settings rounds c.head.position) w := by
  unfold reconcileChain
  refine (scanFrom_returns stored _ _ _).with_run.attempt_bind ?_
  intro r w₁ h₁
  obtain ⟨ran₁, same, failed, increasing⟩ := h₁
  have stored₁ : w₁.node.store = .ofChain c := by rw [same, stored]
  have more₁ := events_suffix_of_run ran₁
  cases r with
  | error e =>
    refine ⟨_, _, c, rfl, by rw [same, ← stored], valid, rfl, fun e' is_e => ?_⟩
    cases is_e
    rcases failed e rfl with rfl | unavailable
    · exact .diverged trivial
    · exact .network unavailable
  | ok found =>
    refine (apply_stage (increasing found rfl) stored₁ valid genesis).with_run.attempt_bind ?_
    intro r w₂ h₂
    obtain ⟨ran₂, c₂, stage⟩ := h₂
    have first_part : Stage True w c r w₂ c₂ := stage.after same more₁ fun _ => trivial
    cases r with
    | error e =>
      refine ⟨_, _, c₂, rfl, first_part.node, first_part.valid, first_part.first, fun e' is_e => ?_⟩
      cases is_e
      exact first_part.error e rfl
    | ok applied =>
      have genesis₂ : c₂.first.height = 1 := by rw [first_part.first, genesis]
      have more₂ := more₁.trans (events_suffix_of_run ran₂)
      refine (catchUp_stage rounds (by rw [stage.node]) stage.valid genesis₂).attempt_bind ?_
      rintro r w₃ ⟨c₃, rest⟩
      have whole : Stage True w c (r.map (applied + ·)) w₃ c₃ :=
        (first_part.trans rest more₂).after rfl (List.suffix_refl _) fun _ => trivial
      cases r with
      | error e =>
        refine ⟨_, _, c₃, rfl, whole.node, whole.valid, whole.first, fun e' is_e => ?_⟩
        cases is_e
        exact whole.error e rfl
      | ok more => exact ⟨_, _, c₃, rfl, whole.node, whole.valid, whole.first, nofun⟩

/-- Comparing the pool with a chain settles a reconciliation. -/
theorem resync_settled {w₁ : World σ} {c' : Chain} (own : w.node.poolLink = .own)
    (node : w₁.node = { w.node with store := .ofChain c' }) (valid : c'.Valid)
    (first : c'.first = c.first) (genesis : c.first.height = 1) (report : Reconciliation) :
    Returns net (Reconciled w c)
      ((Program.step id Node.resync : Program SyncError Nat).bind fun resynced =>
        .done (.ok { report with resynced })) w₁ := by
  have compared := Node.resync_own (n := w₁.node) (c := c') (by rw [node]) (by rw [first, genesis])
    (by rw [node, own])
  refine (Returns.step net id Node.resync w₁).bind ?_ ?_
  · intro resynced w₂ h
    rw [compared] at h
    obtain ⟨count, rfl⟩ := h
    cases count
    refine .settled valid first (by simp only [node]) (by simp only [node]) ?_
    intro t pending b hb t' ht' same
    have absent := (List.mem_filter.mp pending).2
    simp only [decide_eq_true_eq] at absent
    exact absent (Mempool.mem_hashesIn.mpr ⟨b, hb, t', ht', same⟩)
  · intro e w₂ h
    rw [compared] at h
    cases h.1

/-- **Failures of reconciling.** Whenever reconciling returns, whatever peers did, it has failed
only with divergence, and then the node is as it was, or because a downloaded block has the hash of
one that is stored below it. Any other failure is that of a network that cannot be asked, and with
it, as without a failure, the pool is compared with the final chain: no transaction that stays
pending is in a stored block. -/
theorem reconcile_classified {rounds : Nat} {r : Except SyncError Reconciliation} {w' : World σ}
    (stored : w.node.store = .ofChain c) (valid : c.Valid) (genesis : c.first.height = 1)
    (own : w.node.poolLink = .own)
    (returned : (reconcile self settings rounds).run net w = (some r, w')) :
    Reconciled w c r w' := by
  suffices all : Returns net (Reconciled w c) (reconcile self settings rounds) w from
    all.run returned
  unfold reconcile
  refine .of_run_bind (run_latestBlock stored) ?_
  refine (reconcileChain_returns rounds stored valid genesis).bind ?_ ?_
  · rintro ⟨report, ended⟩ w₁ ⟨_, _, c₁, same, node, valid₁, first, failure⟩
    cases same
    cases ended with
    | none => exact resync_settled own node valid₁ first genesis report
    | some e =>
      simp only
      split
      · exact resync_settled own node valid₁ first genesis report
      · rename_i fatal
        cases failure e rfl with
        | network unavailable => exact absurd unavailable fatal
        | diverged => exact .diverged (by rw [node, ← stored])
        | twin downloaded low hash below => exact .twin node downloaded low hash below
  · rintro e w₁ ⟨_, _, _, failed, -⟩
    cases failed

/-- A node with the genesis block only, whose pool holds what a second block carries, and a peer
that has this block. -/
theorem reconcile_classified_second :
    let net := Solo.network "peer" .testing (by decide) (Chain.new.push Sample.second)
    let w : World Solo.Memory :=
      ⟨{ Node.new "self" .testing .testing 50 (.ofChain .new) 0 with
          pool := ⟨Sample.second.transactions⟩ }, .empty, []⟩
    w.node.store = .ofChain .new ∧ Chain.new.Valid ∧ Chain.new.first.height = 1 ∧
      w.node.poolLink = .own ∧ ∃ report w',
        (reconcile "self" .testing 3).run net w = (some (.ok report), w') ∧
          Reconciled w .new (.ok report) w' := by
  intro net w
  obtain ⟨report, w', ran, -⟩ := run_with_second (w := w) rfl nofun
  refine ⟨rfl, Chain.valid_start _, rfl, rfl, report, w', ran, ?_⟩
  exact reconcile_classified rfl (Chain.valid_start _) rfl rfl ran

end ChainNode.Reconcile
