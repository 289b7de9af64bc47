import ChainNode.Gossip
import ChainNode.Proofs.Mempool
import ChainNode.Proofs.Node.Keeps
import ChainNode.Proofs.Reconcile.Apply
import ChainNode.Proofs.View.Absorb
import ChainNode.Reconcile

/-!
# What reconciling upholds

While a node reconciles, its chain changes in two ways only: a block that was downloaded is saved,
and what stands above a block is removed when a downloaded block follows that one. Which blocks are
downloaded depends on what the chosen views have told. So a property of chains survives a whole
reconciliation, at every moment of it and however it ends, if it survives these two steps for blocks
of the kind that peers can bring about. `Upheld` names what has to be known for that: what views
tell (`Told`), what downloads bring for it (`Good`), and the two steps.

* `Upheld.apply`: one view is taken over.
* `Upheld.scan`, `Upheld.catchUp`: nothing but what was told is found missing, and rounds.
* `Upheld.reconcile`, `Upheld.onFreshBlock`: all that changes the chain from outside.
* `Upheld.calls`: any sequence of such calls.
-/
namespace ChainNode.Reconcile

open Program

/-- What holds now still holds when more has been noted. -/
def Lasting {α : Type} (P : List Event → α → Prop) : Prop :=
  ∀ events later a, events <:+ later → P events a → P later a

variable {σ : Type}

/-- The property of a world that its chain has the property `Inv` of chains. -/
abbrev Holds (Inv : List Event → Chain → Prop) (w : World σ) : Prop := Inv w.events w.chain

/-- `Inv` survives what `net` can bring about: each of the two writes preserves it for `Good`
blocks, and these are all that a download brings for infos that views have told. -/
structure Upheld (net : Network σ) (node : NodeId) (settings : SyncSettings)
    (Inv : List Event → Chain → Prop) (Told : List Event → BlockInfo → Prop)
    (Good : List Event → Block → Prop) : Prop where
  lasting : Lasting Inv
  told : Lasting Told
  good : Lasting Good
  views : ∀ (start : UInt64) (size : UInt32) (w w' : World σ) (reports : List Report) (view : View),
    Holds Inv w → (fetchInfos node settings start size).run net w = (some (.ok reports), w') →
      choose reports = some view → ∀ i ∈ view.infos, Told w'.events i
  blocks : ∀ (infos : List BlockInfo) (nodes : List NodeId) (w w' : World σ) (bs : List Block),
    (∀ i ∈ infos, Told w.events i) →
      (fetchBlocks node settings infos nodes).run net w = (some (.ok bs), w') →
      ∀ b ∈ bs, Good w'.events b
  cut : ∀ (events : List Event) (c c' : Chain) (parent b : Block) (position n : Nat),
    position + 1 < UInt64.size → Inv events c → c.at? position = some parent →
      Block.Follows parent b → Good events b → c.removeAfter position = .ok (n, c') → Inv events c'
  save : ∀ (events : List Event) (c c' : Chain) (b : Block),
    Inv events c → Good events b → c.save b = .ok c' → Inv events c'

/-- A call that may change the node's chain, or anything else that the node does in between. -/
inductive Call where
  | reconcile (rounds : Nat)
  | catchUp (rounds : Nat)
  | fresh (rounds : Nat) (b : Block)
  | other (step : Node → Node) (keeps : ∀ n, (step n).store.chain = n.store.chain)

/-- Carry out a call, whatever it returns. -/
def Call.program (node : NodeId) (settings : SyncSettings) : Call → Program SyncError Unit
  | .reconcile rounds => do
    let _ : Except SyncError _ ← (Reconcile.reconcile node settings rounds).attempt
    pure ()
  | .catchUp rounds => do
    let _ : Except SyncError _ ← (Reconcile.catchUp node settings rounds).attempt
    pure ()
  | .fresh rounds b => do
    let _ : Except SyncError _ ← (Gossip.onFreshBlock node settings rounds b).attempt
    pure ()
  | .other step _ => .command (.act fun n => ((), step n))

def Call.programs (node : NodeId) (settings : SyncSettings) : List Call → Program SyncError Unit
  | [] => pure ()
  | call :: calls => do
    call.program node settings
    programs node settings calls

namespace Upheld

variable {net : Network σ} {node : NodeId} {settings : SyncSettings}
  {Inv : List Event → Chain → Prop} {Told : List Event → BlockInfo → Prop}
  {Good : List Event → Block → Prop} (u : Upheld net node settings Inv Told Good)

include u

theorem stable : World.Stable (Holds (σ := σ) Inv) := by
  intro w w' same more h
  show Inv w'.events w'.chain
  rw [same]
  exact u.lasting _ _ _ more h

/-! ## Taking over a view -/

theorem saveBlock {b : Block} {w : World σ} (h : Holds Inv w) (good : Good w.events b) :
    Holds Inv ((Command.save b).exec net w).2 := by
  rcases Command.exec_save_cases net b w with
    ⟨e, w', ran, same, events⟩ | ⟨w', ran, written, events⟩
  · rw [ran]
    exact u.stable w w' same (by simp [events]) h
  · rw [ran]
    have saved : Inv w.events w'.chain := u.save _ _ _ _ h good written
    exact u.lasting _ _ _ (by rw [events]; exact List.suffix_cons ..) saved

theorem saveAll {bs : List Block} {w : World σ} (h : Holds Inv w)
    (good : ∀ b ∈ bs, Good w.events b) : Always net (Holds Inv) (saveAll bs) w := by
  induction bs generalizing w with
  | nil => exact ⟨h, trivial⟩
  | cons b bs ih =>
    obtain ⟨here, others⟩ := List.forall_mem_cons.mp good
    unfold Reconcile.saveAll
    refine (Keeps.command h (u.saveBlock h here)).bind ?_
    intro r w' more h' ran
    cases r with
    | ok _ => exact ih h' fun b' hb' => u.good _ _ _ more (others b' hb')
    | error e => exact h'

theorem takeOver {position : Nat} {parent : Block} {fetched : List Block} {w : World σ}
    (room : position - 1 + 1 < UInt64.size) (h : Holds Inv w)
    (below : w.chain.at? (position - 1) = some parent) (good : ∀ b ∈ fetched, Good w.events b) :
    Always net (Holds Inv) (takeOver position parent fetched) w := by
  have checked : ∀ b ∈ validChain parent fetched, Good w.events b :=
    fun b hb => good b ((validChain_isPrefix parent fetched).subset hb)
  have linked := isChain_validChain parent fetched
  unfold Reconcile.takeOver
  cases new : validChain parent fetched with
  | nil => exact h
  | cons b others =>
    rw [new] at checked linked
    have follows := (List.isChain_cons_cons.mp linked).1
    refine (Keeps.write u.stable h ?_).bind ?_
    · intro n w' removed events
      show Inv w'.events w'.chain
      rw [events]
      exact u.cut _ _ _ _ _ _ _ room h below follows (checked b List.mem_cons_self) removed
    · intro n w' more h' _
      refine (u.saveAll h' fun b' hb' => u.good _ _ _ more (checked b' hb')).bind ?_
      intro _ w'' _ h'' _
      exact ⟨h'', trivial⟩

theorem replaceFrom {position : Nat} {parent : Block} {pending : List BlockInfo}
    {nodes : List NodeId} {w : World σ} (room : position - 1 + 1 < UInt64.size) (h : Holds Inv w)
    (below : w.chain.at? (position - 1) = some parent) (told : ∀ i ∈ pending, Told w.events i) :
    Always net (Holds Inv) (replaceFrom node settings position parent pending nodes) w := by
  have fetched : Keeps net (Holds Inv)
      (fun bs w' => (∀ b ∈ bs, Good w'.events b) ∧ w'.node = w.node)
      (fetchBlocks node settings pending nodes) w :=
    .of_asks u.stable h (fetchBlocks_asks node settings pending nodes) fun bs w' ran same =>
      ⟨u.blocks pending nodes w w' bs told ran, same⟩
  unfold Reconcile.replaceFrom
  refine fetched.bind ?_
  intro bs w' _ h' ended
  obtain ⟨good, same⟩ := ended
  refine u.takeOver room h' ?_ good
  rwa [World.chain, same]

theorem apply {view : View} {w : World σ} (h : Holds Inv w)
    (told : ∀ i ∈ view.infos, Told w.events i) :
    Always net (Holds Inv) (apply node settings view) w := by
  unfold Reconcile.apply
  split
  · exact ⟨h, trivial⟩
  · refine (Keeps.read u.stable h (Store.reads_infosInRange _ _)).bind ?_
    intro stored w₁ more₁ h₁ _
    split
    · exact ⟨h₁, trivial⟩
    · rename_i first rest pending
      have still : ∀ i ∈ first :: rest, Told w₁.events i := fun i hi =>
        u.told _ _ _ more₁ (told i (List.dropWhile_subset _ (pending ▸ hi)))
      split
      · exact h₁
      · rename_i high
        have room : first.height - 1 + 1 < UInt64.size := by
          rw [Nat.sub_add_cancel (by omega)]
          exact first.height_lt
        refine (Keeps.read u.stable h₁ (Store.reads_blockAt _)).bind ?_
        intro found w₂ more₂ h₂ looked
        cases found with
        | none => exact h₂
        | some parent =>
          exact u.replaceFrom room h₂ looked.1.symm fun i hi => u.told _ _ _ more₂ (still i hi)

/-! ## Scanning -/

theorem fetch (start : UInt64) (size : UInt32) {w : World σ} (h : Holds Inv w) :
    Keeps net (Holds Inv)
      (fun reports w' => ∀ view, choose reports = some view → ∀ i ∈ view.infos, Told w'.events i)
      (fetchInfos node settings start size) w :=
  .of_asks u.stable h (fetchInfos_asks node settings start size) fun reports w' ran _ view chosen =>
    u.views start size w w' reports view h ran chosen

/-- What a scan has come to so far tells nothing else than views told. -/
def OnlyTold (Told : List Event → BlockInfo → Prop) (found : ScanResult ⊕ Scanned) (w : World σ) :
    Prop :=
  match found with
  | .inl result => ∀ i ∈ result.missing.infos, Told w.events i
  | .inr seen => ∀ i ∈ seen.views.infos, Told w.events i

theorem scanWindow (start length : Nat) {before : Scanned} {w : World σ} (h : Holds Inv w)
    (told : ∀ i ∈ before.views.infos, Told w.events i) :
    Keeps net (Holds Inv) (OnlyTold Told) (scanWindow node settings start length before) w := by
  unfold Reconcile.scanWindow
  refine (u.fetch _ _ h).bind ?_
  intro reports w₁ more₁ h₁ views
  cases chosen : choose reports with
  | none => exact ⟨h₁, fun i hi => u.told _ _ _ more₁ (told i hi)⟩
  | some view =>
    refine (Keeps.read u.stable h₁ (Store.reads_infosInRange _ _)).bind ?_
    intro stored w₂ more₂ h₂ _
    have seen : ∀ i ∈ view.infos, Told w₂.events i :=
      fun i hi => u.told _ _ _ more₂ (views view chosen i hi)
    have still : ∀ i ∈ before.views.infos, Told w₂.events i :=
      fun i hi => u.told _ _ _ (more₁.trans more₂) (told i hi)
    cases forkPoint stored view.infos with
    | some fork =>
      refine ⟨h₂, fun i hi => ?_⟩
      rcases View.mem_of_mem_absorb (List.mem_filter.mp hi).1 with hi | hi
      · exact seen i hi
      · exact still i hi
    | none =>
      refine ⟨h₂, fun i hi => ?_⟩
      rcases View.mem_of_mem_absorb hi with hi | hi
      · exact still i hi
      · exact seen i hi

theorem scanFrom (origin cursor : Nat) {before : Scanned} {w : World σ} (h : Holds Inv w)
    (told : ∀ i ∈ before.views.infos, Told w.events i) :
    Keeps net (Holds Inv) (fun result w' => ∀ i ∈ result.missing.infos, Told w'.events i)
      (scanFrom node settings origin cursor before) w := by
  rw [Reconcile.scanFrom]
  refine (u.scanWindow _ _ h told).bind ?_
  intro found w' _ h' reports
  cases found with
  | inl result => exact ⟨h', reports⟩
  | inr seen =>
    simp only
    split
    · exact h'
    · exact scanFrom origin (windowStart settings cursor - 1) h' reports
termination_by cursor
decreasing_by exact windowStart_le settings (by assumption)

theorem scan (origin : UInt64) {w : World σ} (h : Holds Inv w) :
    Keeps net (Holds Inv) (fun result w' => ∀ i ∈ result.missing.infos, Told w'.events i)
      (scan node settings origin) w :=
  u.scanFrom _ _ h nofun

/-! ## Catching up -/

theorem fetchConfident (start : UInt64) (size : UInt32) {w : World σ} (h : Holds Inv w) :
    Keeps net (Holds Inv)
      (fun found w' => ∀ view, found = some view → ∀ i ∈ view.infos, Told w'.events i)
      (fetchConfident node settings start size) w := by
  unfold Reconcile.fetchConfident
  refine (u.fetch _ _ h).bind ?_
  intro reports w₁ _ h₁ views
  cases chosen : choose reports with
  | none => exact ⟨h₁, nofun⟩
  | some view =>
    simp only
    split
    · exact ⟨h₁, nofun⟩
    · split
      · exact ⟨h₁, nofun⟩
      · refine (Keeps.read u.stable h₁ (Store.reads_blockAt _)).bind ?_
        intro stored w₂ more₂ h₂ _
        have seen : ∀ i ∈ view.infos, Told w₂.events i :=
          fun i hi => u.told _ _ _ more₂ (views view chosen i hi)
        cases stored with
        | none => exact ⟨h₂, nofun⟩
        | some b =>
          refine ⟨h₂, fun view' same => ?_⟩
          split at same
          · cases same
            exact seen
          · cases same

/-- By induction on the rounds. -/
theorem catchUp (rounds : Nat) {w : World σ} (h : Holds Inv w) :
    Always net (Holds Inv) (catchUp node settings rounds) w := by
  induction rounds generalizing w with
  | zero => exact h
  | succ rounds ih =>
    unfold Reconcile.catchUp
    refine (Keeps.read u.stable h Store.reads_latestBlock).bind ?_
    intro head w₁ _ h₁ _
    refine (u.fetchConfident _ _ h₁).bind ?_
    intro found w₂ _ h₂ told
    cases found with
    | none => exact ⟨h₂, trivial⟩
    | some view =>
      simp only
      split
      · refine (u.apply h₂ (told view rfl)).bind ?_
        intro applied w₃ _ h₃ _
        split
        · exact ⟨h₃, trivial⟩
        · refine (ih h₃).bind ?_
          intro more w₄ _ h₄ _
          exact ⟨h₄, trivial⟩
      · exact ⟨h₂, trivial⟩

/-! ## Reconciling and listening -/

theorem reconcileChain (rounds : Nat) (head : UInt64) {w : World σ} (h : Holds Inv w) :
    Always net (Holds Inv) (reconcileChain node settings rounds head) w := by
  unfold Reconcile.reconcileChain
  refine (u.scan head h).attempt_bind ?_ fun e w' _ h' => ⟨h', trivial⟩
  intro found w₁ _ h₁ told
  refine (u.apply h₁ told).attempt_bind ?_ fun e w' _ h' => ⟨h', trivial⟩
  intro applied w₂ _ h₂ _
  refine (u.catchUp rounds h₂).attempt_bind ?_ fun e w' _ h' => ⟨h', trivial⟩
  intro more w₃ _ h₃ _
  exact ⟨h₃, trivial⟩

theorem resync {w : World σ} (h : Holds Inv w) :
    Always net (Holds Inv) (Program.step id Node.resync : Program SyncError Nat) w :=
  Keeps.step u.stable h w.node.chain_resync fun _ _ => trivial

theorem reconcile (rounds : Nat) {w : World σ} (h : Holds Inv w) :
    Always net (Holds Inv) (reconcile node settings rounds) w := by
  unfold Reconcile.reconcile
  refine (Keeps.read u.stable h Store.reads_latestBlock).bind ?_
  intro head w₁ _ h₁ _
  refine (u.reconcileChain rounds head.position h₁).bind ?_
  intro outcome w₂ _ h₂ _
  obtain ⟨report, ended⟩ := outcome
  cases ended with
  | none =>
    refine (u.resync h₂).bind ?_
    intro resynced w₃ _ h₃ _
    exact ⟨h₃, trivial⟩
  | some e =>
    simp only
    split
    · refine (u.resync h₂).bind ?_
      intro resynced w₃ _ h₃ _
      exact ⟨h₃, trivial⟩
    · exact h₂

theorem extendWith {b : Block} {w : World σ} (h : Holds Inv w) (good : Good w.events b) :
    Always net (Holds Inv) (Gossip.extendWith b) w := by
  unfold Gossip.extendWith
  refine (Keeps.command h (u.saveBlock h good)).bind ?_
  intro r w₁ _ h₁ _
  cases r with
  | ok _ =>
    refine (Keeps.command h₁ (u.stable w₁ _ rfl (Command.events_suffix net _ w₁) h₁)).bind ?_
    intro told w₂ _ h₂ _
    exact ⟨h₂, trivial⟩
  | error e =>
    cases e with
    | invalid cause => exact ⟨h₁, trivial⟩
    | genesisImmutable | backend => exact h₁

theorem onFreshBlock (rounds : Nat) {b : Block} {w : World σ} (h : Holds Inv w)
    (good : Good w.events b) :
    Always net (Holds Inv) (Gossip.onFreshBlock node settings rounds b) w := by
  unfold Gossip.onFreshBlock Gossip.lookAt
  refine (Keeps.command h (u.stable w _ rfl (List.suffix_refl _) h)).bind ?_
  intro fresh w₁ more₁ h₁ _
  cases fresh with
  | false => exact ⟨h₁, trivial⟩
  | true =>
    refine (Keeps.read u.stable h₁ Store.reads_latestBlock).bind ?_
    intro head w₂ more₂ h₂ _
    split
    · exact u.extendWith h₂ (u.good _ _ _ (more₁.trans more₂) good)
    · split
      · refine (u.catchUp rounds h₂).bind ?_
        intro blocks w₃ _ h₃ _
        exact ⟨h₃, trivial⟩
      · exact ⟨h₂, trivial⟩

/-! ## Sequences of calls -/

theorem call {call : Call} {w : World σ} (h : Holds Inv w)
    (announced : ∀ rounds b, call = .fresh rounds b → Good w.events b) :
    Always net (Holds Inv) (call.program node settings) w := by
  cases call with
  | reconcile rounds =>
    exact (u.reconcile rounds h).attempt_bind (fun _ _ _ h' _ => ⟨h', trivial⟩)
      fun _ _ _ h' => ⟨h', trivial⟩
  | catchUp rounds =>
    exact (u.catchUp rounds h).attempt_bind (fun _ _ _ h' _ => ⟨h', trivial⟩)
      fun _ _ _ h' => ⟨h', trivial⟩
  | fresh rounds b =>
    exact (u.onFreshBlock rounds h (announced rounds b rfl)).attempt_bind
      (fun _ _ _ h' _ => ⟨h', trivial⟩) fun _ _ _ h' => ⟨h', trivial⟩
  | other step keeps =>
    have after : Holds Inv { w with node := step w.node } :=
      u.stable w _ (keeps w.node) (List.suffix_refl _) h
    exact ⟨h, after, trivial⟩

/-- By induction on the calls. -/
theorem calls {calls : List Call} {w : World σ} (h : Holds Inv w)
    (announced : ∀ rounds b, .fresh rounds b ∈ calls → Good w.events b) :
    Always net (Holds Inv) (Call.programs node settings calls) w := by
  induction calls generalizing w with
  | nil => exact ⟨h, trivial⟩
  | cons call calls ih =>
    refine (u.call h fun rounds b same => announced rounds b ?_).bind ?_
    · rw [same]
      exact List.mem_cons_self
    · intro _ w' more h' _
      refine ih h' fun rounds b member => u.good _ _ _ more (announced rounds b ?_)
      exact List.mem_cons_of_mem _ member

end Upheld

end ChainNode.Reconcile
