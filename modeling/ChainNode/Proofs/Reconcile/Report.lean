import ChainNode.Proofs.Node.Keeps
import ChainNode.Proofs.Node.Returns
import ChainNode.Proofs.Reconcile.Commands
import ChainNode.Proofs.Reconcile.Convergence

/-!
# The number of blocks that a reconciliation reports

Every stage that ends with a number has saved that many blocks, and applying a view saves none if it
is the network that ends it. Catching up does not keep to that: an early round may have saved blocks
when a later one finds nobody to ask, and the number goes with the error. Reconciling takes such an
error for the end of its work and reports what the stages before it have counted.

* `apply_counted`, `catchUp_counted`: what the stages count.
* `CutShort`: catching up was ended by the network, so many blocks in.
* `report_counts_unless_cutShort`: the report falls short by exactly these blocks, and by nothing
  else.
-/
namespace ChainNode

variable {σ : Type}

def Event.isSaved : Event → Bool
  | .saved _ => true
  | _ => false

/-- How many blocks the node has saved. -/
def World.saves (w : World σ) : Nat := w.events.countP Event.isSaved

def Command.SavesNothing : {β : Type} → Command β → Prop
  | _, .save _ => False
  | _, .act _ => True
  | _, .members => True
  | _, .shuffle _ => True
  | _, .newId => True
  | _, .broadcast _ _ => True
  | _, .round _ => True
  | _, .busy => True

namespace Command

variable {β : Type}

theorem Looks.savesNothing : ∀ {β : Type} {c : Command β}, c.Looks → c.SavesNothing
  | _, .act _, _ => trivial
  | _, .members, _ => trivial
  | _, .shuffle _, _ => trivial
  | _, .newId, _ => trivial
  | _, .round _, _ => trivial

theorem saves_exec (net : Network σ) : ∀ {β : Type} {c : Command β}, c.SavesNothing →
    ∀ w : World σ, (c.exec net w).2.saves = w.saves
  | _, .act _, _, _ => rfl
  | _, .members, _, _ => rfl
  | _, .shuffle _, _, _ => rfl
  | _, .newId, _, _ => rfl
  | _, .broadcast _ _, _, _ => List.countP_cons_of_neg nofun
  | _, .round _, _, _ => List.countP_cons_of_neg nofun
  | _, .busy, _, _ => rfl

/-- A block that is saved is counted. -/
theorem saves_exec_save {net : Network σ} {b : Block} {w w' : World σ}
    (saved : (Command.save b).exec net w = (.ok (), w')) : w'.saves = w.saves + 1 := by
  rcases exec_save_cases net b w with ⟨e, w₁, refused, -⟩ | ⟨w₁, accepted, -, events⟩
  · cases refused.symm.trans saved
  · cases accepted.symm.trans saved
    rw [World.saves, events, World.saves, List.countP_cons_of_pos rfl]

end Command

namespace Program

variable {ε α : Type} {net : Network σ} {p : Program ε α}

theorem Uses.saves_run (h : p.Uses Command.SavesNothing) (w : World σ) :
    (p.run net w).2.saves = w.saves := by
  refine h.run (R := fun w w' => w'.saves = w.saves) (fun _ => rfl) ?_ ?_ w
  · intro w w' w'' one two
    exact two.trans one
  · intro β c w quiet
    exact Command.saves_exec net quiet w

theorem Returns.of_savesNothing (h : p.Uses Command.SavesNothing) (w : World σ) :
    Returns net (fun _ w' => w'.saves = w.saves) p w := by
  refine .of_run fun r w' ran => ?_
  have same := (h.saves_run w : (p.run net w).2.saves = w.saves)
  rwa [ran] at same

theorem Returns.of_looks (h : p.Uses Command.Looks) (w : World σ) :
    Returns net (fun _ w' => w'.saves = w.saves) p w :=
  .of_savesNothing (h.mono fun _ => Command.Looks.savesNothing) w

/-- Nothing that was counted is taken back. -/
theorem saves_le_run (net : Network σ) (p : Program ε α) (w : World σ) :
    w.saves ≤ (p.run net w).2.saves :=
  (events_suffix net p w).sublist.countP_le

end Program

namespace Reconcile

open Program

variable {net : Network σ} {self : NodeId} {settings : SyncSettings} {rounds : Nat}

/-! ## What the stages count -/

theorem store_savesNothing {ε α : Type} (wrap : StoreError → ε) (op : Store.Op α) :
    (Program.store wrap op).Uses Command.SavesNothing :=
  ⟨trivial, fun _ => trivial⟩

/-- A number that a stage ends with is that of the blocks it saved. If the network ends it, it has
saved none. -/
def Counted (w : World σ) : Except SyncError Nat → World σ → Prop
  | .ok n, w' => w'.saves = w.saves + n
  | .error e, w' => e.isNetworkUnavailable = true → w'.saves = w.saves

/-- By induction on the list. Saving is never ended by the network. -/
theorem saveAll_counted (bs : List Block) (w : World σ) :
    Returns net (fun r w' => (r = .ok () ∧ w'.saves = w.saves + bs.length) ∨
        ∃ e, r = .error e ∧ e.isNetworkUnavailable = false) (saveAll bs) w := by
  induction bs generalizing w with
  | nil => exact .inl ⟨rfl, rfl⟩
  | cons b bs ih =>
    unfold saveAll
    refine (Returns.command net (.save b) w).bind ?_ (fun _ _ h => by cases h.1)
    intro r w₁ h
    obtain ⟨result, rfl⟩ := h
    cases r with
    | error e => exact .inr ⟨_, rfl, rfl⟩
    | ok _ =>
      have counted : ((Command.save b).exec net w).2.saves = w.saves + 1 :=
        Command.saves_exec_save (Prod.ext (Except.ok.inj result).symm rfl)
      refine (ih _).mono fun r w' rest => ?_
      rcases rest with ⟨rfl, total⟩ | failed
      · refine .inl ⟨rfl, ?_⟩
        simp only [List.length_cons]
        omega
      · exact .inr failed

theorem takeOver_counted (position : Nat) (parent : Block) (fetched : List Block) (w : World σ) :
    Returns net (Counted w) (takeOver position parent fetched) w := by
  unfold takeOver
  simp only
  split
  · exact fun _ => rfl
  · refine (Returns.of_savesNothing (store_savesNothing _ _) w).bind ?_ (fun e w₁ same _ => same)
    intro removed w₁ same
    refine (saveAll_counted _ w₁).bind ?_ ?_
    · intro _ w₂ saved
      rcases saved with ⟨-, total⟩ | ⟨e, failed, -⟩
      · exact total.trans (by rw [same])
      · cases failed
    · intro e w₂ saved unavailable
      rcases saved with ⟨failed, -⟩ | ⟨_, failed, available⟩
      · cases failed
      · cases failed
        simp [available] at unavailable

theorem apply_counted (view : View) (w : World σ) :
    Returns net (Counted w) (apply self settings view) w := by
  unfold apply
  split
  · rfl
  · refine (Returns.of_savesNothing (store_savesNothing _ _) w).bind ?_ (fun e w₁ same _ => same)
    intro stored w₁ same₁
    split
    · exact same₁
    · split
      · exact fun _ => same₁
      · refine (Returns.of_savesNothing (store_savesNothing _ _) w₁).bind ?_
          (fun e w₂ same₂ _ => same₂.trans same₁)
        intro found w₂ same₂
        cases found with
        | none => exact fun _ => same₂.trans same₁
        | some parent =>
          unfold replaceFrom
          refine (Returns.of_looks (fetchBlocks_uses self settings looking_looks _ _) w₂).bind ?_
            (fun e w₃ same₃ _ => same₃.trans (same₂.trans same₁))
          intro fetched w₃ same₃
          refine (takeOver_counted _ _ _ w₃).mono fun r w₄ counted => ?_
          have before : w₃.saves = w.saves := same₃.trans (same₂.trans same₁)
          cases r with
          | ok n => exact counted.trans (by rw [before])
          | error e => exact fun unavailable => (counted unavailable).trans before

/-- By induction on the rounds. Of an error nothing can be said: the rounds before it may have saved
blocks. -/
theorem catchUp_counted (rounds : Nat) (w : World σ) :
    Returns net (fun r w' => ∀ n, r = .ok n → w'.saves = w.saves + n)
      (catchUp self settings rounds) w := by
  have failed : ∀ (e : SyncError) (w w' : World σ) (n : Nat),
      (Except.error e : Except SyncError Nat) = .ok n → w'.saves = w.saves + n := by
    intro e w w' n same
    cases same
  induction rounds generalizing w with
  | zero => trivial
  | succ rounds ih =>
    unfold catchUp
    refine (Returns.of_savesNothing (store_savesNothing _ _) w).bind ?_
      (fun e w' _ => failed e w w')
    intro head w₁ same₁
    refine (Returns.of_looks (fetchConfident_uses self settings looking_looks _ _) w₁).bind ?_
      (fun e w' _ => failed e w w')
    intro found w₂ same₂
    have before : w₂.saves = w.saves := same₂.trans same₁
    have nothing : ∀ n, (Except.ok 0 : Except SyncError Nat) = .ok n → w₂.saves = w.saves + n := by
      intro n same
      cases same
      exact before
    cases found with
    | none => exact nothing
    | some view =>
      simp only
      split
      · refine (apply_counted view w₂).bind ?_ (fun e w' _ => failed e w w')
        intro applied w₃ h₃
        split
        · rename_i none_applied
          intro n same
          cases same
          exact h₃.trans (by rw [before, none_applied])
        · refine (ih w₃).bind ?_ (fun e w' _ => failed e w w')
          intro more w₄ h₄ n same
          cases same
          have first_round : w₃.saves = w₂.saves + applied := h₃
          have others := h₄ more rfl
          omega
      · exact nothing

/-! ## What is reported -/

/-- Catching up, the last stage of reconciling, is ended by the network after it has saved `lost`
blocks. -/
def CutShort (net : Network σ) (self : NodeId) (settings : SyncSettings) (rounds : Nat)
    (w : World σ) (lost : Nat) : Prop :=
  ∃ head found applied e w₀ w₁ w₂ w₃,
    (Program.store SyncError.store Store.latestBlock).run net w = (some (.ok head), w₀) ∧
    (scan self settings head.position).run net w₀ = (some (.ok found), w₁) ∧
    (apply self settings found.missing).run net w₁ = (some (.ok applied), w₂) ∧
    (catchUp self settings rounds).run net w₂ = (some (.error e), w₃) ∧
    e.isNetworkUnavailable = true ∧ w₃.saves = w₂.saves + lost

theorem reconcileChain_counted {w w₀ : World σ} {head : Block}
    (started : (Program.store SyncError.store Store.latestBlock).run net w =
      (some (.ok head), w₀)) :
    Returns net (fun r w' => ∃ report ended, r = .ok (report, ended) ∧
        ((∀ e, ended = some e → e.isNetworkUnavailable = true) → ∃ lost,
          w'.saves = w.saves + report.applied + lost ∧
          (lost = 0 ∨ CutShort net self settings rounds w lost)))
      (reconcileChain self settings rounds head.position) w₀ := by
  have before : w₀.saves = w.saves :=
    (Returns.of_savesNothing (store_savesNothing _ _) w).run started
  unfold reconcileChain
  refine (Returns.of_looks (scan_uses self settings looking_looks _) w₀).with_run.attempt_bind ?_
  intro r w₁ h₁
  obtain ⟨scanned, same₁⟩ := h₁
  cases r with
  | error e => exact ⟨_, _, rfl, fun _ => ⟨0, same₁.trans before, .inl rfl⟩⟩
  | ok found =>
    refine (apply_counted found.missing w₁).with_run.attempt_bind ?_
    intro r w₂ h₂
    obtain ⟨taken, counted₂⟩ := h₂
    cases r with
    | error e =>
      refine ⟨_, _, rfl, fun unavailable => ⟨0, ?_, .inl rfl⟩⟩
      exact (counted₂ (unavailable e rfl)).trans (same₁.trans before)
    | ok applied =>
      have total : w₂.saves = w₁.saves + applied := counted₂
      refine (catchUp_counted rounds w₂).with_run.attempt_bind ?_
      intro r w₃ h₃
      obtain ⟨ended, counted₃⟩ := h₃
      cases r with
      | ok more =>
        have later := counted₃ more rfl
        exact ⟨_, _, rfl, fun _ => ⟨0, by simp only; omega, .inl rfl⟩⟩
      | error e =>
        -- what the rounds before the last have saved is in no report
        have grown := saves_le_run net (catchUp self settings rounds) w₂
        rw [ended] at grown
        obtain ⟨lost, some_lost⟩ := Nat.exists_eq_add_of_le grown
        refine ⟨_, _, rfl, fun unavailable => ⟨lost, by simp only at some_lost ⊢; omega, .inr ?_⟩⟩
        exact ⟨head, found, applied, e, w₀, w₁, w₂, w₃, started, scanned, taken, ended,
          unavailable e rfl, some_lost⟩

/-- Comparing the pool with the chain adds nothing to what was counted. -/
theorem resync_report (report : Reconciliation) (w : World σ) :
    Returns net (fun r w' => ∀ final, r = .ok final → final.applied = report.applied ∧
        w'.saves = w.saves)
      ((Program.step id Node.resync : Program SyncError Nat).bind fun resynced =>
        .done (.ok { report with resynced })) w := by
  refine (Returns.step net id Node.resync w).bind ?_ (fun _ _ _ => nofun)
  intro resynced w₁ h final same
  cases same
  cases h.2
  exact ⟨rfl, rfl⟩

theorem reconcile_counted (w : World σ) :
    Returns net (fun r w' => ∀ report, r = .ok report → ∃ lost,
        w'.saves = w.saves + report.applied + lost ∧
        (lost = 0 ∨ CutShort net self settings rounds w lost))
      (reconcile self settings rounds) w := by
  unfold reconcile
  refine (Returns.of_savesNothing (store_savesNothing _ _) w).with_run.bind ?_ (fun _ _ _ => nofun)
  intro head w₀ h₀
  refine (reconcileChain_counted h₀.1).bind ?_ ?_
  · rintro ⟨report, ended⟩ w₁ ⟨_, _, same, counted⟩
    cases same
    cases ended with
    | none =>
      refine (resync_report report w₁).mono fun r w' final full same => ?_
      obtain ⟨applied, saves⟩ := final full same
      rw [applied, saves]
      exact counted nofun
    | some e =>
      simp only
      split
      · rename_i unavailable
        refine (resync_report report w₁).mono fun r w' final full same => ?_
        obtain ⟨applied, saves⟩ := final full same
        rw [applied, saves]
        exact counted fun e' same' => by cases same'; exact unavailable
      · exact nofun
  · rintro e w₁ ⟨_, _, failed, -⟩
    cases failed

/-- If catching up was cut short, then what it had saved is what the report lacks. -/
theorem reconcile_of_cutShort {w : World σ} {lost : Nat}
    (cut : CutShort net self settings rounds w lost) :
    Returns net (fun r w' => ∀ report, r = .ok report → w'.saves = w.saves + report.applied + lost)
      (reconcile self settings rounds) w := by
  obtain ⟨head, found, applied, e, w₀, w₁, w₂, w₃, started, scanned, taken, ended, unavailable,
    saved⟩ := cut
  have same₀ : w₀.saves = w.saves :=
    (Returns.of_savesNothing (store_savesNothing _ _) w).run started
  have same₁ : w₁.saves = w₀.saves :=
    (Returns.of_looks (scan_uses self settings looking_looks head.position) w₀).run scanned
  have counted : w₂.saves = w₁.saves + applied := (apply_counted found.missing w₁).run taken
  have chain : (reconcileChain self settings rounds head.position).run net w₀ =
      (some (.ok (⟨some found.fork, applied, 0⟩, some e)), w₃) := by
    unfold reconcileChain
    simp [run_bind, run_attempt, scanned, taken, ended]
    rfl
  unfold reconcile
  refine .of_run_bind started (.of_run_bind chain ?_)
  simp only [unavailable, if_true]
  refine (resync_report ⟨some found.fork, applied, 0⟩ w₃).mono fun r w' final report same => ?_
  obtain ⟨total, saves⟩ := final report same
  simp only at total
  omega

/-- **A truthful report, unless it was cut short.** What reconciling reports as applied is the
number of blocks it has saved, for any store, any configuration and any behaviour of the peers. The
exception is a network that ends the last stage: then the report lacks what that stage had saved, so
it is right only if that was nothing. -/
theorem report_counts_unless_cutShort {w w' : World σ} {report : Reconciliation}
    (returned : (reconcile self settings rounds).run net w = (some (.ok report), w')) :
    (∀ lost, CutShort net self settings rounds w lost →
      w'.saves = w.saves + report.applied + lost) ∧
    ((∀ lost, CutShort net self settings rounds w lost → lost = 0) →
      w'.saves = w.saves + report.applied) := by
  refine ⟨fun lost cut => (reconcile_of_cutShort cut).run returned report rfl, fun nothing => ?_⟩
  obtain ⟨lost, total, none_lost | cut⟩ := (reconcile_counted w).run returned report rfl
  · rw [total, none_lost, Nat.add_zero]
  · rw [total, nothing lost cut, Nat.add_zero]

/-- A node with the genesis block only, and a peer that has a second block. -/
theorem report_counts_unless_cutShort_second :
    let net := Solo.network "peer" .testing (by decide) (Chain.new.push Sample.second)
    let w : World Solo.Memory :=
      ⟨.new "self" .testing .testing 50 (.ofChain .new) 0, .empty, []⟩
    ∃ report w', (reconcile "self" .testing 3).run net w = (some (.ok report), w') ∧
      report.applied = 1 ∧
      (∀ lost, CutShort net "self" .testing 3 w lost →
        w'.saves = w.saves + report.applied + lost) ∧
      ((∀ lost, CutShort net "self" .testing 3 w lost → lost = 0) →
        w'.saves = w.saves + report.applied) := by
  intro net w
  obtain ⟨report, w', ran, applied⟩ := run_with_second (w := w) rfl nofun
  exact ⟨report, w', ran, applied, report_counts_unless_cutShort ran⟩

end Reconcile

end ChainNode
