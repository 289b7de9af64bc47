import ChainNode.Proofs.Node.Uses
import ChainNode.Proofs.Reconcile.Ask
import ChainNode.Reconcile

/-!
# Which commands reconciling uses

To find out what it lacks a node looks: it asks its peers and reads its store. To catch up it writes
its chain as well, but it tells nobody anything, and nothing else that it keeps changes. Which
commands these are is read off the programs once, for any kind of commands in which they are.

* `Looking`, `Writing`: kinds in which there is all that is used to look, and to write.
* `scan_uses`, `fetchConfident_uses`: stages that look.
* `apply_uses`, `catchUp_uses`: stages that write; `reconcileChain_uses`: all stages.
* `Command.Looks`, `Command.Quiet`: two such kinds.
-/
namespace ChainNode

namespace Reconcile

open Program

/-- All that a node uses to look is of the kind `P`. -/
structure Looking (P : ∀ {β : Type}, Command β → Prop) : Prop where
  asks : ∀ {β : Type} (c : Command β), c.Asks → P c
  latestBlock : P (.act (Node.withStore Store.latestBlock))
  infosInRange : ∀ position limit, P (.act (Node.withStore (Store.infosInRange position limit)))
  blockAt : ∀ position, P (.act (Node.withStore (Store.blockAt position)))

/-- All that a node uses to look and to write its chain is of the kind `P`. -/
structure Writing (P : ∀ {β : Type}, Command β → Prop) : Prop extends Looking P where
  removeAfter : ∀ position, P (.act (Node.withStore (Store.removeAfter position)))
  save : ∀ b, P (.save b)

variable {P : ∀ {β : Type}, Command β → Prop} (self : NodeId) (settings : SyncSettings)

/-! ## Looking -/

section

variable (looking : Looking P)

include looking

theorem fetchInfos_uses (start : UInt64) (size : UInt32) :
    (fetchInfos self settings start size).Uses P :=
  .of_asks looking.asks (fetchInfos_asks self settings start size)

theorem fetchBlocks_uses (infos : List BlockInfo) (nodes : List NodeId) :
    (fetchBlocks self settings infos nodes).Uses P :=
  .of_asks looking.asks (fetchBlocks_asks self settings infos nodes)

theorem scanWindow_uses (start length : Nat) (before : Scanned) :
    (scanWindow self settings start length before).Uses P := by
  unfold scanWindow
  refine (fetchInfos_uses self settings looking _ _).bind fun reports => ?_
  cases choose reports with
  | none => trivial
  | some view =>
    refine (Uses.step (looking.infosInRange _ _)).bind fun stored => ?_
    cases forkPoint stored view.infos <;> trivial

theorem scanFrom_uses (origin cursor : Nat) (before : Scanned) :
    (scanFrom self settings origin cursor before).Uses P := by
  rw [scanFrom]
  refine (scanWindow_uses self settings looking _ _ _).bind fun found => ?_
  cases found with
  | inl result => trivial
  | inr seen =>
    simp only
    split
    · trivial
    · exact scanFrom_uses origin (windowStart settings cursor - 1) seen
termination_by cursor
decreasing_by exact windowStart_le settings (by assumption)

theorem scan_uses (origin : UInt64) : (scan self settings origin).Uses P :=
  scanFrom_uses self settings looking _ _ _

theorem fetchConfident_uses (start : UInt64) (size : UInt32) :
    (fetchConfident self settings start size).Uses P := by
  unfold fetchConfident
  refine (fetchInfos_uses self settings looking _ _).bind fun reports => ?_
  cases choose reports with
  | none => trivial
  | some view =>
    simp only
    split
    · trivial
    · split
      · trivial
      · refine (Uses.step (looking.blockAt _)).bind fun stored => ?_
        cases stored <;> trivial

end

/-! ## Writing -/

section

variable (writing : Writing P)

include writing

theorem saveAll_uses (bs : List Block) : (saveAll bs).Uses P := by
  induction bs with
  | nil => trivial
  | cons b bs ih =>
    unfold saveAll
    refine (Uses.command (writing.save b)).bind fun saved => ?_
    cases saved with
    | ok _ => exact ih
    | error e => trivial

theorem takeOver_uses (position : Nat) (parent : Block) (fetched : List Block) :
    (takeOver position parent fetched).Uses P := by
  unfold takeOver
  simp only
  split
  · trivial
  · refine (Uses.step (writing.removeAfter _)).bind fun _ => ?_
    exact (saveAll_uses writing _).bind fun _ => trivial

theorem apply_uses (view : View) : (apply self settings view).Uses P := by
  have looking := writing.toLooking
  unfold apply
  split
  · trivial
  · refine (Uses.step (looking.infosInRange _ _)).bind fun stored => ?_
    split
    · trivial
    · split
      · trivial
      · refine (Uses.step (looking.blockAt _)).bind fun parent => ?_
        cases parent with
        | none => trivial
        | some parent =>
          refine (fetchBlocks_uses self settings looking _ _).bind fun fetched => ?_
          exact takeOver_uses writing _ _ _

/-- By induction on the rounds. -/
theorem catchUp_uses (rounds : Nat) : (catchUp self settings rounds).Uses P := by
  have looking := writing.toLooking
  induction rounds with
  | zero => trivial
  | succ rounds ih =>
    unfold catchUp
    refine (Uses.step looking.latestBlock).bind fun head => ?_
    refine (fetchConfident_uses self settings looking _ _).bind fun found => ?_
    cases found with
    | none => trivial
    | some view =>
      simp only
      split
      · refine (apply_uses self settings writing view).bind fun applied => ?_
        split
        · trivial
        · exact ih.bind fun more => trivial
      · trivial

theorem reconcileChain_uses (rounds : Nat) (head : UInt64) :
    (reconcileChain self settings rounds head).Uses P := by
  unfold reconcileChain
  refine (scan_uses self settings writing.toLooking head).attempt_bind fun found => ?_
  cases found with
  | error e => trivial
  | ok found =>
    refine (apply_uses self settings writing found.missing).attempt_bind fun applied => ?_
    cases applied with
    | error e => trivial
    | ok applied =>
      refine (catchUp_uses self settings writing rounds).attempt_bind fun more => ?_
      cases more <;> trivial

end

end Reconcile

namespace Command

/-- The command questions the network, or it leaves a node whose store has no faults as it is. -/
def Looks : {β : Type} → Command β → Prop
  | _, .act step => ∀ (n : Node) (c : Chain), n.store = .ofChain c → (step n).2 = n
  | _, .members => True
  | _, .shuffle _ => True
  | _, .newId => True
  | _, .round _ => True
  | _, .save _ => False
  | _, .broadcast _ _ => False
  | _, .busy => False

/-- The command announces nothing, and of a node whose store has no faults it changes at most the
chain. -/
def Quiet : {β : Type} → Command β → Prop
  | _, .act step => ∀ (n : Node) (c : Chain), n.store = .ofChain c →
      ∃ c', (step n).2 = { n with store := .ofChain c' }
  | _, .save _ => True
  | _, .members => True
  | _, .shuffle _ => True
  | _, .newId => True
  | _, .round _ => True
  | _, .broadcast _ _ => False
  | _, .busy => False

theorem Asks.looks : ∀ {β : Type} {c : Command β}, c.Asks → c.Looks
  | _, .members, _ => trivial
  | _, .shuffle _, _ => trivial
  | _, .newId, _ => trivial
  | _, .round _, _ => trivial

theorem Looks.quiet : ∀ {β : Type} {c : Command β}, c.Looks → c.Quiet
  | _, .act _, looks => fun n c stored => ⟨c, by rw [looks n c stored, ← stored]⟩
  | _, .members, _ => trivial
  | _, .shuffle _, _ => trivial
  | _, .newId, _ => trivial
  | _, .round _, _ => trivial

variable {α : Type} {op : Store.Op α}

theorem looks_withStore (reads : ∀ c, (op (.ofChain c)).2 = .ofChain c) :
    (Command.act (Node.withStore op)).Looks := by
  intro n c stored
  show { n with store := (op n.store).2 } = n
  rw [stored, reads, ← stored]

theorem quiet_withStore (writes : ∀ c, ∃ c', (op (.ofChain c)).2 = .ofChain c') :
    (Command.act (Node.withStore op)).Quiet := by
  intro n c stored
  obtain ⟨c', written⟩ := writes c
  refine ⟨c', ?_⟩
  show { n with store := (op n.store).2 } = ({ n with store := .ofChain c' } : Node)
  rw [stored, written]

end Command

namespace Reconcile

theorem looking_looks : Looking Command.Looks where
  asks _ := Command.Asks.looks
  latestBlock := Command.looks_withStore fun _ => rfl
  infosInRange _ _ := Command.looks_withStore fun _ => rfl
  blockAt _ := Command.looks_withStore fun _ => rfl

theorem writing_quiet : Writing Command.Quiet where
  asks _ asks := asks.looks.quiet
  latestBlock := looking_looks.latestBlock.quiet
  infosInRange position limit := (looking_looks.infosInRange position limit).quiet
  blockAt position := (looking_looks.blockAt position).quiet
  save _ := trivial
  removeAfter position := by
    refine Command.quiet_withStore fun c => ?_
    rw [Store.removeAfter_ofChain]
    split
    · exact ⟨c, rfl⟩
    · exact ⟨_, rfl⟩

end Reconcile

end ChainNode
