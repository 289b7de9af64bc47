import ChainNode.Gossip
import ChainNode.Proofs.Mempool
import ChainNode.Proofs.Node.Keeps
import ChainNode.Proofs.Node.Returns
import ChainNode.Proofs.Reconcile.Commands
import ChainNode.Reconcile

/-!
# What syncing does to a node

However a node syncs, what its chain holds afterwards it held before or has saved on the way, and
the first block stays. Catching up and listening leave the pool alone. Reconciling leaves it alone
too until the chain is settled, and then compares the pool with it.

* `Node.Synced`: what may have changed.
* `Command.Spares`, `synced_of_uses`: commands that change no more than that, and programs of these.
* `writing_spares`, `onFreshBlock_uses`: catching up and listening are such programs.
* `Compared`, `reconcile_compared`: reconciling.
-/
namespace ChainNode

variable {σ ε α β : Type}

/-- `n'` is what has become of `n` when blocks of `new` were saved, and perhaps others removed. -/
structure Node.Synced (new : List Block) (n n' : Node) : Prop where
  pool : n'.pool = n.pool
  poolLink : n'.poolLink = n.poolLink
  first : n'.store.chain.first = n.store.chain.first
  blocks : ∀ b ∈ n'.store.chain.blocks, b ∈ n.store.chain.blocks ∨ b ∈ new

namespace Node.Synced

variable {new new' : List Block} {n n' n'' : Node}

theorem refl (new : List Block) (n : Node) : Synced new n n := ⟨rfl, rfl, rfl, fun _ => .inl⟩

theorem mono (h : Synced new n n') (more : new ⊆ new') : Synced new' n n' :=
  ⟨h.pool, h.poolLink, h.first, fun b hb => (h.blocks b hb).imp_right (more ·)⟩

theorem trans (h : Synced new n n') (h' : Synced new n' n'') : Synced new n n'' where
  pool := h'.pool.trans h.pool
  poolLink := h'.poolLink.trans h.poolLink
  first := h'.first.trans h.first
  blocks b hb := (h'.blocks b hb).elim (h.blocks b) .inr

theorem of_chain {s : Store} (first : s.chain.first = n.store.chain.first)
    (blocks : ∀ b ∈ s.chain.blocks, b ∈ n.store.chain.blocks ∨ b ∈ new) :
    Synced new n { n with store := s } := ⟨rfl, rfl, first, blocks⟩

theorem of_store {s : Store} (same : s.chain = n.store.chain) :
    Synced new n { n with store := s } :=
  .of_chain (congrArg Chain.first same) fun _ hb => .inl (same ▸ hb)

end Node.Synced

/-- The block that was saved, if one was. -/
def Event.saved? : Event → Option Block
  | .saved b => some b
  | .asked .. => none
  | .announced .. => none

/-- The blocks that were saved, newest first. -/
def World.saved (w : World σ) : List Block := w.events.filterMap Event.saved?

theorem World.saved_subset {w w' : World σ} (more : w.events <:+ w'.events) :
    w.saved ⊆ w'.saved := (more.filterMap _).subset

namespace Command

/-- The command leaves the pool alone, and does not bring a block onto the chain without noting
it. -/
def Spares : {β : Type} → Command β → Prop
  | _, .act step => ∀ n : Node, n.Synced [] (step n).2
  | _, .save _ => True
  | _, .members => True
  | _, .shuffle _ => True
  | _, .newId => True
  | _, .broadcast _ _ => True
  | _, .round _ => True
  | _, .busy => False

theorem Spares.exec (net : Network σ) : ∀ {β : Type} {c : Command β}, c.Spares →
    ∀ w : World σ, w.node.Synced (c.exec net w).2.saved (c.exec net w).2.node
  | _, .act _, spares, w => (spares w.node).mono (List.nil_subset _)
  | _, .save b, _, w => by
    rcases exec_save_eq net b w with ⟨e, s, refused, same⟩ | ⟨s, accepted, written⟩
    · rw [refused]
      exact .of_store same
    · rw [accepted]
      obtain ⟨-, -, pushed⟩ := Chain.save_eq_ok_iff.mp written
      refine .of_chain (by rw [pushed, Chain.first_push]) fun a ha => ?_
      rw [pushed, Chain.blocks_push] at ha
      rcases List.mem_append.mp ha with old | same
      · exact .inl old
      · rw [List.mem_singleton.mp same]
        exact .inr List.mem_cons_self
  | _, .members, _, w => .refl _ w.node
  | _, .shuffle _, _, w => .refl _ w.node
  | _, .newId, _, w => .refl _ w.node
  | _, .broadcast _ _, _, w => .refl _ w.node
  | _, .round _, _, w => .refl _ w.node

theorem spares_reads {op : Store.Op α} {view : Chain → α} (reads : Store.Reads view op) :
    (Command.act (Node.withStore op)).Spares :=
  fun n => .of_store (reads n.store).1

theorem Asks.spares : ∀ {β : Type} {c : Command β}, c.Asks → c.Spares
  | _, .members, _ => trivial
  | _, .shuffle _, _ => trivial
  | _, .newId, _ => trivial
  | _, .round _, _ => trivial

end Command

namespace Reconcile

open Program

theorem writing_spares : Writing Command.Spares where
  asks _ := Command.Asks.spares
  latestBlock := Command.spares_reads Store.reads_latestBlock
  infosInRange _ _ := Command.spares_reads (Store.reads_infosInRange _ _)
  blockAt _ := Command.spares_reads (Store.reads_blockAt _)
  save _ := trivial
  removeAfter position n := by
    rcases Store.write_cases .removeAfter (Chain.removeAfter position) n.store with
      ⟨e, -, same⟩ | ⟨k, c, removed, -, written⟩
    · exact .of_store same
    · obtain ⟨-, -, rfl⟩ := Chain.removeAfter_eq_ok_iff.mp removed
      refine .of_chain ((congrArg Chain.first written).trans rfl) fun b hb => .inl ?_
      have kept := congrArg Chain.blocks written
      rw [Chain.blocks_cut] at kept
      exact List.mem_of_mem_take (kept ▸ hb)

/-- By induction on the program. -/
theorem synced_of_uses {net : Network σ} {p : Program ε α} (uses : p.Uses Command.Spares)
    (w : World σ) : w.node.Synced (p.run net w).2.saved (p.run net w).2.node := by
  refine (uses.run (R := fun w w' => w.node.Synced w'.saved w'.node ∧ w.events <:+ w'.events)
    ?_ ?_ ?_ w).1
  · exact fun w => ⟨.refl _ _, List.suffix_refl _⟩
  · intro w w' w'' one two
    exact ⟨(one.1.mono (World.saved_subset two.2)).trans two.1, one.2.trans two.2⟩
  · intro β c w spares
    exact ⟨spares.exec net w, c.events_suffix net w⟩

theorem returns_synced {net : Network σ} {p : Program ε α} (uses : p.Uses Command.Spares)
    (w : World σ) : Returns net (fun _ w' => w.node.Synced w'.saved w'.node) p w := by
  refine .of_run fun r w' ran => ?_
  have synced : w.node.Synced (p.run net w).2.saved (p.run net w).2.node := synced_of_uses uses w
  rwa [ran] at synced

variable (self : NodeId) (settings : SyncSettings) (rounds : Nat)

theorem onFreshBlock_uses (b : Block) :
    (Gossip.onFreshBlock self settings rounds b).Uses Command.Spares := by
  have noted : (Command.act (Node.note b.hash)).Spares := fun n => ⟨rfl, rfl, rfl, fun _ => .inl⟩
  unfold Gossip.onFreshBlock
  refine (Uses.command noted).bind fun fresh => ?_
  cases fresh with
  | false => trivial
  | true =>
    refine (Uses.step writing_spares.latestBlock).bind fun head => ?_
    split
    · unfold Gossip.extendWith
      refine (Uses.command trivial).bind fun saved => ?_
      split
      · exact (Uses.command trivial).bind fun _ => trivial
      · trivial
      · trivial
    · split
      · exact (catchUp_uses self settings writing_spares rounds).bind fun _ => trivial
      · trivial

/-- What a reconciliation makes of the node `n`: if it completes, then the pool was compared with
the chain that it came to; if it fails, then the pool was left alone. -/
inductive Compared (new : List Block) (n : Node) :
    Except SyncError Reconciliation → Node → Prop where
  | completed {report : Reconciliation} {m : Node} {s : Store} (synced : n.Synced new m)
      (same : s.chain = m.store.chain) : Compared new n (.ok report)
        { m with pool := m.pool.remaining m.store.chain, store := s }
  | failed {e : SyncError} {n' : Node} (synced : n.Synced new n') : Compared new n (.error e) n'

theorem resync_compared (net : Network σ) {w w₁ : World σ} (genesis : w.chain.first.height = 1)
    (own : w.node.poolLink = .own) (synced : w.node.Synced w₁.saved w₁.node)
    (report : Reconciliation) :
    Returns net (fun r w' => Compared w'.saved w.node r w'.node)
      ((Program.step id Node.resync : Program SyncError Nat).bind fun resynced =>
        .done (.ok { report with resynced })) w₁ := by
  obtain ⟨r, p, s, resynced, same, outcome⟩ := w₁.node.resync_cases
    ((congrArg Block.height synced.first).trans genesis) (synced.poolLink.trans own)
  refine (Returns.step net id Node.resync w₁).bind ?_ ?_
  · rintro k w₂ ⟨result, rfl⟩
    rw [resynced] at result ⊢
    rcases outcome with ⟨dropped, rfl, rfl⟩ | ⟨e, rfl, rfl⟩
    · exact .completed synced same
    · cases result
  · rintro e w₂ ⟨result, rfl⟩
    rw [resynced] at result ⊢
    rcases outcome with ⟨dropped, rfl, rfl⟩ | ⟨e', rfl, rfl⟩
    · cases result
    · exact .failed (synced.trans (.of_store same))

theorem reconcile_compared (net : Network σ) {w : World σ} (genesis : w.chain.first.height = 1)
    (own : w.node.poolLink = .own) :
    Returns net (fun r w' => Compared w'.saved w.node r w'.node)
      (reconcile self settings rounds) w := by
  have settling : Returns net (fun _ w' => w.node.Synced w'.saved w'.node)
      ((Program.store SyncError.store Store.latestBlock).bind fun head =>
        reconcileChain self settings rounds head.position) w := by
    refine returns_synced ((Uses.step writing_spares.latestBlock).bind fun head => ?_) w
    exact reconcileChain_uses self settings writing_spares rounds head.position
  unfold reconcile
  simp only [bind_eq]
  rw [← bind_assoc]
  refine settling.bind ?_ fun e w₁ synced => .failed synced
  rintro ⟨report, ended⟩ w₁ synced
  cases ended with
  | none => exact resync_compared net genesis own synced report
  | some e =>
    simp only
    split
    · exact resync_compared net genesis own synced report
    · exact .failed synced

end Reconcile

end ChainNode
