import ChainNode.Proofs.Peer.Solo
import ChainNode.Proofs.Production.Outcome
import ChainNode.Proofs.Reconcile.Synced
import ChainNode.Proofs.SeenCache

/-!
# What waits although it is on the chain

Blocks come onto a chain in four ways. Producing a block clears the pool of what it carries, and a
reconciliation that completes clears it of what is on the chain by then. Listening and catching up
do not look at the pool, and neither does a reconciliation that fails. So a transaction may wait
although a block on the chain carries it, and be sealed once more; but only if that block was taken
over from others since the last reconciliation that completed.

* `Life`: what a node may do, one thing after the other, and which blocks it has taken over.
* `InLine`: what holds of the pool all along; one lemma for each thing that a node does.
* `waiting_only_if_taken`: all of a life.
-/
namespace ChainNode.Production

open Program

variable {σ : Type} {net : Network σ}

/-- Whether a cycle that ends like this has sealed a block. -/
def hasSealed : Except NodeError (Option Block) → Bool
  | .ok b => b.isSome
  | .error (.store _) => true
  | .error _ => false

/-- What a node may do, one thing after the other. With the node goes the list of the blocks that
it has taken over from others since the last reconciliation that completed:
`Life net taken n taken' n'` says how `n` with the list `taken` may become `n'` with `taken'`. -/
inductive Life (net : Network σ) : List Block → Node → List Block → Node → Prop where
  | rest (taken : List Block) (n : Node) : Life net taken n taken n
  /-- A transaction that no block on the chain carries is submitted. -/
  | submitted {taken₀ taken : List Block} {n₀ n : Node} {t : Transaction}
      (before : Life net taken₀ n₀ taken n)
      (new : t.hash ∉ Mempool.hashesIn n.store.chain.blocks) :
      Life net taken₀ n₀ taken { n with pool := (n.pool.submit t).2 }
  /-- Anything happens that neither changes the chain nor adds to the pool. -/
  | other {taken₀ taken : List Block} {n₀ n n' : Node} (before : Life net taken₀ n₀ taken n)
      (chain : n'.store.chain = n.store.chain) (poolLink : n'.poolLink = n.poolLink)
      (pool : n'.pool.pending ⊆ n.pool.pending) : Life net taken₀ n₀ taken n'
  /-- A cycle seals nothing. -/
  | unsealed {taken₀ taken : List Block} {n₀ : Node} {clock : ForgeClock} {stops : Interruptions}
      {w w' : World σ} {r : Except NodeError (Option Block)}
      (before : Life net taken₀ n₀ taken w.node)
      (ran : (cycle clock stops).run net w = (some r, w'))
      (nothing : hasSealed r = false) :
      Life net taken₀ n₀ taken w'.node
  /-- A cycle seals a block, and saves it unless the store refuses. During the search the node may
  do other things. -/
  | sealed {taken₀ taken taken' : List Block} {n₀ : Node} {clock : ForgeClock}
      {stops : Interruptions} {w w' : World σ} {r : Except NodeError (Option Block)}
      (before : Life net taken₀ n₀ taken w.node)
      (during : Life net taken (agreement net clock stops w).2 taken' (found net clock stops w))
      (ran : (cycle clock stops).run net w = (some r, w'))
      (something : hasSealed r = true) :
      Life net taken₀ n₀ taken' w'.node
  | heard {taken₀ taken : List Block} {n₀ : Node} {self : NodeId} {settings : SyncSettings}
      {rounds : Nat} {b : Block} {w w' : World σ} {r : Except SyncError FreshOutcome}
      (before : Life net taken₀ n₀ taken w.node) (start : w.events = [])
      (ran : (Gossip.onFreshBlock self settings rounds b).run net w = (some r, w')) :
      Life net taken₀ n₀ (w'.saved ++ taken) w'.node
  | caughtUp {taken₀ taken : List Block} {n₀ : Node} {self : NodeId} {settings : SyncSettings}
      {rounds : Nat} {w w' : World σ} {r : Except SyncError Nat}
      (before : Life net taken₀ n₀ taken w.node) (start : w.events = [])
      (ran : (Reconcile.catchUp self settings rounds).run net w = (some r, w')) :
      Life net taken₀ n₀ (w'.saved ++ taken) w'.node
  | reconciled {taken₀ taken : List Block} {n₀ : Node} {self : NodeId} {settings : SyncSettings}
      {rounds : Nat} {w w' : World σ} {report : Reconciliation}
      (before : Life net taken₀ n₀ taken w.node)
      (ran : (Reconcile.reconcile self settings rounds).run net w = (some (.ok report), w')) :
      Life net taken₀ n₀ [] w'.node
  | notReconciled {taken₀ taken : List Block} {n₀ : Node} {self : NodeId} {settings : SyncSettings}
      {rounds : Nat} {w w' : World σ} {e : SyncError} (before : Life net taken₀ n₀ taken w.node)
      (start : w.events = [])
      (ran : (Reconcile.reconcile self settings rounds).run net w = (some (.error e), w')) :
      Life net taken₀ n₀ (w'.saved ++ taken) w'.node

/-- The pool is in line with the chain but for blocks of `taken`: what waits is carried by no other
block on the chain. -/
structure InLine (taken : List Block) (n : Node) : Prop where
  genesis : n.store.chain.first.height = 1
  own : n.poolLink = .own
  waiting : ∀ t ∈ n.pool.pending, ∀ b ∈ n.store.chain.blocks,
    t.hash ∈ b.transactions.map Transaction.hash → b ∈ taken

namespace InLine

variable {taken new : List Block} {n n' : Node}

/-- Nothing of the chain changes, and what comes to the pool is not on it. -/
theorem pooled (h : InLine taken n) (chain : n'.store.chain = n.store.chain)
    (poolLink : n'.poolLink = n.poolLink) (pool : ∀ t ∈ n'.pool.pending,
      t ∈ n.pool.pending ∨ t.hash ∉ Mempool.hashesIn n.store.chain.blocks) :
    InLine taken n' where
  genesis := chain ▸ h.genesis
  own := poolLink.trans h.own
  waiting t ht b hb carried := by
    rw [chain] at hb
    rcases pool t ht with old | fresh
    · exact h.waiting t old b hb carried
    · exact absurd (Mempool.mem_hashesIn.mpr ⟨b, hb, List.mem_map.mp carried⟩) fresh

theorem submit (h : InLine taken n) {t : Transaction}
    (fresh : t.hash ∉ Mempool.hashesIn n.store.chain.blocks) {p : Mempool}
    (submitted : p = (n.pool.submit t).2) : InLine taken { n with pool := p } := by
  refine h.pooled rfl rfl fun a (ha : a ∈ p.pending) => ?_
  rw [submitted] at ha
  rcases Mempool.mem_submit ha with old | rfl
  · exact .inl old
  · exact .inr fresh

theorem other (h : InLine taken n) (chain : n'.store.chain = n.store.chain)
    (poolLink : n'.poolLink = n.poolLink) (pool : n'.pool.pending ⊆ n.pool.pending) :
    InLine taken n' := h.pooled chain poolLink fun _ ht => .inl (pool ht)

theorem synced (h : InLine taken n) (s : n.Synced new n') : InLine (new ++ taken) n' where
  genesis := (congrArg Block.height s.first).trans h.genesis
  own := s.poolLink.trans h.own
  waiting t ht b hb carried := by
    rcases s.blocks b hb with old | saved
    · exact List.mem_append_right _ (h.waiting t (s.pool ▸ ht) b old carried)
    · exact List.mem_append_left _ saved

theorem published (h : InLine taken n) {b : Block} (p : Published n b n') : InLine taken n' where
  genesis := by
    obtain ⟨-, -, pushed⟩ := Chain.save_eq_ok_iff.mp p.saved
    rw [pushed, Chain.first_push, h.genesis]
  own := by rw [p.node, h.own]
  waiting t ht a ha carried := by
    rw [p.pool] at ht
    obtain ⟨pending, left⟩ := List.mem_filter.mp ht
    rw [p.blocks] at ha
    rcases List.mem_append.mp ha with old | same
    · exact h.waiting t pending a old carried
    · rw [List.mem_singleton.mp same] at carried
      exact absurd carried (by simpa using left)

theorem compared (h : InLine taken n) {r : Except SyncError Reconciliation}
    (c : Reconcile.Compared new n r n') :
    (∃ report, r = .ok report ∧ InLine [] n') ∨ ∃ e, r = .error e ∧ InLine (new ++ taken) n' := by
  cases c with
  | failed synced => exact .inr ⟨_, rfl, h.synced synced⟩
  | @completed report m s synced same =>
    have settled := h.synced synced
    refine .inl ⟨report, rfl, same ▸ settled.genesis, settled.own, fun t ht b hb carried => ?_⟩
    obtain ⟨-, left⟩ := List.mem_filter.mp ht
    have held := Mempool.mem_hashesIn.mpr ⟨b, same ▸ hb, List.mem_map.mp carried⟩
    exact absurd held (by simpa using left)

theorem agreed {w : World σ} (h : InLine taken w.node) (clock : ForgeClock)
    (stops : Interruptions) : InLine taken (agreement net clock stops w).2 := by
  obtain ⟨s, node, chain⟩ := agreement_node net clock stops w
  rw [node]
  exact h.other chain rfl fun _ => id

end InLine

/-- By induction on the life, of which the search of a cycle may contain another. -/
theorem Life.inLine {taken₀ taken : List Block} {n₀ n : Node} (life : Life net taken₀ n₀ taken n)
    (start : InLine taken₀ n₀) : InLine taken n := by
  induction life with
  | rest => exact start
  | submitted _ new ih => exact (ih start).submit new rfl
  | other _ chain poolLink pool ih => exact (ih start).other chain poolLink pool
  | @unsealed _ _ _ clock stops w w' r _ ran nothing ih =>
    have ended := (cycle_ended net clock stops w).run ran
    generalize w'.node = n' at ended
    cases ended with
    | idle => exact ih start
    | unsealed cause => exact (ih start).agreed clock stops
    | refused | produced => cases nothing
  | @sealed _ _ _ _ clock stops w w' r _ _ ran something ih ih' =>
    have found := ih' ((ih start).agreed clock stops)
    have ended := (cycle_ended net clock stops w).run ran
    generalize w'.node = n' at ended
    cases ended with
    | idle | unsealed => cases something
    | refused cause same => exact found.other same rfl fun _ => id
    | produced _ _ published => exact found.published published
  | heard _ _ ran ih =>
    exact (ih start).synced ((Reconcile.returns_synced (Reconcile.onFreshBlock_uses ..) _).run ran)
  | caughtUp _ _ ran ih =>
    exact (ih start).synced ((Reconcile.returns_synced
      (Reconcile.catchUp_uses _ _ Reconcile.writing_spares _) _).run ran)
  | reconciled _ ran ih =>
    have before := ih start
    have compared := (Reconcile.reconcile_compared _ _ _ net before.genesis before.own).run ran
    rcases before.compared compared with ⟨_, -, settled⟩ | ⟨e, failed, -⟩
    · exact settled
    · cases failed
  | notReconciled _ _ ran ih =>
    have before := ih start
    have compared := (Reconcile.reconcile_compared _ _ _ net before.genesis before.own).run ran
    rcases before.compared compared with ⟨_, completed, -⟩ | ⟨e, -, kept⟩
    · cases completed
    · exact kept

/-- **What waits although it is on the chain was taken over from others.** A node on a chain from
position 1, with an empty pool of its own, lives on in any way in which nothing is submitted that is
on its chain. Then a block on its chain that carries a pending transaction was saved on being
announced, in catching up, or in a reconciliation that failed, and no reconciliation has completed
since. So after one that completes, and as long as no block is taken over, nothing on the chain
waits. -/
theorem waiting_only_if_taken {n n' : Node} {taken : List Block}
    (genesis : n.store.chain.first.height = 1) (own : n.poolLink = .own)
    (empty : n.pool.pending = []) (life : Life net [] n taken n') :
    ∀ t ∈ n'.pool.pending, ∀ b ∈ n'.store.chain.blocks,
      t.hash ∈ b.transactions.map Transaction.hash → b ∈ taken := by
  have start : InLine [] n := by
    refine ⟨genesis, own, fun t ht => ?_⟩
    rw [empty] at ht
    cases ht
  exact (life.inLine start).waiting

theorem onFreshBlock_accepts (net : Network σ) (self : NodeId) (settings : SyncSettings)
    (rounds : Nat) {b : Block} {c c' : Chain} {w : World σ} (stored : w.node.store = .ofChain c)
    (unseen : w.node.seen.contains w.node.now b.hash = false) (saved : c.save b = .ok c') :
    ∃ w', (Gossip.onFreshBlock self settings rounds b).run net w = (some (.ok .accepted), w') ∧
      w'.node.pool = w.node.pool ∧ w'.chain = c' ∧ w'.saved = b :: w.saved := by
  obtain ⟨-, follows, -⟩ := Chain.save_eq_ok_iff.mp saved
  have noted : w.node.note b.hash =
      (true, { w.node with seen := w.node.seen.put w.node.now b.hash }) := by
    rw [Node.note, SeenCache.insertIfAbsent_of_not_contains unseen]
  let w₁ : World σ := { w with node := { w.node with seen := w.node.seen.put w.node.now b.hash } }
  have stored₁ : w₁.node.store = .ofChain c := stored
  have head : (Program.store SyncError.store Store.latestBlock).run net w₁ =
      (some (.ok c.head), w₁) := run_latestBlock stored₁
  unfold Gossip.onFreshBlock
  rw [bind_eq, run_bind, run_command]
  simp only [Command.exec, noted, if_true]
  rw [Gossip.lookAt, bind_eq, run_bind, head]
  simp only
  rw [if_pos follows.position]
  simp only [Gossip.extendWith, bind_eq, run_bind, run_command, Command.exec, Node.withStore,
    stored₁, Store.save_ofChain, saved]
  exact ⟨_, rfl, rfl, rfl, rfl⟩

/-- A transaction is submitted, and a block that carries it is announced and saved: it still
waits. -/
theorem waiting_only_if_taken_second :
    let n := Node.new "self" .testing .testing 50 (.ofChain .new) 0
    let net := Solo.network "peer" .testing (by decide) .new
    ∃ n', n.store.chain.first.height = 1 ∧ n.poolLink = .own ∧ n.pool.pending = [] ∧
      Life net [] n [Sample.second] n' ∧
      (∀ t ∈ n'.pool.pending, ∀ b ∈ n'.store.chain.blocks,
        t.hash ∈ b.transactions.map Transaction.hash → b ∈ [Sample.second]) ∧
      n'.pool.pending = Sample.second.transactions ∧
      n'.store.chain.blocks = [.genesis, Sample.second] := by
  intro n net
  let t := Transaction.create (.ofString "sender") 0 .empty .empty
  have taken : (n.pool.submit t).2 = ⟨[t]⟩ := by
    rw [Mempool.submit, Transaction.isCorrect_create]
    rfl
  have fresh : t.hash ∉ Mempool.hashesIn n.store.chain.blocks := List.not_mem_nil
  have submitted : Life net [] n [] { n with pool := ⟨[t]⟩ } :=
    taken ▸ .submitted (.rest [] n) fresh
  obtain ⟨w', ran, pool, chain, saved⟩ := onFreshBlock_accepts net "self" .testing 1
    (w := ⟨{ n with pool := ⟨[t]⟩ }, .empty, []⟩) rfl rfl Chain.save_second
  have life := Life.heard submitted rfl ran
  rw [saved] at life
  refine ⟨w'.node, rfl, rfl, rfl, life, waiting_only_if_taken rfl rfl rfl life, ?_, ?_⟩
  · rw [pool]
    rfl
  · exact congrArg Chain.blocks chain

end ChainNode.Production
