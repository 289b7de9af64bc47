import Mathlib.Data.List.Nodup
import ChainNode.Node
import ChainNode.Proofs.Chain.Position
import ChainNode.Proofs.Store

/-!
# The pool

Transactions are handed out in the order of their times and hashes, and leave by their hashes. A
pool that holds each hash once, as one that was filled by submitting does, loses with a list of its
transactions exactly these.

Comparing the pool with the chain leaves the chain as it is. If the chain starts at position 1, all
of it is read, and the transactions that stay are those that no block holds; a chain that cannot be
read leaves the pool as it is. On a store without faults the comparison can always be done, and the
store stays as it is too.

* `next_spec`, `Keyed.perm_removeIncluded`: what is handed out, and what is left without it.
* `resync_cases`: the comparison.
* `resync_ofChain`, `resync_eq`: the same on a store without faults.
* `Node.resync_cases`, `Node.resync_ok`, `Node.resync_own`: the same for a node.
-/
namespace ChainNode

namespace Mempool

/-! ## Handing out and removing -/

/-- No hash occurs twice. -/
def Keyed (p : Mempool) : Prop := (p.pending.map Transaction.hash).Nodup

/-- A transaction that names itself under a text the pool does not hold is taken. -/
theorem submit_of_absent {p : Mempool} {t : Transaction} (correct : t.isCorrect = true)
    (absent : ∀ t' ∈ p.pending, t'.hash ≠ t.hash) :
    p.submit t = (true, ⟨p.pending ++ [t]⟩) := by
  rw [submit, correct, if_pos (by simpa [holds] using absent)]

theorem Keyed.submit {p : Mempool} (h : p.Keyed) (t : Transaction) : (p.submit t).2.Keyed := by
  unfold Mempool.submit
  split
  · rename_i taken
    have absent : ∀ t' ∈ p.pending, t'.hash ≠ t.hash := by
      simp [holds] at taken
      exact taken.2
    simp only [Keyed, List.map_append, List.nodup_append]
    exact ⟨h, List.nodup_singleton _, by simpa using absent⟩
  · exact h

theorem mem_submit {p : Mempool} {t a : Transaction} (h : a ∈ (p.submit t).2.pending) :
    a ∈ p.pending ∨ a = t := by
  unfold submit at h
  split at h
  · exact (List.mem_append.mp h).imp_right List.mem_singleton.mp
  · exact .inl h

theorem earlier_trans (a b c : Transaction) :
    earlier a b = true → earlier b c = true → earlier a c = true :=
  keyLE_trans Label.le_trans _ _ _

theorem earlier_total (a b : Transaction) : (earlier a b || earlier b a) = true :=
  keyLE_total Label.le_total _ _

/-- What is handed out is the front of a queue of all that is pending, in order. -/
theorem next_spec (p : Mempool) (limit : Nat) :
    ∃ queue : List Transaction, queue.Perm p.pending ∧ queue.Pairwise (earlier · ·) ∧
      p.next limit = queue.take limit :=
  ⟨_, List.mergeSort_perm _ _, List.pairwise_mergeSort earlier_trans earlier_total _, rfl⟩

theorem next_eq_nil_iff (p : Mempool) (limit : Nat) :
    p.next limit = [] ↔ p.pending = [] ∨ limit = 0 := by
  have queue := List.mergeSort_perm p.pending earlier
  have same : p.pending.mergeSort earlier = [] ↔ p.pending = [] := by
    rw [← List.length_eq_zero_iff, queue.length_eq, List.length_eq_zero_iff]
  rw [next, List.take_eq_nil_iff, same, or_comm]

theorem pending_removeIncluded (hashes : List Label) (p : Mempool) :
    (removeIncluded hashes p).2.pending = p.pending.filter (·.hash ∉ hashes) := by
  induction hashes generalizing p with
  | nil => simp [removeIncluded]
  | cons h hs ih =>
    simp only [removeIncluded, ih, List.filter_filter]
    refine List.filter_congr fun t _ => ?_
    simp [Bool.and_comm]

/-- A pool that holds each hash once loses the transactions whose hashes are removed. -/
theorem Keyed.perm_removeIncluded {p : Mempool} (h : p.Keyed) {ts : List Transaction}
    (distinct : (ts.map Transaction.hash).Nodup) (held : ts ⊆ p.pending) :
    p.pending.Perm (ts ++ (removeIncluded (ts.map Transaction.hash) p).2.pending) := by
  rw [pending_removeIncluded]
  have these : (p.pending.filter (·.hash ∈ ts.map Transaction.hash)).Perm ts := by
    refine (List.perm_ext_iff_of_nodup ((List.Nodup.of_map _ h).filter _)
      (List.Nodup.of_map _ distinct)).mpr fun t => ?_
    simp only [List.mem_filter, decide_eq_true_eq, List.mem_map]
    constructor
    · rintro ⟨pending, t', carried, same⟩
      rwa [← List.inj_on_of_nodup_map h (held carried) pending same]
    · exact fun carried => ⟨held carried, t, carried, rfl⟩
  have parts := List.filter_append_perm (·.hash ∈ ts.map Transaction.hash) p.pending
  simp only [decide_not]
  exact parts.symm.trans (these.append_right _)

/-! ## Reading the chain again -/

theorem includedFrom_ofChain (position count : Nat) (c : Chain) :
    ∃ hashes, includedFrom position count (.ofChain c) = (.ok hashes, .ofChain c) := by
  rw [includedFrom]
  split
  · rw [Store.blocksInRange_ofChain]
    cases c.range position resyncBatch with
    | nil => exact ⟨[], rfl⟩
    | cons b bs =>
      obtain ⟨hashes, above⟩ := includedFrom_ofChain (position + (b :: bs).length) count c
      simp only [above]
      exact ⟨_, rfl⟩
  · exact ⟨[], rfl⟩
termination_by count + 1 - position
decreasing_by simp only [List.length_cons]; omega

theorem chain_includedFrom (position count : Nat) (s : Store) :
    (includedFrom position count s).2.chain = s.chain := by
  have same := (Store.reads_blocksInRange position resyncBatch s).1
  rw [includedFrom]
  split
  · split
    · rename_i read
      rwa [read] at same
    · rename_i read
      rwa [read] at same
    · rename_i b bs t read
      rw [read] at same
      have above := chain_includedFrom (position + (b :: bs).length) count t
      split
      · rename_i later
        rw [later] at above
        exact above.trans same
      · rename_i later
        rw [later] at above
        exact above.trans same
  · rfl
termination_by count + 1 - position
decreasing_by simp only [List.length_cons]; omega

theorem chain_resync (p : Mempool) (s : Store) : (p.resync s).2.2.chain = s.chain := by
  have counted := (Store.reads_count s).1
  unfold resync includedHashes
  generalize Store.count s = read at counted
  obtain ⟨r, t⟩ := read
  cases r with
  | error e => exact counted
  | ok count =>
    have same := (chain_includedFrom 1 count t).trans counted
    simp only
    generalize includedFrom 1 count t = read at same
    obtain ⟨r, u⟩ := read
    cases r with
    | error e => exact same
    | ok hashes => exact same

theorem resync_ofChain (p : Mempool) (c : Chain) :
    ∃ dropped kept, p.resync (.ofChain c) = (.ok dropped, kept, .ofChain c) := by
  obtain ⟨hashes, included⟩ := includedFrom_ofChain 1 c.count c
  rw [resync, includedHashes, Store.count_ofChain]
  simp only [included]
  exact ⟨_, _, rfl⟩

/-! ## What is read of a chain that starts at position 1 -/

/-- The hashes of the transactions in a list of blocks. -/
def hashesIn (bs : List Block) : List Label := bs.flatMap (·.transactions.map Transaction.hash)

theorem mem_hashesIn {bs : List Block} {hash : Label} :
    hash ∈ hashesIn bs ↔ ∃ b ∈ bs, ∃ t ∈ b.transactions, t.hash = hash := by
  simp [hashesIn]

/-- What a chain that starts at position 1 does not hold of a pool. -/
def remaining (p : Mempool) (c : Chain) : Mempool :=
  ⟨p.pending.filter (·.hash ∉ hashesIn c.blocks)⟩

/-- A batch is a first part of what is left to read, and it is not empty. -/
theorem range_resyncBatch {c : Chain} (genesis : c.first.height = 1) {position : Nat}
    (positive : 1 ≤ position) (within : position ≤ c.count) :
    ∃ b bs, c.range position resyncBatch = b :: bs ∧
      (b :: bs) ++ c.blocks.drop (position + (b :: bs).length - 1) =
        c.blocks.drop (position - 1) := by
  have batch := List.take_prefix resyncBatch (c.blocks.drop (position - 1))
  have more : 0 < ((c.blocks.drop (position - 1)).take resyncBatch).length := by
    simp only [Chain.count] at within
    simp [resyncBatch]
    omega
  rw [Chain.range_eq genesis positive]
  generalize (c.blocks.drop (position - 1)).take resyncBatch = bs at batch more
  cases bs with
  | nil => exact absurd more (Nat.lt_irrefl 0)
  | cons b bs =>
    have rest := List.prefix_iff_eq_append.mp batch
    rw [List.drop_drop, show position - 1 + (b :: bs).length = position + (b :: bs).length - 1 by
      omega] at rest
    exact ⟨b, bs, rfl, rest⟩

/-- By induction on what is left to read. -/
theorem includedFrom_ok {c : Chain} (genesis : c.first.height = 1) {position : Nat}
    (positive : 1 ≤ position) {s : Store} (stored : s.chain = c) {hashes : List Label}
    (read : (includedFrom position c.count s).1 = .ok hashes) :
    hashes = hashesIn (c.blocks.drop (position - 1)) := by
  rw [includedFrom] at read
  split at read
  · rename_i within
    obtain ⟨b, bs, range, rest⟩ := range_resyncBatch genesis positive within
    obtain ⟨same, looked⟩ := Store.reads_blocksInRange position resyncBatch s
    generalize Store.blocksInRange position resyncBatch s = found at read same looked
    obtain ⟨r, t⟩ := found
    cases r with
    | error e => cases read
    | ok batch =>
      cases (looked batch rfl).trans ((congrArg (·.range position resyncBatch) stored).trans range)
      simp only at read
      split at read
      · cases read
      · rename_i above u later
        cases read
        have tail := includedFrom_ok genesis (show 1 ≤ position + (b :: bs).length by omega)
          (same.trans stored) (congrArg Prod.fst later)
        rw [tail, ← rest, hashesIn, hashesIn, List.flatMap_append]
  · rename_i beyond
    cases read
    rw [List.drop_eq_nil_of_le (by simp only [Chain.count] at beyond; omega)]
    rfl
termination_by c.count + 1 - position
decreasing_by simp only [List.length_cons]; omega

theorem includedFrom_eq {c : Chain} (genesis : c.first.height = 1) {position : Nat}
    (positive : 1 ≤ position) : includedFrom position c.count (.ofChain c) =
      (.ok (hashesIn (c.blocks.drop (position - 1))), .ofChain c) := by
  obtain ⟨hashes, read⟩ := includedFrom_ofChain position c.count c
  rw [read, includedFrom_ok genesis positive rfl (congrArg Prod.fst read)]

/-- If the chain can be read, then what it holds is dropped; else the pool is as it was. -/
theorem resync_cases (p : Mempool) {s : Store} (genesis : s.chain.first.height = 1) :
    (∃ dropped, (p.resync s).1 = .ok dropped ∧ (p.resync s).2.1 = p.remaining s.chain) ∨
      ∃ e, (p.resync s).1 = .error e ∧ (p.resync s).2.1 = p := by
  obtain ⟨same, counted⟩ := Store.reads_count s
  unfold resync includedHashes
  generalize Store.count s = read at same counted
  obtain ⟨r, t⟩ := read
  cases r with
  | error e => exact .inr ⟨e, rfl, rfl⟩
  | ok count =>
    cases counted count rfl
    simp only at same ⊢
    rcases read : includedFrom 1 s.chain.count t with ⟨r, u⟩
    cases r with
    | error e => exact .inr ⟨e, rfl, rfl⟩
    | ok hashes =>
      have all := includedFrom_ok genesis (Nat.le_refl 1) same (congrArg Prod.fst read)
      rw [Nat.sub_self, List.drop_zero] at all
      exact .inl ⟨_, rfl, by rw [all]; rfl⟩

theorem resync_eq (p : Mempool) {c : Chain} (genesis : c.first.height = 1) :
    p.resync (.ofChain c) =
      (.ok (p.length - (p.remaining c).length), p.remaining c, .ofChain c) := by
  have included := includedFrom_eq genesis (Nat.le_refl 1)
  rw [Nat.sub_self, List.drop_zero] at included
  rw [resync, includedHashes, Store.count_ofChain]
  simp only [included]
  rfl

end Mempool

theorem Node.chain_resync (n : Node) : n.resync.2.store.chain = n.store.chain := by
  unfold resync
  cases n.poolLink with
  | own => exact n.pool.chain_resync n.store
  | elsewhere k => rfl
  | offline reason => rfl

/-- A node that compares its own pool with its chain drops what the chain holds, or the chain cannot
be read. -/
theorem Node.resync_cases {n : Node} (genesis : n.store.chain.first.height = 1)
    (own : n.poolLink = .own) :
    ∃ r p s, n.resync = (r, { n with pool := p, store := s }) ∧ s.chain = n.store.chain ∧
      ((∃ dropped, r = .ok dropped ∧ p = n.pool.remaining n.store.chain) ∨
        ∃ e, r = .error e ∧ p = n.pool) := by
  have same := n.pool.chain_resync n.store
  have outcome := n.pool.resync_cases genesis
  generalize compared : n.pool.resync n.store = read at same outcome
  obtain ⟨r, p, s⟩ := read
  refine ⟨r.mapError .store, p, s, ?_, same, ?_⟩
  · rw [resync, own]
    simp only [compared]
  · rcases outcome with ⟨dropped, rfl, rfl⟩ | ⟨e, rfl, rfl⟩
    · exact .inl ⟨dropped, rfl, rfl⟩
    · exact .inr ⟨_, rfl, rfl⟩

/-- A node whose pool can be reached compares it with its chain. -/
theorem Node.resync_ok {n : Node} {c : Chain} (stored : n.store = .ofChain c)
    (online : ∀ reason, n.poolLink ≠ .offline reason) :
    ∃ dropped n', n.resync = (.ok dropped, n') ∧ n'.store = .ofChain c ∧
      ∀ reason, n'.poolLink ≠ .offline reason := by
  cases link : n.poolLink with
  | own =>
    obtain ⟨dropped, kept, hr⟩ := n.pool.resync_ofChain c
    refine ⟨dropped, { n with pool := kept, store := .ofChain c }, ?_, rfl, online⟩
    rw [resync, link]
    simp only [stored, hr, Except.mapError]
  | elsewhere k =>
    refine ⟨0, { n with poolLink := .elsewhere (k + 1) }, ?_, stored, nofun⟩
    rw [resync, link]
  | offline reason => exact absurd link (online reason)

/-- What comparing its own pool with its chain makes of a node. -/
theorem Node.resync_own {n : Node} {c : Chain} (stored : n.store = .ofChain c)
    (genesis : c.first.height = 1) (own : n.poolLink = .own) :
    n.resync = (.ok (n.pool.length - (n.pool.remaining c).length),
      { n with pool := n.pool.remaining c }) := by
  have compared := n.pool.resync_eq genesis
  rw [← stored] at compared
  rw [resync, own]
  simp only [compared, Except.mapError]

end ChainNode
