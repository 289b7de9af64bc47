import ChainNode.Proofs.Mempool

/-!
# The pool as a queue

Since no hash occurs twice, there is one order of what is pending in which times and hashes ascend.
So a pool is as good as a queue: blocks take what stands in front, and what was taken leaves the
rest of the queue. It does not matter in which order the transactions came in.

* `Queued.eq`: the order is unique.
* `Queued.next_eq`, `Queued.drop`: taking from the front.
* `queued_submitAll`: the queue that comes of submitting transactions.
-/
namespace ChainNode.Mempool

/-- `queue` is what is pending, in the order in which blocks take it. -/
structure Queued (queue : List Transaction) (p : Mempool) : Prop where
  perm : queue.Perm p.pending
  ordered : queue.Pairwise (earlier · ·)
  keyed : p.Keyed

/-- The pool after several submissions. -/
def submitAll (ts : List Transaction) (p : Mempool) : Mempool :=
  ts.foldl (fun p t => (p.submit t).2) p

theorem hash_eq_of_earlier {a b : Transaction} (le : earlier a b = true)
    (ge : earlier b a = true) : a.hash = b.hash :=
  congrArg Prod.snd (keyLE_antisymm Label.le_antisymm _ _ le ge)

namespace Queued

variable {p : Mempool} {queue queue' : List Transaction}

theorem distinct (h : Queued queue p) : (queue.map Transaction.hash).Nodup :=
  (h.perm.map _).nodup_iff.mpr h.keyed

theorem eq (h : Queued queue p) (h' : Queued queue' p) : queue = queue' := by
  refine (h.perm.trans h'.perm.symm).eq_of_pairwise ?_ h.ordered h'.ordered
  intro a b ha hb le ge
  exact List.inj_on_of_nodup_map h.keyed (h.perm.subset ha) (h'.perm.subset hb)
    (hash_eq_of_earlier le ge)

theorem sorted (keyed : p.Keyed) : Queued (p.pending.mergeSort earlier) p :=
  ⟨List.mergeSort_perm _ _, List.pairwise_mergeSort earlier_trans earlier_total _, keyed⟩

theorem next_eq (h : Queued queue p) (limit : Nat) : p.next limit = queue.take limit := by
  rw [next, (sorted h.keyed).eq h]

/-- A pool that is cleared of what stands in front has the rest of the queue left. -/
theorem drop (h : Queued queue p) (k : Nat) {p' : Mempool} (cleared : p'.pending =
    p.pending.filter (·.hash ∉ (queue.take k).map Transaction.hash)) :
    Queued (queue.drop k) p' := by
  have front : queue.take k ⊆ p.pending := fun t ht => h.perm.subset (List.mem_of_mem_take ht)
  have distinct := h.distinct.sublist ((List.take_sublist k queue).map _)
  have parts := h.keyed.perm_removeIncluded distinct front
  rw [pending_removeIncluded, ← cleared] at parts
  have perm : (queue.drop k).Perm p'.pending := by
    refine (List.perm_append_left_iff (queue.take k)).mp ?_
    rw [List.take_append_drop]
    exact h.perm.trans parts
  exact ⟨perm, h.ordered.sublist (List.drop_sublist k queue),
    (perm.map _).nodup_iff.mp (h.distinct.sublist ((List.drop_sublist k queue).map _))⟩

end Queued

/-! ## Filling the pool -/

theorem isCorrect_of_submit {t : Transaction} {p : Mempool} (h : (p.submit t).1 = true) :
    t.isCorrect = true := by
  unfold submit at h
  split at h
  · rename_i taken
    simp at taken
    exact taken.1
  · cases h

/-- Transactions with new hashes are all taken. -/
theorem pending_submitAll {ts : List Transaction} {p : Mempool}
    (correct : ∀ t ∈ ts, t.isCorrect = true)
    (distinct : ((p.pending ++ ts).map Transaction.hash).Nodup) :
    (p.submitAll ts).pending = p.pending ++ ts := by
  induction ts generalizing p with
  | nil => exact (List.append_nil _).symm
  | cons t ts ih =>
    obtain ⟨here, others⟩ := List.forall_mem_cons.mp correct
    rw [List.append_cons] at distinct
    have absent : ∀ t' ∈ p.pending, t'.hash ≠ t.hash := by
      rw [List.map_append, List.nodup_append, List.map_append, List.nodup_append] at distinct
      intro t' pending
      exact distinct.1.2.2 _ (List.mem_map_of_mem pending) _ (by simp)
    rw [List.append_cons, submitAll, List.foldl_cons, submit_of_absent here absent]
    exact ih others distinct

theorem queued_submitAll {ts submitted : List Transaction}
    (distinct : (ts.map Transaction.hash).Nodup)
    (accepted : ∀ t ∈ ts, (empty.submit t).1 = true) (order : submitted.Perm ts) :
    Queued (ts.mergeSort earlier) (empty.submitAll submitted) := by
  have pending : (empty.submitAll submitted).pending = submitted := by
    refine pending_submitAll ?_ ?_
    · exact fun t ht => isCorrect_of_submit (accepted t (order.subset ht))
    · exact (order.map _).nodup_iff.mpr distinct
  refine ⟨?_, List.pairwise_mergeSort earlier_trans earlier_total _, ?_⟩
  · rw [pending]
    exact (List.mergeSort_perm _ _).trans order.symm
  · rw [Keyed, pending]
    exact (order.map _).nodup_iff.mpr distinct

end ChainNode.Mempool
