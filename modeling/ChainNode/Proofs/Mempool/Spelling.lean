import ChainNode.Proofs.Fingerprint
import ChainNode.Proofs.Mempool.Queue

/-!
# One transfer under several spellings

A transaction names itself by its hash whatever the letter case, while the pool tells transactions
apart by the text of the hash. So the pool holds no text twice, but it can hold a transfer under
several spellings of its name. That is the only way: what a pool hands out with one body differs
in the letter case of the hash alone, and the later of the two was taken while the earlier was
waiting. And it happens each time: another spelling of what is waiting is taken, and both are
handed out.

* `Respelled`: the same transfer under another spelling at most.
* `Sound.run`: what one call keeps, the step; `sound_runAll`, `takenBeside_of_mem`: the run.
* `twice_only_respelled`: which transfers are handed out twice.
-/
namespace ChainNode

namespace Transaction

/-- The two agree in all but the hash, and there up to letter case. -/
structure Respelled (a b : Transaction) : Prop where
  fields : a = { b with hash := a.hash }
  spelling : sameHash a.hash b.hash = true

variable {a b : Transaction}

theorem Respelled.body_eq (h : Respelled a b) : a.body = b.body := by
  rw [h.fields]
  rfl

theorem Respelled.isCorrect (h : Respelled a b) (correct : b.isCorrect = true) :
    a.isCorrect = true := by
  rw [Transaction.isCorrect, computedHash, h.body_eq]
  exact sameHash_trans correct (sameHash_symm h.spelling)

/-- A body says everything but how its own hash is spelled. -/
theorem respelled_of_body_eq (ha : a.isCorrect = true) (hb : b.isCorrect = true)
    (same : a.body = b.body) : Respelled a b where
  fields := eq_of_body_eq same
  spelling := by
    rw [Transaction.isCorrect, computedHash, same] at ha
    exact sameHash_trans (sameHash_symm ha) hb

/-- The same transaction, its hash in capitals. -/
def capitals (t : Transaction) : Transaction :=
  { t with hash := .ofString (String.ofList (t.hash.chars.toList.map Char.toUpper)) }

end Transaction

namespace Mempool

open Transaction (Respelled respelled_of_body_eq)

/-- What is asked of a pool: to take a transaction, to remove what a block includes, to compare
itself with a store in whatever state. -/
inductive Call where
  | submit (t : Transaction)
  | removeIncluded (hashes : List Label)
  | resync (s : Store)

def Call.run : Call → Mempool → Mempool
  | .submit t, p => (p.submit t).2
  | .removeIncluded hashes, p => (Mempool.removeIncluded hashes p).2
  | .resync s, p => (p.resync s).2.1

/-- The pool after several calls. -/
def runAll (calls : List Call) (p : Mempool) : Mempool := calls.foldl (fun p call => call.run p) p

theorem runAll_concat (calls : List Call) (call : Call) (p : Mempool) :
    runAll (calls ++ [call]) p = call.run (runAll calls p) := by
  rw [runAll, List.foldl_append]
  rfl

/-! ## What one call does -/

variable {p : Mempool} {a b t : Transaction}

theorem submit_of_mem (taken : a ∈ (p.submit t).2.pending) (new : a ∉ p.pending) :
    a = t ∧ (p.submit t).1 = true := by
  unfold submit at taken ⊢
  split at taken
  · rename_i accepted
    rw [if_pos accepted]
    exact ⟨by simpa [new] using taken, rfl⟩
  · exact absurd taken new

theorem resync_sublist (p : Mempool) (s : Store) :
    (p.resync s).2.1.pending.Sublist p.pending := by
  unfold resync
  split
  · exact .refl _
  · exact List.filter_sublist

theorem removeIncluded_sublist (hashes : List Label) (p : Mempool) :
    (Mempool.removeIncluded hashes p).2.pending.Sublist p.pending := by
  rw [pending_removeIncluded]
  exact List.filter_sublist

/-- Nothing but a submission that is accepted brings a transaction in. -/
theorem Call.mem_run {call : Call} (here : a ∈ (call.run p).pending) :
    a ∈ p.pending ∨ call = .submit a ∧ (p.submit a).1 = true := by
  by_cases waiting : a ∈ p.pending
  · exact .inl waiting
  · cases call with
    | submit t =>
      rw [Call.run] at here
      obtain ⟨rfl, accepted⟩ := submit_of_mem here waiting
      exact .inr ⟨rfl, accepted⟩
    | removeIncluded hashes => exact .inl ((removeIncluded_sublist hashes p).subset here)
    | resync s => exact .inl ((resync_sublist p s).subset here)

/-- No text of a hash occurs twice, and each is the name of its transaction. -/
structure Sound (p : Mempool) : Prop where
  keyed : p.Keyed
  correct : ∀ t ∈ p.pending, t.isCorrect = true

/-- **Step.** -/
theorem Sound.run (h : p.Sound) (call : Call) : (call.run p).Sound where
  keyed := by
    cases call with
    | submit t => exact h.keyed.submit t
    | removeIncluded hashes => exact h.keyed.sublist ((removeIncluded_sublist hashes p).map _)
    | resync s => exact h.keyed.sublist ((resync_sublist p s).map _)
  correct t here := by
    rcases Call.mem_run here with waiting | ⟨-, accepted⟩
    · exact h.correct t waiting
    · exact isCorrect_of_submit accepted

/-! ## What any calls do -/

/-- **Run.** -/
theorem sound_runAll (calls : List Call) : (runAll calls empty).Sound := by
  induction calls using List.reverseRecOn with
  | nil => exact ⟨List.nodup_nil, nofun⟩
  | append_singleton calls call ih => rw [runAll_concat]; exact ih.run call

/-- Among the calls `b` was accepted while `a` was waiting. -/
def TakenBeside (calls : List Call) (a b : Transaction) : Prop :=
  ∃ before after, calls = before ++ .submit b :: after ∧
    a ∈ (runAll before empty).pending ∧ ((runAll before empty).submit b).1 = true

theorem TakenBeside.concat {calls : List Call} (h : TakenBeside calls a b) (call : Call) :
    TakenBeside (calls ++ [call]) a b := by
  obtain ⟨before, after, split, waiting, accepted⟩ := h
  exact ⟨before, after ++ [call], by simp [split], waiting, accepted⟩

/-- Of two transactions in the pool one came in first, and was there when the other came. By
induction on the calls, from the last one backwards. -/
theorem takenBeside_of_mem {calls : List Call} (ha : a ∈ (runAll calls empty).pending)
    (hb : b ∈ (runAll calls empty).pending) (differ : a ≠ b) :
    TakenBeside calls a b ∨ TakenBeside calls b a := by
  induction calls using List.reverseRecOn with
  | nil => cases ha
  | append_singleton calls call ih =>
    rw [runAll_concat] at ha hb
    rcases Call.mem_run ha with waiting | ⟨rfl, accepted⟩
    · rcases Call.mem_run hb with waiting' | ⟨rfl, accepted⟩
      · exact (ih waiting waiting').imp (·.concat call) (·.concat call)
      · exact .inl ⟨calls, [], rfl, waiting, accepted⟩
    · rcases Call.mem_run hb with waiting | ⟨same, -⟩
      · exact .inr ⟨calls, [], rfl, waiting, accepted⟩
      · exact absurd (Call.submit.inj same) differ

/-- Two transactions that are told apart: a common body means two spellings of one name, the later
of which was accepted while the earlier was waiting. -/
def Apart (calls : List Call) (a b : Transaction) : Prop :=
  a.hash ≠ b.hash ∧
    (a.body = b.body → Respelled a b ∧ (TakenBeside calls a b ∨ TakenBeside calls b a))

theorem apart_of_mem {calls : List Call} (ha : a ∈ (runAll calls empty).pending)
    (hb : b ∈ (runAll calls empty).pending) (differ : a.hash ≠ b.hash) : Apart calls a b := by
  have sound := sound_runAll calls
  refine ⟨differ, fun same => ?_⟩
  exact ⟨respelled_of_body_eq (sound.correct a ha) (sound.correct b hb) same,
    takenBeside_of_mem ha hb fun equal => differ (congrArg Transaction.hash equal)⟩

theorem pairwise_apart {calls : List Call} {ts : List Transaction}
    (keyed : (ts.map Transaction.hash).Nodup) (held : ts ⊆ (runAll calls empty).pending) :
    ts.Pairwise (Apart calls) :=
  (List.pairwise_map.mp keyed).imp_of_mem fun ha hb differ =>
    apart_of_mem (held ha) (held hb) differ

/-! ## Another spelling is taken -/

/-- A spelling that the pool does not hold is accepted beside the one that is waiting. -/
theorem Sound.submit_respelled (h : p.Sound) (waiting : a ∈ p.pending) (other : Respelled b a)
    (absent : ∀ t ∈ p.pending, t.hash ≠ b.hash) :
    p.submit b = (true, ⟨p.pending ++ [b]⟩) :=
  submit_of_absent (other.isCorrect (h.correct a waiting)) absent

theorem next_of_length_le {limit : Nat} (all : p.length ≤ limit) :
    (p.next limit).Perm p.pending := by
  rw [next, List.take_of_length_le (by rwa [List.length_mergeSort])]
  exact List.mergeSort_perm _ _

/-- **A pool holds each spelling once, but a transfer as often as it is spelled anew.** After any
calls, what is waiting or handed out together differs in the text of the hash, and two of it have
one body only as two spellings, the later accepted while the earlier was waiting. Each further
spelling of what is waiting is accepted, and then both are handed out. -/
theorem twice_only_respelled (calls : List Call) :
    (runAll calls empty).pending.Pairwise (Apart calls) ∧
    (∀ limit, ((runAll calls empty).next limit).Pairwise (Apart calls)) ∧
    ∀ a ∈ (runAll calls empty).pending, ∀ b, Respelled b a →
      (∀ t ∈ (runAll calls empty).pending, t.hash ≠ b.hash) →
      ((runAll calls empty).submit b).1 = true ∧ a ≠ b ∧ a.body = b.body ∧
        [a, b] ⊆ (runAll (calls ++ [.submit b]) empty).next ((runAll calls empty).length + 1) := by
  have sound := sound_runAll calls
  refine ⟨pairwise_apart sound.keyed (List.Subset.refl _), fun limit => ?_, ?_⟩
  · have queue := Queued.sorted sound.keyed
    rw [queue.next_eq limit]
    exact pairwise_apart (queue.distinct.sublist ((List.take_sublist _ _).map _))
      fun t ht => queue.perm.subset (List.mem_of_mem_take ht)
  · intro a waiting b other absent
    have taken := sound.submit_respelled waiting other absent
    refine ⟨congrArg Prod.fst taken, ?_, other.body_eq.symm, ?_⟩
    · rintro rfl
      exact absent a waiting rfl
    · rw [runAll_concat, Call.run, taken]
      have handed : (next ⟨(runAll calls empty).pending ++ [b]⟩
          ((runAll calls empty).length + 1)).Perm ((runAll calls empty).pending ++ [b]) :=
        next_of_length_le (by simp [length])
      refine List.Subset.trans ?_ handed.symm.subset
      simp [waiting]

/-- A transaction that moves nothing. -/
def idle : Transaction := .create (.ofString "sender") 0 .empty .empty

/-- A transaction and its copy in capitals wait side by side and are handed out together. -/
theorem twice_only_respelled_capitals :
    idle ∈ (runAll [.submit idle] empty).pending ∧ Respelled idle.capitals idle ∧
      (∀ t ∈ (runAll [.submit idle] empty).pending, t.hash ≠ idle.capitals.hash) ∧
      ((runAll [.submit idle] empty).submit idle.capitals).1 = true ∧
      idle ≠ idle.capitals ∧ idle.body = idle.capitals.body ∧
      [idle, idle.capitals] ⊆
        (runAll [.submit idle, .submit idle.capitals] empty).next
          ((runAll [.submit idle] empty).length + 1) := by
  have correct : idle.isCorrect = true := Transaction.isCorrect_create _ _ _ _
  have spellings : sameHash idle.capitals.hash idle.hash = true ∧
      idle.hash ≠ idle.capitals.hash := by
    decide +kernel
  -- from here on it does not matter which transaction it is
  generalize idle = t at correct spellings ⊢
  have other : Respelled t.capitals t := ⟨rfl, spellings.1⟩
  have alone : runAll [.submit t] empty = ⟨[t]⟩ := by
    have taken := submit_of_absent (p := empty) correct (by simp [empty])
    rw [runAll, List.foldl_cons, List.foldl_nil, Call.run, taken]
    rfl
  have waiting : t ∈ (runAll [.submit t] empty).pending := by simp [alone]
  have absent : ∀ s ∈ (runAll [.submit t] empty).pending, s.hash ≠ t.capitals.hash := by
    simpa [alone] using spellings.2
  exact ⟨waiting, other, absent,
    (twice_only_respelled [.submit t]).2.2 t waiting _ other absent⟩

end Mempool

end ChainNode
