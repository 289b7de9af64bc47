import ChainNode.Proofs.SeenCache.Origin

/-!
# Sweeping out what has expired

A sweep stops at the first fresh entry from the old end, so it is exact only while the order of the
entries is the order of their times. By a clock that does not go back it is: a write goes in front
with the latest time, also when it renews an expired key, and nothing else moves an entry. A key
that has expired is not refused any more, swept or not, so no later answer depends on a sweep.

* `InTimeOrder.run`, `inTimeOrder_runAll`: the order of the times, the step and the run.
* `InTimeOrder.purge_entries`: what a sweep leaves.
* `Trimmed.run`, `Trimmed.answers`: with and without expired entries at the old end.
-/
namespace ChainNode.SeenCache

variable {κ : Type}

/-- The entries stand in the order of their times, newest first, and none is of the future. -/
structure InTimeOrder (now : Nat) (c : SeenCache κ) : Prop where
  past : ∀ e ∈ c.entries, e.2 ≤ now
  order : c.entries.Pairwise (·.2 ≥ ·.2)

/-- `d` is `c` without some entries at the old end, all of which have expired. -/
structure Trimmed (now : Nat) (c d : SeenCache κ) : Prop where
  capacity : d.capacity = c.capacity
  ttl : d.ttl = c.ttl
  entries : ∃ gone, c.entries = d.entries ++ gone ∧ ∀ e ∈ gone, c.isFresh now e = false

variable {c d : SeenCache κ} {before now later : Nat}

theorem isFresh_eq_false_iff {e : κ × Nat} : c.isFresh now e = false ↔ c.ttl ≤ now - e.2 := by
  simp [isFresh]

theorem isFresh_of_newer {e older : κ × Nat} (newer : e.2 ≥ older.2)
    (fresh : c.isFresh now older = true) : c.isFresh now e = true := by
  simp only [isFresh, decide_eq_true_eq] at fresh ⊢
  omega

theorem isFresh_later {e : κ × Nat} (le : now ≤ later) (expired : c.isFresh now e = false) :
    c.isFresh later e = false := by
  rw [isFresh_eq_false_iff] at expired ⊢
  omega

/-- Dropping from the end is filtering, if whatever stands before a kept member is kept too. -/
theorem rdropWhile_eq_filter {α : Type} {keep : α → Bool} {l : List α}
    (closed : l.Pairwise fun a b => keep b = true → keep a = true) :
    l.rdropWhile (!keep ·) = l.filter keep := by
  induction l using List.reverseRecOn with
  | nil => rfl
  | append_singleton l last ih =>
    obtain ⟨init, -, upTo⟩ := List.pairwise_append.mp closed
    rw [List.rdropWhile_concat, List.filter_append]
    cases kept : keep last with
    | false => simp [kept, ih init]
    | true =>
      have all : l.filter keep = l :=
        List.filter_eq_self.mpr fun a ha => upTo a ha last (by simp) kept
      simp [kept, all]

namespace InTimeOrder

theorem mono (h : c.InTimeOrder before) (le : before ≤ now) : c.InTimeOrder now where
  past e he := Nat.le_trans (h.past e he) le
  order := h.order

theorem of_sublist (h : c.InTimeOrder now) (sub : d.entries.Sublist c.entries) :
    d.InTimeOrder now where
  past e he := h.past e (sub.subset he)
  order := h.order.sublist sub

/-- A sweep takes away what has expired and nothing else. -/
theorem purge_entries (h : c.InTimeOrder before) (now : Nat) :
    (c.purge now).2.entries = c.entries.filter (c.isFresh now) := by
  rw [purge_eq_rdropWhile]
  exact rdropWhile_eq_filter (h.order.imp isFresh_of_newer)

/-- It counts what it takes away. -/
theorem purge_count (h : c.InTimeOrder before) (now : Nat) :
    (c.purge now).1 = c.entries.countP fun e => c.ttl ≤ now - e.2 := by
  have parts := List.length_eq_countP_add_countP (c.isFresh now) (l := c.entries)
  have expired : c.entries.countP (fun e => ¬c.isFresh now e) =
      c.entries.countP fun e => c.ttl ≤ now - e.2 :=
    List.countP_congr fun e _ => by simp [isFresh]
  have removed : (c.purge now).1 = c.entries.length - (c.purge now).2.entries.length := rfl
  rw [h.purge_entries, ← List.countP_eq_length_filter] at removed
  omega

variable [DecidableEq κ]

/-- The key that is written stands in front, and no entry is of a later time. -/
theorem put (h : c.InTimeOrder now) (key : κ) : (c.put now key).InTimeOrder now := by
  have kept : ∀ e ∈ c.entries.filter (·.1 ≠ key), e.2 ≤ now :=
    fun e he => h.past e (List.mem_of_mem_filter he)
  have whole : InTimeOrder now { c with entries := (key, now) :: c.entries.filter (·.1 ≠ key) } :=
    ⟨List.forall_mem_cons.mpr ⟨Nat.le_refl now, kept⟩,
      List.pairwise_cons.mpr ⟨kept, h.order.filter _⟩⟩
  exact whole.of_sublist (List.take_sublist _ _)

/-- **Step.** No call disturbs the order of the times. -/
theorem run (h : c.InTimeOrder now) (call : Call κ) : (call.run now c).InTimeOrder now := by
  cases call with
  | look key => exact h
  | sweep => exact h.of_sublist (c.purge_prefix now).sublist
  | offer key =>
    rw [Call.run]
    cases seen : c.contains now key with
    | true => rw [insertIfAbsent_of_contains seen]; exact h
    | false => rw [insertIfAbsent_of_not_contains seen]; exact h.put key

end InTimeOrder

variable [DecidableEq κ]

/-- **Run.** By induction on the calls, from the last one backwards. -/
theorem inTimeOrder_runAll {calls : List (Nat × Call κ)} (none : c.entries = [])
    (clock : calls.Pairwise (·.1 ≤ ·.1)) (past : ∀ call ∈ calls, call.1 ≤ now) :
    (runAll calls c).InTimeOrder now := by
  induction calls using List.reverseRecOn generalizing now with
  | nil => exact ⟨by simp [runAll, none], by simp [runAll, none]⟩
  | append_singleton calls call ih =>
    obtain ⟨earlier, -, order⟩ := List.pairwise_append.mp clock
    rw [runAll_concat]
    have here := ih earlier fun first hfirst => order first hfirst call (by simp)
    exact (here.run call.2).mono (past call (by simp))

/-! ## Answers -/

/-- What a call says about its key; a sweep asks about none. -/
def Call.answer (now : Nat) (c : SeenCache κ) : Call κ → Option Bool
  | .offer key => some (c.insertIfAbsent now key).1
  | .look key => some (c.contains now key)
  | .sweep => none

/-- The answers to several calls. -/
def answers : List (Nat × Call κ) → SeenCache κ → List (Option Bool)
  | [], _ => []
  | (now, call) :: calls, c => call.answer now c :: answers calls (call.run now c)

namespace Trimmed

omit [DecidableEq κ] in
theorem of_purge (c : SeenCache κ) (now : Nat) : Trimmed now c (c.purge now).2 where
  capacity := rfl
  ttl := rfl
  entries := ⟨c.entries.rtakeWhile fun e => !c.isFresh now e,
    List.rdropWhile_append_rtakeWhile.symm,
    fun e he => by simpa using List.mem_rtakeWhile_imp he⟩

omit [DecidableEq κ] in
theorem mono (h : Trimmed now c d) (le : now ≤ later) : Trimmed later c d := by
  obtain ⟨gone, split, expired⟩ := h.entries
  exact ⟨h.capacity, h.ttl, gone, split, fun e he => isFresh_later le (expired e he)⟩

theorem contains (h : Trimmed now c d) (key : κ) : d.contains now key = c.contains now key := by
  obtain ⟨gone, split, expired⟩ := h.entries
  unfold SeenCache.contains
  rw [split, List.find?_append]
  cases kept : d.entries.find? (·.1 = key) with
  | some e => simp [isFresh, h.ttl]
  | none =>
    cases lost : gone.find? (·.1 = key) with
    | none => simp
    | some e => simp [expired e (List.mem_of_find?_eq_some lost)]

theorem answer (h : Trimmed now c d) (call : Call κ) : call.answer now d = call.answer now c := by
  cases call with
  | look key => simp [Call.answer, h.contains key]
  | sweep => rfl
  | offer key => simp [Call.answer, insertIfAbsent, h.contains key, apply_ite]

/-- A full cache loses its oldest first, and those are the entries that have expired. -/
theorem put (h : Trimmed now c d) (key : κ) : Trimmed now (c.put now key) (d.put now key) := by
  obtain ⟨gone, split, expired⟩ := h.entries
  let front : List (κ × Nat) := (key, now) :: d.entries.filter (·.1 ≠ key)
  refine ⟨h.capacity, h.ttl, (gone.filter (·.1 ≠ key)).take (c.capacity - front.length), ?_, ?_⟩
  · simp only [SeenCache.put, h.capacity, split, List.filter_append]
    rw [← List.cons_append]
    exact List.take_append
  · intro e he
    exact expired e (List.mem_of_mem_filter (List.mem_of_mem_take he))

omit [DecidableEq κ] in
/-- A sweep takes away from both what `d` does not have. -/
theorem purge (h : Trimmed now c d) : Trimmed now (c.purge now).2 (d.purge now).2 := by
  obtain ⟨gone, split, expired⟩ := h.entries
  refine ⟨h.capacity, h.ttl, [], ?_, by simp⟩
  have same : d.isFresh now = c.isFresh now := by
    funext e
    simp [isFresh, h.ttl]
  have swept : gone.reverse.dropWhile (fun e => !c.isFresh now e) = [] :=
    List.dropWhile_eq_nil_iff.mpr fun e he => by simp [expired e (List.mem_reverse.mp he)]
  simp only [SeenCache.purge, split, same, List.reverse_append, List.dropWhile_append, swept]
  simp

/-- **Step.** A call leaves two such caches as they are to each other. -/
theorem run (h : Trimmed now c d) (call : Call κ) :
    Trimmed now (call.run now c) (call.run now d) := by
  cases call with
  | look key => exact h
  | sweep => exact h.purge
  | offer key =>
    rw [Call.run, Call.run]
    cases seen : c.contains now key with
    | true =>
      rw [insertIfAbsent_of_contains seen, insertIfAbsent_of_contains ((h.contains key).trans seen)]
      exact h
    | false =>
      rw [insertIfAbsent_of_not_contains seen,
        insertIfAbsent_of_not_contains ((h.contains key).trans seen)]
      exact h.put key

/-- **Run.** By induction on the calls; what had expired has expired at each of them. -/
theorem answers (h : Trimmed now c d) {calls : List (Nat × Call κ)}
    (clock : calls.Pairwise (·.1 ≤ ·.1)) (future : ∀ call ∈ calls, now ≤ call.1) :
    SeenCache.answers calls d = SeenCache.answers calls c := by
  induction calls generalizing now c d with
  | nil => rfl
  | cons call calls ih =>
    obtain ⟨next, call⟩ := call
    obtain ⟨first, rest⟩ := List.pairwise_cons.mp clock
    have here := h.mono (future (next, call) List.mem_cons_self)
    rw [SeenCache.answers, SeenCache.answers, here.answer call, ih (here.run call) rest first]

end Trimmed

/-- **Sweeping is exact.** However a cache was used before, by a clock that does not go back: a
sweep takes away the entries whose age is the time to live or more, all of them and no younger one,
and tells how many these were. No answer that a key gets from then on is changed by it, not even
where newer keys push the oldest out. -/
theorem purge_exact (capacity ttl : Nat) {calls later : List (Nat × Call κ)} {now : Nat}
    (clock : (calls ++ (now, .sweep) :: later).Pairwise (·.1 ≤ ·.1)) :
    let c := runAll calls (empty capacity ttl)
    let swept := (c.purge now).2
    swept.entries = c.entries.filter (fun e => now - e.2 < ttl) ∧
      (c.purge now).1 = c.entries.countP (fun e => ttl ≤ now - e.2) ∧
      (c.purge now).1 + swept.length = c.length ∧
      answers later swept = answers later c := by
  intro c swept
  obtain ⟨before, fromNow, order⟩ := List.pairwise_append.mp clock
  obtain ⟨future, after⟩ := List.pairwise_cons.mp fromNow
  have lifetime : c.ttl = ttl := (capacity_runAll calls (empty capacity ttl)).2
  have past : ∀ call ∈ calls, call.1 ≤ now :=
    fun call hcall => order call hcall (now, .sweep) List.mem_cons_self
  have ordered : c.InTimeOrder now := inTimeOrder_runAll rfl before past
  have fewer : swept.length ≤ c.length := (c.purge_prefix now).length_le
  have removed : (c.purge now).1 = c.length - swept.length := rfl
  rw [← lifetime]
  refine ⟨ordered.purge_entries now, ordered.purge_count now, by omega, ?_⟩
  exact (Trimmed.of_purge c now).answers after future

/-- A cache for three keys, of which one was renewed after its time and one was pushed out: two of
the three that are left have expired, one of them at this very moment. -/
theorem purge_exact_two :
    let calls : List (Nat × Call Nat) := [(0, .offer 1), (0, .offer 2), (11, .offer 1),
      (12, .look 2), (12, .offer 3), (15, .offer 4)]
    let later : List (Nat × Call Nat) := [(22, .look 4), (22, .look 3), (23, .offer 3),
      (24, .offer 4), (25, .sweep), (26, .offer 4), (26, .offer 1), (27, .offer 2), (28, .offer 3)]
    let c := runAll calls (empty 3 10)
    (calls ++ (22, .sweep) :: later).Pairwise (·.1 ≤ ·.1) ∧
      c.entries = [(4, 15), (3, 12), (1, 11)] ∧
      (c.purge 22).2.entries = [(4, 15)] ∧ (c.purge 22).1 = 2 ∧
      answers later (c.purge 22).2 = answers later c ∧
      answers later c = [some true, some false, some true, some false, none, some true, some true,
        some true, some true] := by
  intro calls later c
  have clock : (calls ++ (22, .sweep) :: later).Pairwise (·.1 ≤ ·.1) := by decide
  obtain ⟨kept, count, -, same⟩ := purge_exact 3 10 clock
  exact ⟨clock, by decide, kept.trans (by decide), count.trans (by decide), same, by decide⟩

end ChainNode.SeenCache
