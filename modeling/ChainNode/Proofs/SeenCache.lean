import Mathlib.Data.Finset.Card
import Mathlib.Data.Finset.Dedup
import Mathlib.Data.List.DropRight
import ChainNode.SeenCache

/-!
# How long a key is remembered

A key that was written stays in the cache, with its time, until it expires or until newer keys have
filled the cache up to its capacity. Sweeping cannot take it away earlier, because a sweep ends at
the first entry that is fresh, and it is one; looking keys up moves nothing.

* `Remembers`: a key is in the cache, behind the keys that are newer.
* `Call.run_remembers`: what one call does to it, the step.
* `runAll_remembers`: what any calls do to it, the run.
* `readmitted_after_capacity`: a key is admitted twice within its time to live only if as many
  others as the cache holds were admitted in between.
-/
namespace ChainNode.SeenCache

variable {κ : Type}

/-- What a cache is asked to do: take a key that it does not hold, look a key up, sweep. -/
inductive Call (κ : Type) where
  | offer (key : κ)
  | look (key : κ)
  | sweep
  deriving DecidableEq, Repr

/-- A sweep drops entries from the old end. -/
theorem purge_eq_rdropWhile (c : SeenCache κ) (now : Nat) :
    (c.purge now).2.entries = c.entries.rdropWhile fun e => !c.isFresh now e := rfl

theorem purge_prefix (c : SeenCache κ) (now : Nat) : (c.purge now).2.entries <+: c.entries :=
  List.rdropWhile_prefix _ _

variable [DecidableEq κ]

/-- The cache after a call at time `now`. -/
def Call.run (now : Nat) : Call κ → SeenCache κ → SeenCache κ
  | .offer key, c => (c.insertIfAbsent now key).2
  | .look _, c => c
  | .sweep, c => (c.purge now).2

/-- The key that a call admits, if it admits one. -/
def Call.admits (now : Nat) (c : SeenCache κ) : Call κ → List κ
  | .offer key => if (c.insertIfAbsent now key).1 then [key] else []
  | .look _ => []
  | .sweep => []

/-- The cache after several calls, each with its time. -/
def runAll (calls : List (Nat × Call κ)) (c : SeenCache κ) : SeenCache κ :=
  calls.foldl (fun c call => call.2.run call.1 c) c

/-- The keys that several calls admit. -/
def admitted : List (Nat × Call κ) → SeenCache κ → List κ
  | [], _ => []
  | (now, call) :: calls, c => call.admits now c ++ admitted calls (call.run now c)

/-! ## What does not change, and the bound -/

theorem insertIfAbsent_of_contains {c : SeenCache κ} {now : Nat} {key : κ}
    (seen : c.contains now key = true) : c.insertIfAbsent now key = (false, c) := if_pos seen

theorem insertIfAbsent_of_not_contains {c : SeenCache κ} {now : Nat} {key : κ}
    (unseen : c.contains now key = false) : c.insertIfAbsent now key = (true, c.put now key) :=
  if_neg (by simp [unseen])

theorem contains_iff_refused {c : SeenCache κ} {now : Nat} {key : κ} :
    c.contains now key = true ↔ (c.insertIfAbsent now key).1 = false := by
  cases seen : c.contains now key with
  | true => simp [insertIfAbsent_of_contains seen]
  | false => simp [insertIfAbsent_of_not_contains seen]

theorem Call.capacity_run (now : Nat) (call : Call κ) (c : SeenCache κ) :
    (call.run now c).capacity = c.capacity ∧ (call.run now c).ttl = c.ttl := by
  cases call with
  | offer key =>
    rw [run]
    cases seen : c.contains now key with
    | true => rw [insertIfAbsent_of_contains seen]; exact ⟨rfl, rfl⟩
    | false => rw [insertIfAbsent_of_not_contains seen]; exact ⟨rfl, rfl⟩
  | look key => exact ⟨rfl, rfl⟩
  | sweep => exact ⟨rfl, rfl⟩

theorem capacity_runAll (calls : List (Nat × Call κ)) (c : SeenCache κ) :
    (runAll calls c).capacity = c.capacity ∧ (runAll calls c).ttl = c.ttl := by
  induction calls generalizing c with
  | nil => exact ⟨rfl, rfl⟩
  | cons call calls ih =>
    obtain ⟨capacity, ttl⟩ := call.2.capacity_run call.1 c
    obtain ⟨capacity', ttl'⟩ := ih (call.2.run call.1 c)
    exact ⟨capacity'.trans capacity, ttl'.trans ttl⟩

/-- Nothing but a write adds an entry, and a write keeps to the bound. -/
theorem Call.length_run_le (now : Nat) (call : Call κ) {c : SeenCache κ}
    (bound : c.length ≤ c.capacity) : (call.run now c).length ≤ c.capacity := by
  cases call with
  | offer key =>
    rw [run]
    cases seen : c.contains now key with
    | true => rwa [insertIfAbsent_of_contains seen]
    | false => rw [insertIfAbsent_of_not_contains seen]; exact c.length_put_le now key
  | look key => exact bound
  | sweep => exact Nat.le_trans (c.purge_prefix now).length_le bound

theorem length_runAll_le (calls : List (Nat × Call κ)) {c : SeenCache κ}
    (bound : c.length ≤ c.capacity) : (runAll calls c).length ≤ c.capacity := by
  induction calls generalizing c with
  | nil => exact bound
  | cons call calls ih =>
    obtain ⟨capacity, -⟩ := call.2.capacity_run call.1 c
    have here := call.2.length_run_le call.1 bound
    exact capacity ▸ ih (by rwa [capacity])

/-! ## A key in the cache -/

/-- The cache holds `key`, written at time `t`, behind the entries `newer`, whose keys are different
ones. -/
structure Remembers (key : κ) (t : Nat) (newer : List (κ × Nat)) (c : SeenCache κ) : Prop where
  entries : ∃ older, c.entries = newer ++ (key, t) :: older
  distinct : (newer.map Prod.fst).Nodup
  other : key ∉ newer.map Prod.fst

/-- The keys of entries. -/
def keys (entries : List (κ × Nat)) : Finset κ := (entries.map Prod.fst).toFinset

namespace Remembers

variable {key k : κ} {t now : Nat} {newer : List (κ × Nat)} {c : SeenCache κ}

/-- As long as the key has not expired it is found. -/
theorem contains (h : c.Remembers key t newer) (fresh : now - t < c.ttl) :
    c.contains now key = true := by
  obtain ⟨older, entries⟩ := h.entries
  have ahead : newer.find? (·.1 = key) = none := by
    refine List.find?_eq_none.mpr fun e he => ?_
    simpa using fun same : e.1 = key => h.other (same ▸ List.mem_map_of_mem he)
  have found : c.entries.find? (·.1 = key) = some (key, t) := by
    rw [entries, List.find?_append, ahead]
    simp
  rw [SeenCache.contains, found]
  exact decide_eq_true fresh

/-- A key that has just been written is the newest. -/
theorem of_put (c : SeenCache κ) (t : Nat) (key : κ) (room : 1 ≤ c.capacity) :
    (c.put t key).Remembers key t [] where
  entries := by
    obtain ⟨n, capacity⟩ := Nat.exists_eq_add_of_le' room
    exact ⟨_, by rw [put, capacity, List.take_succ_cons, List.nil_append]⟩
  distinct := List.nodup_nil
  other := List.not_mem_nil

omit [DecidableEq κ] in
/-- A sweep ends at the key at the latest, and so before the entries that are newer. -/
theorem purge (h : c.Remembers key t newer) (fresh : now - t < c.ttl) :
    (c.purge now).2.Remembers key t newer := by
  obtain ⟨older, entries⟩ := h.entries
  refine ⟨⟨(older.reverse.dropWhile fun e => !c.isFresh now e).reverse, ?_⟩, h.distinct, h.other⟩
  have stays : c.isFresh now (key, t) = true := decide_eq_true fresh
  show (c.entries.reverse.dropWhile fun e => !c.isFresh now e).reverse = _
  rw [entries, List.reverse_append, List.reverse_cons, List.append_assoc, List.dropWhile_append]
  split
  · rename_i swept
    rw [List.isEmpty_iff.mp swept, List.singleton_append,
      List.dropWhile_cons_of_neg (by simp [stays])]
    simp
  · simp

/-- Writing another key moves it to the front. The key stays behind it if there is room; if not, the
keys before it fill the cache. -/
theorem put (h : c.Remembers key t newer) (different : k ≠ key) (now : Nat) :
    (∃ newer', (c.put now k).Remembers key t newer' ∧ keys newer' ⊆ insert k (keys newer)) ∨
      c.capacity ≤ (insert k (keys newer)).card := by
  obtain ⟨older, entries⟩ := h.entries
  let front : List (κ × Nat) := (k, now) :: newer.filter (·.1 ≠ k)
  have distinct : (front.map Prod.fst).Nodup := by
    refine List.nodup_cons.mpr ⟨by simp, ?_⟩
    exact h.distinct.sublist (List.filter_sublist.map _)
  have subset : keys front ⊆ insert k (keys newer) := by
    intro x hx
    simp only [keys, front, List.map_cons, List.toFinset_cons, Finset.mem_insert,
      List.mem_toFinset] at hx ⊢
    exact hx.imp id fun held => (List.filter_sublist.map _).subset held
  have written : (c.put now k).entries =
      (front ++ (key, t) :: older.filter (·.1 ≠ k)).take c.capacity := by
    rw [SeenCache.put, entries]
    simp [front, different.symm]
  by_cases room : front.length < c.capacity
  · refine .inl ⟨front, ⟨⟨(older.filter (·.1 ≠ k)).take (c.capacity - front.length - 1), ?_⟩,
      distinct, ?_⟩, subset⟩
    · obtain ⟨n, capacity⟩ := Nat.exists_eq_add_of_lt room
      rw [written, List.take_append, List.take_of_length_le (by omega), capacity,
        show front.length + n + 1 - front.length = n + 1 by omega, List.take_succ_cons]
      rfl
    · intro ahead
      rcases List.mem_cons.mp ahead with same | ahead
      · exact different same.symm
      · exact h.other ((List.filter_sublist.map _).subset ahead)
  · refine .inr (Nat.le_trans (Nat.le_of_not_lt room) ?_)
    have size : (keys front).card = front.length := by
      rw [keys, List.toFinset_card_of_nodup distinct, List.length_map]
    exact size ▸ Finset.card_le_card subset

end Remembers

/-! ## Calls -/

variable {key : κ} {t now : Nat} {newer : List (κ × Nat)} {c : SeenCache κ}

/-- **Step.** While a key is fresh a call leaves it in the cache, behind what was newer and what the
call admits, or these fill the cache. -/
theorem Call.run_remembers (h : c.Remembers key t newer) (fresh : now - t < c.ttl) (call : Call κ) :
    (∃ newer', (call.run now c).Remembers key t newer' ∧
        keys newer' ⊆ keys newer ∪ (call.admits now c).toFinset) ∨
      c.capacity ≤ ((keys newer ∪ (call.admits now c).toFinset).erase key).card := by
  cases call with
  | look k => exact .inl ⟨newer, h, Finset.subset_union_left⟩
  | sweep => exact .inl ⟨newer, h.purge fresh, Finset.subset_union_left⟩
  | offer k =>
    rw [run, admits]
    cases seen : c.contains now k with
    | true =>
      rw [insertIfAbsent_of_contains seen]
      exact .inl ⟨newer, h, Finset.subset_union_left⟩
    | false =>
      have different : k ≠ key := by
        rintro rfl
        simp [h.contains fresh] at seen
      have absent : key ∉ insert k (keys newer) := by
        rw [Finset.mem_insert, keys, List.mem_toFinset]
        exact not_or.mpr ⟨different.symm, h.other⟩
      have together : keys newer ∪ [k].toFinset = insert k (keys newer) := by
        simp [Finset.union_comm _ {k}]
      rw [insertIfAbsent_of_not_contains seen, if_pos rfl, together,
        Finset.erase_eq_of_notMem absent]
      exact h.put different now

/-- **Run.** By induction on the calls, for any entries that are newer at their beginning. -/
theorem runAll_remembers {calls : List (Nat × Call κ)} (h : c.Remembers key t newer)
    (fresh : ∀ call ∈ calls, call.1 - t < c.ttl) :
    (∃ newer', (runAll calls c).Remembers key t newer') ∨
      c.capacity ≤ ((keys newer ∪ (admitted calls c).toFinset).erase key).card := by
  induction calls generalizing c newer with
  | nil => exact .inl ⟨newer, h⟩
  | cons call calls ih =>
    obtain ⟨now, call⟩ := call
    obtain ⟨here, later⟩ := List.forall_mem_cons.mp fresh
    obtain ⟨capacity, ttl⟩ := call.capacity_run now c
    have enlarge : ∀ {s : Finset κ}, s ⊆ keys newer ∪ (admitted ((now, call) :: calls) c).toFinset →
        c.capacity ≤ (s.erase key).card →
        c.capacity ≤ ((keys newer ∪ (admitted ((now, call) :: calls) c).toFinset).erase key).card :=
      fun sub large => large.trans (Finset.card_le_card (Finset.erase_subset_erase key sub))
    simp only [admitted, List.toFinset_append] at enlarge ⊢
    rcases call.run_remembers h here with ⟨newer', h', sub⟩ | full
    · rcases ih h' (by rwa [ttl]) with remembered | full
      · exact .inl remembered
      · refine .inr (enlarge ?_ (capacity ▸ full))
        rw [← Finset.union_assoc]
        exact Finset.union_subset_union_left sub
    · refine .inr (enlarge ?_ full)
      exact Finset.union_subset_union_right Finset.subset_union_left

/-- **Duplicates are suppressed.** However a cache is used, by a clock that does not go back: if a
key is admitted twice within its time to live, at least as many other keys as the cache can hold
were admitted in between. The cache never holds more keys than that, and at any time a key is in it
exactly if it would be refused. -/
theorem readmitted_after_capacity (capacity ttl : Nat) {calls : List (Nat × Call κ)}
    (clock : calls.Pairwise (·.1 ≤ ·.1)) :
    (∀ (before between after : List (Nat × Call κ)) (t₁ t₂ : Nat) (key : κ),
      calls = before ++ (t₁, .offer key) :: (between ++ (t₂, .offer key) :: after) →
      t₂ - t₁ < ttl →
      let first := runAll before (empty capacity ttl)
      let second := runAll between (first.insertIfAbsent t₁ key).2
      (first.insertIfAbsent t₁ key).1 = true → (second.insertIfAbsent t₂ key).1 = true →
      max capacity 1 ≤
        ((admitted between (first.insertIfAbsent t₁ key).2).toFinset.erase key).card) ∧
    (runAll calls (empty capacity ttl)).length ≤ max capacity 1 ∧
    ∀ (now : Nat) (key : κ), (runAll calls (empty capacity ttl)).contains now key = true ↔
      ((runAll calls (empty capacity ttl)).insertIfAbsent now key).1 = false := by
  refine ⟨?_, length_runAll_le calls (Nat.zero_le _), fun _ _ => contains_iff_refused⟩
  intro before between after t₁ t₂ key split within first second admitted₁ admitted₂
  obtain ⟨size, lifetime⟩ := capacity_runAll before (empty (κ := κ) capacity ttl)
  have written : first.insertIfAbsent t₁ key = (true, first.put t₁ key) := by
    cases seen : first.contains t₁ key with
    | true =>
      rw [contains_iff_refused.mp seen] at admitted₁
      cases admitted₁
    | false => exact insertIfAbsent_of_not_contains seen
  have capacity_put : (first.put t₁ key).capacity = max capacity 1 := size
  have ttl_put : (first.put t₁ key).ttl = ttl := lifetime
  have remembered : (first.put t₁ key).Remembers key t₁ [] :=
    .of_put first t₁ key (size ▸ Nat.le_max_right capacity 1)
  have times : ∀ call ∈ between, call.1 - t₁ < (first.put t₁ key).ttl := by
    intro call hcall
    rw [split, List.pairwise_append, List.pairwise_cons, List.pairwise_append] at clock
    have earlier : call.1 ≤ t₂ := clock.2.1.2.2.2 call hcall (t₂, .offer key) List.mem_cons_self
    omega
  simp only [second, written] at admitted₂ ⊢
  rcases runAll_remembers remembered times with ⟨newer, still⟩ | full
  · -- the key is still there, so it would be refused
    obtain ⟨-, ttl_later⟩ := capacity_runAll between (first.put t₁ key)
    have found : (runAll between (first.put t₁ key)).contains t₂ key = true :=
      still.contains (by rwa [ttl_later, ttl_put])
    rw [contains_iff_refused.mp found] at admitted₂
    cases admitted₂
  · rw [← capacity_put]
    simpa [keys] using full

/-- A cache for two keys: the first is admitted again before its time is over, after two others. -/
theorem readmitted_after_two :
    let between : List (Nat × Call Nat) := [(1, .offer 8), (2, .look 7), (2, .offer 9), (3, .sweep)]
    let first := (empty 2 10).insertIfAbsent 0 7
    let second := (runAll between first.2).insertIfAbsent 4 7
    ((0, .offer 7) :: (between ++ [(4, .offer 7)])).Pairwise (·.1 ≤ ·.1) ∧ 4 - 0 < 10 ∧
      first.1 = true ∧ second.1 = true ∧
      max 2 1 ≤ ((admitted between first.2).toFinset.erase 7).card := by
  intro between first second
  have clock : ((0, Call.offer 7) :: (between ++ [(4, .offer 7)])).Pairwise (·.1 ≤ ·.1) := by decide
  refine ⟨clock, by decide, rfl, rfl, ?_⟩
  exact (readmitted_after_capacity 2 10 clock).1 [] between [] 0 4 7 rfl (by decide) rfl rfl

end ChainNode.SeenCache
