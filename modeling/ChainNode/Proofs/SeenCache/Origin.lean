import ChainNode.Proofs.SeenCache

/-!
# Why a key is remembered

What is in a cache was offered to it and admitted, and whatever was admitted since stands in front
of it. So the calls decide whether a key is found: it is, exactly if it was admitted less than the
time to live ago and fewer others than the cache holds have been admitted since.

* `Call.origin`: where an entry comes from that is there after one call, the step.
* `origin`: the same for any calls, the run.
* `admittedLately_of_contains`, `contains_of_admittedLately`: when a key is found.
-/
namespace ChainNode.SeenCache

variable {κ : Type} [DecidableEq κ]

theorem runAll_concat (calls : List (Nat × Call κ)) (call : Nat × Call κ) (c : SeenCache κ) :
    runAll (calls ++ [call]) c = call.2.run call.1 (runAll calls c) := by
  rw [runAll, List.foldl_append]
  rfl

theorem runAll_append (calls more : List (Nat × Call κ)) (c : SeenCache κ) :
    runAll (calls ++ more) c = runAll more (runAll calls c) := List.foldl_append

theorem admitted_concat (calls : List (Nat × Call κ)) (call : Nat × Call κ) (c : SeenCache κ) :
    admitted (calls ++ [call]) c =
      admitted calls c ++ call.2.admits call.1 (runAll calls c) := by
  induction calls generalizing c with
  | nil => simp [admitted, runAll]
  | cons first calls ih =>
    rw [List.cons_append, admitted, admitted, ih, List.append_assoc]
    rfl

theorem Call.length_admits_le (now : Nat) (call : Call κ) (c : SeenCache κ) :
    (call.admits now c).length ≤ 1 := by
  cases call with
  | offer key =>
    rw [admits]
    split <;> simp
  | look key => exact Nat.zero_le 1
  | sweep => exact Nat.zero_le 1

theorem length_admitted_le (calls : List (Nat × Call κ)) (c : SeenCache κ) :
    (admitted calls c).length ≤ calls.length := by
  induction calls generalizing c with
  | nil => exact Nat.le_refl 0
  | cons call calls ih =>
    obtain ⟨now, call⟩ := call
    have here := call.length_admits_le now c
    have later := ih (call.run now c)
    rw [admitted, List.length_append, List.length_cons]
    omega

variable {c : SeenCache κ} {key k : κ} {t now : Nat} {newer older : List (κ × Nat)}

/-! ## One call -/

/-- An entry that is not the one just written was there before, behind keys that are now in front
of it, as the key just written is. -/
theorem origin_of_put (entries : (c.put now k).entries = newer ++ (key, t) :: older) :
    (newer = [] ∧ k = key ∧ now = t) ∨
      ∃ newer' older', c.entries = newer' ++ (key, t) :: older' ∧
        insert k (keys newer') ⊆ keys newer := by
  have front : newer ++ (key, t) :: older <+: (k, now) :: c.entries.filter (·.1 ≠ k) := by
    rw [← entries]
    exact List.take_prefix _ _
  obtain ⟨dropped, all⟩ := front
  cases newer with
  | nil =>
    obtain ⟨written, -⟩ := List.cons.inj all
    cases written
    exact .inl ⟨rfl, rfl, rfl⟩
  | cons e newer =>
    rw [List.append_assoc, List.cons_append] at all
    obtain ⟨rfl, rest⟩ := List.cons.inj all
    obtain ⟨ahead, behind, split, kept, found⟩ := List.filter_eq_append_iff.mp rest.symm
    obtain ⟨lost, older', split', same, -, -⟩ := List.filter_eq_cons_iff.mp found
    refine .inr ⟨ahead ++ lost, older', by rw [split, split', List.append_assoc], ?_⟩
    intro x hx
    simp only [keys, List.map_append, Finset.mem_insert, List.mem_toFinset, List.mem_append,
      List.map_cons, List.mem_cons] at hx ⊢
    by_cases this_key : x = k
    · exact .inl this_key
    · refine .inr ?_
      rcases hx with same_key | before | removed
      · exact absurd same_key this_key
      · obtain ⟨e, he, rfl⟩ := List.mem_map.mp before
        rw [← kept]
        exact List.mem_map_of_mem (List.mem_filter.mpr ⟨he, by simpa using this_key⟩)
      · obtain ⟨e, he, rfl⟩ := List.mem_map.mp removed
        exact absurd (by simpa using same e he) this_key

/-- **Step.** An entry that is there after a call was written by it, or was there before. -/
theorem Call.origin (call : Call κ)
    (entries : (call.run now c).entries = newer ++ (key, t) :: older) :
    (call = .offer key ∧ now = t ∧ c.contains now key = false) ∨
      ∃ newer' older', c.entries = newer' ++ (key, t) :: older' ∧
        keys newer' ∪ (call.admits now c).toFinset ⊆ keys newer := by
  cases call with
  | look k => exact .inr ⟨newer, older, entries, by simp [admits]⟩
  | sweep =>
    obtain ⟨swept, all⟩ := c.purge_prefix now
    rw [run] at entries
    rw [entries, List.append_assoc, List.cons_append] at all
    exact .inr ⟨newer, older ++ swept, all.symm, by simp [admits]⟩
  | offer k =>
    rw [run] at entries
    rw [admits]
    cases seen : c.contains now k with
    | true =>
      rw [insertIfAbsent_of_contains seen] at entries ⊢
      exact .inr ⟨newer, older, entries, by simp⟩
    | false =>
      rw [insertIfAbsent_of_not_contains seen] at entries ⊢
      rcases origin_of_put entries with ⟨-, rfl, rfl⟩ | ⟨newer', older', before, sub⟩
      · exact .inl ⟨rfl, rfl, seen⟩
      · refine .inr ⟨newer', older', before, ?_⟩
        simpa [Finset.union_comm _ {k}] using sub

/-! ## Any calls -/

/-- **Run.** An entry was admitted by one of the calls, and what was admitted since stands in front
of it. By induction on the calls, from the last one backwards. -/
theorem origin {calls : List (Nat × Call κ)} (none : c.entries = [])
    (entries : (runAll calls c).entries = newer ++ (key, t) :: older) :
    ∃ before after, calls = before ++ (t, .offer key) :: after ∧
      (runAll before c).contains t key = false ∧
      (admitted after ((runAll before c).put t key)).toFinset ⊆ keys newer := by
  induction calls using List.reverseRecOn generalizing newer older with
  | nil =>
    rw [runAll, List.foldl_nil, none] at entries
    simp at entries
  | append_singleton calls call ih =>
    obtain ⟨now, call⟩ := call
    rw [runAll_concat] at entries
    rcases call.origin entries with ⟨rfl, rfl, unseen⟩ | ⟨newer', older', earlier, sub⟩
    · exact ⟨calls, [], rfl, unseen, by simp [admitted]⟩
    · obtain ⟨before, after, split, unseen, ahead⟩ := ih earlier
      refine ⟨before, after ++ [(now, call)], by simp [split], unseen, ?_⟩
      have written : runAll calls c = runAll after ((runAll before c).put t key) := by
        rw [split, runAll_append, runAll, List.foldl_cons, Call.run,
          insertIfAbsent_of_not_contains unseen]
        rfl
      rw [admitted_concat, List.toFinset_append, ← written]
      exact (Finset.union_subset_union_left ahead).trans sub

/-- Among the calls to an empty cache `key` was admitted, less than the time to live before `now`,
and fewer other keys than there is room for have been admitted since. -/
def AdmittedLately (capacity ttl now : Nat) (key : κ) (calls : List (Nat × Call κ)) : Prop :=
  ∃ before after t, calls = before ++ (t, .offer key) :: after ∧ now - t < ttl ∧
    (runAll before (empty capacity ttl)).contains t key = false ∧
    ((admitted after ((runAll before (empty capacity ttl)).put t key)).toFinset.erase key).card <
      max capacity 1

variable {capacity ttl : Nat} {calls : List (Nat × Call κ)}

theorem admittedLately_of_contains
    (seen : (runAll calls (empty capacity ttl)).contains now key = true) :
    AdmittedLately capacity ttl now key calls := by
  obtain ⟨-, lifetime⟩ := capacity_runAll calls (empty (κ := κ) capacity ttl)
  unfold contains at seen
  split at seen
  · cases seen
  · rename_i e found
    obtain ⟨same, newer, older, entries, -⟩ := List.find?_eq_some_iff_append.mp found
    obtain ⟨key', t⟩ := e
    obtain rfl : key = key' := (of_decide_eq_true same).symm
    obtain ⟨before, after, split, unseen, ahead⟩ := origin rfl entries
    rw [isFresh, lifetime] at seen
    refine ⟨before, after, t, split, of_decide_eq_true seen, unseen, ?_⟩
    have bound := length_runAll_le calls (c := empty (κ := κ) capacity ttl) (Nat.zero_le _)
    have short : newer.length < max capacity 1 := by
      rw [length, entries, List.length_append, List.length_cons] at bound
      exact Nat.lt_of_lt_of_le (by omega) bound
    have few : (keys newer).card ≤ newer.length :=
      (List.toFinset_card_le _).trans (Nat.le_of_eq (List.length_map _))
    have others := Finset.card_le_card ((Finset.erase_subset key _).trans ahead)
    omega

theorem contains_of_admittedLately (past : ∀ call ∈ calls, call.1 ≤ now)
    (lately : AdmittedLately capacity ttl now key calls) :
    (runAll calls (empty capacity ttl)).contains now key = true := by
  obtain ⟨before, after, t, rfl, young, unseen, few⟩ := lately
  obtain ⟨size, lifetime⟩ := capacity_runAll before (empty (κ := κ) capacity ttl)
  let written := (runAll before (empty capacity ttl)).put t key
  have room : written.capacity = max capacity 1 := size
  have ttl_written : written.ttl = ttl := lifetime
  have remembered : written.Remembers key t [] :=
    .of_put _ t key (size ▸ Nat.le_max_right capacity 1)
  have fresh : ∀ call ∈ after, call.1 - t < written.ttl := by
    intro call hcall
    have earlier := past call (by simp [hcall])
    omega
  have later : runAll (before ++ (t, .offer key) :: after) (empty capacity ttl) =
      runAll after written := by
    rw [runAll_append, runAll, List.foldl_cons, Call.run, insertIfAbsent_of_not_contains unseen]
    rfl
  rw [later]
  rcases runAll_remembers remembered fresh with ⟨newer, still⟩ | full
  · obtain ⟨-, ttl_later⟩ := capacity_runAll after written
    exact still.contains (by omega)
  · have others : keys ([] : List (κ × Nat)) ∪ (admitted after written).toFinset =
        (admitted after written).toFinset := by simp [keys]
    rw [others, room] at full
    exact absurd few (Nat.not_lt.mpr full)

end ChainNode.SeenCache
