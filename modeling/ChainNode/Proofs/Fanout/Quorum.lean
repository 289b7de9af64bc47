import ChainNode.Proofs.Fanout.Arrivals

/-!
# What a quorum of calls brings, and when

If each call has an outcome of its own, a round takes the first answers in their order of arrival,
as many as it waits for, but at least one if any comes; it ends with the last that it takes, or, if
there are too few, when every call has been answered or given up. A call that fails delays the end
of a round that comes out short, but has no other effect.

* `gather_cons_of_late`, `gather_cons_of_failed`, `gather_cons_of_answered`: what the next call
  does.
* `gather_taken`, `gather_serves`: what a round takes from calls in order, and when it ends.
* `fetchWithMinimum_quorum`: the same for calls in the order of their issue.
-/
namespace ChainNode.Fanout

variable {σ γ ε β : Type}

/-! ## What calls bring -/

/-- Calls whose outcomes depend on the calls alone, whatever they do to the peers. -/
def answering (outcome : γ → Except ε β) (next : γ → σ → σ) (target : γ) (s : σ) :
    Except ε β × σ :=
  (outcome target, next target s)

section

variable (timeout : Nat) (outcome : γ → Except ε β)

/-- A call brings an answer if it has one and is not given up before. -/
def brings (c : Call γ) : Option β :=
  if c.latency ≤ timeout then (outcome c.target).toOption else none

/-- The answers that calls bring, with the times at which they come. -/
def successes (calls : List (Call γ)) : List (Nat × β) :=
  calls.filterMap fun c => (brings timeout outcome c).map (c.latency, ·)

/-- When every call has been answered or given up. -/
def lastSettled (calls : List (Call γ)) : Nat :=
  (calls.map fun c => min c.latency timeout).foldr max 0

end

variable {timeout : Nat} {outcome : γ → Except ε β} {next : γ → σ → σ}

theorem brings_eq_some {c : Call γ} {b : β} :
    brings timeout outcome c = some b ↔ c.latency ≤ timeout ∧ outcome c.target = .ok b := by
  unfold brings
  split
  · rename_i intime
    cases outcome c.target <;> simp [Except.toOption, intime]
  · rename_i late
    simp [late]

theorem mem_successes {calls : List (Call γ)} {n : Nat} {b : β} :
    (n, b) ∈ successes timeout outcome calls ↔
      ∃ c ∈ calls, c.latency = n ∧ c.latency ≤ timeout ∧ outcome c.target = .ok b := by
  simp only [successes, List.mem_filterMap, Option.map_eq_some_iff, brings_eq_some, Prod.mk.injEq]
  constructor
  · rintro ⟨c, hc, b, answered, rfl, rfl⟩
    exact ⟨c, hc, rfl, answered⟩
  · rintro ⟨c, hc, rfl, answered⟩
    exact ⟨c, hc, b, answered, rfl, rfl⟩

theorem successes_cons_of_some {c : Call γ} {b : β} (answered : brings timeout outcome c = some b)
    (rest : List (Call γ)) :
    successes timeout outcome (c :: rest) = (c.latency, b) :: successes timeout outcome rest :=
  List.filterMap_cons_some (by rw [answered, Option.map_some])

theorem successes_cons_of_none {c : Call γ} (failed : brings timeout outcome c = none)
    (rest : List (Call γ)) :
    successes timeout outcome (c :: rest) = successes timeout outcome rest :=
  List.filterMap_cons_none (by rw [failed, Option.map_none])

theorem late_of_first {c : Call γ} {rest : List (Call γ)} (late : timeout < c.latency)
    (order : InOrder (c :: rest)) : ∀ c' ∈ c :: rest, timeout < c'.latency := by
  intro c' hc'
  rcases List.mem_cons.mp hc' with rfl | behind
  · exact late
  · exact Nat.lt_of_lt_of_le late ((List.pairwise_cons.mp order).1 c' behind)

theorem successes_eq_nil {calls : List (Call γ)} (late : ∀ c ∈ calls, timeout < c.latency) :
    successes timeout outcome calls = [] := by
  refine List.filterMap_eq_nil_iff.mpr fun c hc => ?_
  rw [brings, if_neg (Nat.not_le_of_lt (late c hc)), Option.map_none]

theorem lastSettled_cons (c : Call γ) (rest : List (Call γ)) :
    lastSettled timeout (c :: rest) = max (min c.latency timeout) (lastSettled timeout rest) := rfl

theorem lastSettled_le (calls : List (Call γ)) : lastSettled timeout calls ≤ timeout := by
  induction calls with
  | nil => exact Nat.zero_le _
  | cons c rest ih =>
    rw [lastSettled_cons]
    omega

/-! ## Calls in order -/

/-- What becomes of a call: it is given up, it fails, or it is answered. -/
inductive Fate (timeout : Nat) (outcome : γ → Except ε β) (c : Call γ) : Prop where
  | late (late : timeout < c.latency)
  | failed (early : c.latency ≤ timeout) (failed : brings timeout outcome c = none)
  | answered (b : β) (early : c.latency ≤ timeout) (answered : brings timeout outcome c = some b)

variable (timeout outcome) in
theorem fate (c : Call γ) : Fate timeout outcome c := by
  cases answer : brings timeout outcome c with
  | some b => exact .answered b (brings_eq_some.mp answer).1 answer
  | none =>
    rcases Nat.lt_or_ge timeout c.latency with late | early
    · exact .late late
    · exact .failed early answer

section

variable {minimum : Nat} {c : Call γ} (rest : List (Call γ)) (got : Gathered β) (s : σ)

theorem gather_cons_of_late (late : timeout < c.latency) :
    gather timeout minimum (answering outcome next) (c :: rest) got s =
      ({ got with elapsed := timeout }, s) :=
  if_pos late

theorem gather_cons_of_failed (early : c.latency ≤ timeout)
    (failed : brings timeout outcome c = none) :
    gather timeout minimum (answering outcome next) (c :: rest) got s =
      gather timeout minimum (answering outcome next) rest { got with elapsed := c.latency }
        (next c.target s) := by
  rw [brings, if_pos early] at failed
  rw [gather, if_neg (Nat.not_lt_of_le early)]
  cases answer : outcome c.target with
  | error e => simp only [answering, answer]
  | ok b =>
    rw [answer] at failed
    cases failed

theorem gather_cons_of_answered {b : β} (answered : brings timeout outcome c = some b) :
    gather timeout minimum (answering outcome next) (c :: rest) got s =
      if minimum ≤ got.answers.length + 1 then
        (⟨got.answers ++ [b], c.latency⟩, next c.target s)
      else
        gather timeout minimum (answering outcome next) rest ⟨got.answers ++ [b], c.latency⟩
          (next c.target s) := by
  obtain ⟨early, answer⟩ := brings_eq_some.mp answered
  rw [gather, if_neg (Nat.not_lt_of_le early)]
  simp only [answering, answer, List.length_append, List.length_singleton]

end

/-- A round that still waits takes the first answers, as many as it lacks; it ends with the last of
them, or with the last call. By induction on the calls, for any answers that it has taken before. -/
theorem gather_taken (minimum : Nat) {calls : List (Call γ)} (order : InOrder calls)
    (got : Gathered β) (before : ∀ c ∈ calls, got.elapsed ≤ c.latency)
    (intime : got.elapsed ≤ timeout) (lacking : Nat)
    (waits : got.answers.length + (lacking + 1) = max minimum 1) (s : σ) :
    let found := successes timeout outcome calls
    let ended := (gather timeout minimum (answering outcome next) calls got s).1
    ended.answers = got.answers ++ (found.take (lacking + 1)).map Prod.snd ∧
      ended.elapsed =
        (found[lacking]?.map Prod.fst).getD (max got.elapsed (lastSettled timeout calls)) := by
  induction calls generalizing got lacking s with
  | nil => simp [gather, successes, lastSettled]
  | cons c rest ih =>
    obtain ⟨first, later⟩ := List.pairwise_cons.mp order
    have passed := before c List.mem_cons_self
    have settled : c.latency ≤ timeout → max got.elapsed (lastSettled timeout (c :: rest)) =
        max c.latency (lastSettled timeout rest) := by
      intro early
      rw [lastSettled_cons, Nat.min_eq_left early, ← Nat.max_assoc, Nat.max_eq_right passed]
    cases fate timeout outcome c with
    | late late =>
      have none_left : successes timeout outcome (c :: rest) = [] :=
        successes_eq_nil (late_of_first late order)
      have bound : lastSettled timeout rest ≤ timeout := lastSettled_le rest
      simp only [gather_cons_of_late rest got s late, none_left, lastSettled_cons]
      refine ⟨by simp, ?_⟩
      simp only [List.getElem?_nil, Option.map_none, Option.getD_none]
      omega
    | failed early failed =>
      obtain ⟨answers, elapsed⟩ := ih later { got with elapsed := c.latency } first early lacking
        waits (next c.target s)
      simp only [gather_cons_of_failed rest got s early failed, successes_cons_of_none failed,
        settled early]
      exact ⟨answers, elapsed⟩
    | answered b early answered =>
      simp only [gather_cons_of_answered rest got s answered, successes_cons_of_some answered,
        settled early]
      cases lacking with
      | zero =>
        rw [if_pos (by omega)]
        simp
      | succ lacking =>
        rw [if_neg (by omega)]
        obtain ⟨answers, elapsed⟩ := ih later ⟨got.answers ++ [b], c.latency⟩ first early lacking
          (by simp only [List.length_append, List.length_singleton]; omega) (next c.target s)
        exact ⟨answers.trans (by simp), elapsed⟩

/-- Of calls in order the first are served, each once: those up to the last answer that is taken, or
all that are not given up. -/
inductive Serves (timeout want : Nat) (outcome : γ → Except ε β) (next : γ → σ → σ)
    (calls : List (Call γ)) (s s' : σ) : Prop where
  | split (served left : List (Call γ)) (apart : calls = served ++ left)
    (state : s' = served.foldl (fun s c => next c.target s) s)
    (taken : successes timeout outcome served = (successes timeout outcome calls).take want)
    (others : (successes timeout outcome calls).length < want → ∀ c ∈ left, timeout < c.latency)

theorem gather_serves (minimum : Nat) {calls : List (Call γ)} (order : InOrder calls)
    (got : Gathered β) (lacking : Nat)
    (waits : got.answers.length + (lacking + 1) = max minimum 1) (s : σ) :
    Serves timeout (lacking + 1) outcome next calls s
      (gather timeout minimum (answering outcome next) calls got s).2 := by
  induction calls generalizing got lacking s with
  | nil => exact ⟨[], [], rfl, rfl, rfl, fun _ _ => nofun⟩
  | cons c rest ih =>
    obtain ⟨first, later⟩ := List.pairwise_cons.mp order
    cases fate timeout outcome c with
    | late late =>
      have all_late := late_of_first late order
      rw [gather_cons_of_late rest got s late]
      exact ⟨[], c :: rest, rfl, rfl, by rw [successes_eq_nil all_late]; rfl, fun _ => all_late⟩
    | failed early failed =>
      obtain ⟨served, left, apart, state, taken, others⟩ :=
        ih later { got with elapsed := c.latency } lacking waits (next c.target s)
      rw [gather_cons_of_failed rest got s early failed]
      refine ⟨c :: served, left, by rw [apart]; rfl, state, ?_, ?_⟩
      · rw [successes_cons_of_none failed, successes_cons_of_none failed, taken]
      · rwa [successes_cons_of_none failed]
    | answered b early answered =>
      rw [gather_cons_of_answered rest got s answered]
      cases lacking with
      | zero =>
        rw [if_pos (by omega)]
        refine ⟨[c], rest, rfl, rfl, ?_, ?_⟩
        · rw [successes_cons_of_some answered, successes_cons_of_some answered]
          rfl
        · rw [successes_cons_of_some answered, List.length_cons]
          exact fun few => absurd few (by omega)
      | succ lacking =>
        rw [if_neg (by omega)]
        obtain ⟨served, left, apart, state, taken, others⟩ :=
          ih later ⟨got.answers ++ [b], c.latency⟩ lacking
            (by simp only [List.length_append, List.length_singleton]; omega) (next c.target s)
        refine ⟨c :: served, left, by rw [apart]; rfl, state, ?_, ?_⟩
        · rw [successes_cons_of_some answered, successes_cons_of_some answered, taken]
          rfl
        · rw [successes_cons_of_some answered, List.length_cons]
          exact fun few => others (by omega)

/-! ## Rounds -/

/-- Every call is issued once, and calls come in the order of their latencies and then of their
issue. -/
structure Scheduled (calls order : List (Call γ)) : Prop where
  once : order.Perm calls
  sorted : InOrder order
  stable : ∀ n, sameTime n order = sameTime n calls

theorem scheduled_arrivals (calls : List (Call γ)) : Scheduled calls (arrivals calls) :=
  ⟨arrivals_perm calls, inOrder_arrivals calls, fun n => sameTime_arrivals n calls⟩

/-- What a round takes that waits for `want` answers, of those that are found, and when it ends. -/
structure Quorum (timeout want : Nat) (outcome : γ → Except ε β) (calls : List (Call γ))
    (found : List (Nat × β)) (got : Gathered β) : Prop where
  answers : got.answers = (found.take want).map Prod.snd
  count : got.answers.length = min want found.length
  genuine : ∀ b ∈ got.answers, ∃ c ∈ calls, c.latency ≤ timeout ∧ outcome c.target = .ok b
  enough : ∀ last, found[want - 1]? = some last → got.elapsed = last.1
  short : found.length < want → got.elapsed = lastSettled timeout calls
  intime : got.elapsed ≤ timeout

theorem lastSettled_arrivals (calls : List (Call γ)) :
    lastSettled timeout (arrivals calls) = lastSettled timeout calls :=
  ((arrivals_perm calls).map _).foldr_eq' (fun a _ b _ n => Nat.max_left_comm b a n) 0

/-- Calls that bring nothing are not found among the answers. -/
theorem successes_filter (calls : List (Call γ)) :
    successes timeout outcome (calls.filter fun c => (brings timeout outcome c).isSome) =
      successes timeout outcome calls := by
  rw [successes, successes, List.filterMap_filter]
  refine List.filterMap_congr fun c _ => ?_
  cases brings timeout outcome c <;> rfl

variable (timeout outcome next) in
theorem fetchWithMinimum_taken (minimum : Nat) (calls : List (Call γ)) (s : σ) :
    let found := successes timeout outcome (arrivals calls)
    let got := (fetchWithMinimum timeout minimum (answering outcome next) calls s).1
    got.answers = (found.take (max minimum 1)).map Prod.snd ∧
      got.elapsed =
        (found[max minimum 1 - 1]?.map Prod.fst).getD (lastSettled timeout calls) := by
  obtain ⟨lacking, want⟩ := Nat.exists_eq_add_of_le' (Nat.le_max_right minimum 1)
  rw [want, Nat.add_sub_cancel, ← lastSettled_arrivals calls, ← Nat.zero_max (lastSettled _ _)]
  refine gather_taken minimum (inOrder_arrivals calls) ⟨[], 0⟩
    (fun _ _ => Nat.zero_le _) (Nat.zero_le timeout) lacking ?_ s
  exact (Nat.zero_add _).trans want.symm

theorem serves_fetchWithMinimum (minimum : Nat) (calls : List (Call γ)) (s : σ) :
    Serves timeout (max minimum 1) outcome next (arrivals calls) s
      (fetchWithMinimum timeout minimum (answering outcome next) calls s).2 := by
  obtain ⟨lacking, want⟩ := Nat.exists_eq_add_of_le' (Nat.le_max_right minimum 1)
  rw [want]
  exact gather_serves minimum (inOrder_arrivals calls) ⟨[], 0⟩ lacking
    ((Nat.zero_add _).trans want.symm) s

theorem quorum_fetchWithMinimum (minimum : Nat) (calls : List (Call γ)) (s : σ) :
    Quorum timeout (max minimum 1) outcome calls (successes timeout outcome (arrivals calls))
      (fetchWithMinimum timeout minimum (answering outcome next) calls s).1 := by
  obtain ⟨answers, elapsed⟩ := fetchWithMinimum_taken timeout outcome next minimum calls s
  generalize (fetchWithMinimum timeout minimum (answering outcome next) calls s).1 = got
    at answers elapsed ⊢
  have found : ∀ last ∈ successes timeout outcome (arrivals calls), ∃ c ∈ calls,
      c.latency = last.1 ∧ c.latency ≤ timeout ∧ outcome c.target = .ok last.2 := by
    intro last hlast
    obtain ⟨c, hc, answered⟩ := mem_successes.mp hlast
    exact ⟨c, (arrivals_perm calls).mem_iff.mp hc, answered⟩
  refine ⟨answers, ?_, ?_, ?_, ?_, ?_⟩
  · rw [answers, List.length_map, List.length_take]
  · intro b hb
    rw [answers] at hb
    obtain ⟨last, hlast, rfl⟩ := List.mem_map.mp hb
    obtain ⟨c, hc, -, answered⟩ := found last (List.mem_of_mem_take hlast)
    exact ⟨c, hc, answered⟩
  · intro last hlast
    rw [elapsed, hlast]
    rfl
  · intro few
    rw [elapsed, List.getElem?_eq_none (by omega)]
    rfl
  · rw [elapsed]
    cases hlast : (successes timeout outcome (arrivals calls))[max minimum 1 - 1]? with
    | none => exact lastSettled_le calls
    | some last =>
      obtain ⟨c, -, at_last, early, -⟩ := found last (List.mem_of_getElem? hlast)
      exact Nat.le_trans (Nat.le_of_eq at_last.symm) early

/-- **A round is a quorum of calls.** Every call is issued once, and they arrive by their latencies.
The round returns the first answers, as many as it waits for but at least one, or all if there are
fewer; none of a call that fails or is given up. It ends with the last that it returns, or, if it
comes out short, when every call has settled, which is at the timeout at the latest; the calls that
are served until then are the first to arrive. What fails may be left out without any difference to
the answers, and a round that waits for one answer more returns the same and what comes after. -/
theorem fetchWithMinimum_quorum (timeout minimum : Nat) (outcome : γ → Except ε β)
    (next : γ → σ → σ) (calls : List (Call γ)) (s : σ) :
    let round := fun minimum calls =>
      fetchWithMinimum timeout minimum (answering outcome next) calls s
    let succeeds := fun c => (brings timeout outcome c).isSome
    Scheduled calls (arrivals calls) ∧
    Quorum timeout (max minimum 1) outcome calls (successes timeout outcome (arrivals calls))
      (round minimum calls).1 ∧
    Serves timeout (max minimum 1) outcome next (arrivals calls) s (round minimum calls).2 ∧
    (∀ calls', calls'.filter succeeds = calls.filter succeeds →
      (round minimum calls').1.answers = (round minimum calls).1.answers) ∧
    (round minimum calls).1.answers <+: (round (minimum + 1) calls).1.answers := by
  intro round succeeds
  refine ⟨scheduled_arrivals calls, quorum_fetchWithMinimum minimum calls s,
    serves_fetchWithMinimum minimum calls s, fun calls' same => ?_, ?_⟩
  · have found : successes timeout outcome (arrivals calls') =
        successes timeout outcome (arrivals calls) := by
      rw [← successes_filter (arrivals calls'), ← successes_filter (arrivals calls),
        filter_arrivals, filter_arrivals, show calls'.filter _ = calls.filter _ from same]
    rw [(quorum_fetchWithMinimum minimum calls' s).answers,
      (quorum_fetchWithMinimum minimum calls s).answers, found]
  · rw [(quorum_fetchWithMinimum minimum calls s).answers,
      (quorum_fetchWithMinimum (minimum + 1) calls s).answers]
    exact (List.take_prefix_take_left (by omega)).map _

/-- Of four calls one fails and one is given up. -/
def sampleCalls : List (Call (Except Unit Nat)) :=
  [⟨30, .ok 1⟩, ⟨10, .error ()⟩, ⟨90, .ok 2⟩, ⟨20, .ok 3⟩]

example :
    let got := (fetchWithMinimum 50 2 (answering id fun _ => id) sampleCalls ()).1
    (got.answers, got.elapsed) = ([3, 1], 30) := by
  cbv

example :
    let got := (fetchWithMinimum 50 3 (answering id fun _ => id) sampleCalls ()).1
    (got.answers, got.elapsed) = ([3, 1], 50) := by
  cbv

end ChainNode.Fanout
