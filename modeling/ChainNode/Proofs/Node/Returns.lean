import ChainNode.Proofs.Node.Asks

/-!
# What holds when a program returns

`Returns net Q p w` says that if the program `p`, started in the world `w`, ends with a result or an
error, that outcome and the world there satisfy `Q`. It says nothing of a run whose rounds have run
out, which is what sets it apart from `Ensures`; and it follows errors, which `Keeps` does not.

* `Returns.run`, `Returns.of_run`: it is a statement about the run.
* `Returns.bind`, `Returns.attempt_bind`, `Returns.command`, `Returns.step`: the rules.
* `Returns.of_run_bind`: the rule for a first part whose run is known.
-/
namespace ChainNode.Program

variable {σ ε ε' δ α β : Type} {net : Network σ} {p : Program ε α} {w : World σ}

/-- If the run returns, then with `Q`. -/
def Returns (net : Network σ) (Q : Except ε α → World σ → Prop) : Program ε α → World σ → Prop
  | .done r, w => Q r w
  | .unfinished, _ => True
  | .perform c next, w => (next (c.exec net w).1).Returns net Q (c.exec net w).2

namespace Returns

variable {Q R : Except ε α → World σ → Prop}

theorem run (h : Returns net Q p w) {r : Except ε α} {w' : World σ}
    (returned : p.run net w = (some r, w')) : Q r w' := by
  induction p generalizing w with
  | done result =>
    cases returned
    exact h
  | unfinished => cases returned
  | perform c next ih => exact ih _ h returned

theorem of_run (h : ∀ r w', p.run net w = (some r, w') → Q r w') : Returns net Q p w := by
  induction p generalizing w with
  | done result => exact h result w rfl
  | unfinished => trivial
  | perform c next ih => exact ih _ h

theorem of_asks {P : Except ε α → Prop} (asks : p.Asks P) (w : World σ) :
    Returns net (fun r w' => P r ∧ w'.node = w.node) p w := by
  refine of_run fun r w' returned => ?_
  obtain ⟨r', w'', asked, result, node⟩ := asks.run net w
  cases returned.symm.trans asked
  exact ⟨result, node⟩

theorem mono (h : Returns net R p w) (le : ∀ r w', R r w' → Q r w') : Returns net Q p w :=
  of_run fun r w' returned => le r w' (h.run returned)

theorem and (h : Returns net Q p w) (h' : Returns net R p w) :
    Returns net (fun r w' => Q r w' ∧ R r w') p w :=
  of_run fun _ _ returned => ⟨h.run returned, h'.run returned⟩

/-- The run itself may be kept in mind. -/
theorem with_run (h : Returns net Q p w) :
    Returns net (fun r w' => p.run net w = (some r, w') ∧ Q r w') p w :=
  of_run fun _ _ returned => ⟨returned, h.run returned⟩

theorem bind {S : Except ε β → World σ → Prop} {f : α → Program ε β} (h : Returns net R p w)
    (ok : ∀ a w', R (.ok a) w' → Returns net S (f a) w')
    (error : ∀ e w', R (.error e) w' → S (.error e) w') : Returns net S (p.bind f) w := by
  induction p generalizing w with
  | done r =>
    cases r with
    | ok a => exact ok a w h
    | error e => exact error e w h
  | unfinished => trivial
  | perform c next ih => exact ih _ h

theorem attempt_bind {S : Except ε' β → World σ → Prop} {f : Except ε α → Program ε' β}
    (h : Returns net R p w) (next : ∀ r w', R r w' → Returns net S (f r) w') :
    Returns net S (p.attempt.bind f) w := by
  induction p generalizing w with
  | done r => exact next r w h
  | unfinished => trivial
  | perform c rest ih => exact ih _ h

/-- From the run of a first part, which is known. -/
theorem of_run_bind {S : Except ε β → World σ → Prop} {f : α → Program ε β} {a : α} {w' : World σ}
    (ran : p.run net w = (some (.ok a), w')) (h : Returns net S (f a) w') :
    Returns net S (p.bind f) w := by
  refine of_run fun r w'' whole => h.run ?_
  rwa [run_bind, ran] at whole

theorem command (net : Network σ) (c : Command β) (w : World σ) :
    Returns net (fun r w' => r = .ok (c.exec net w).1 ∧ w' = (c.exec net w).2)
      (Program.command c : Program ε β) w :=
  ⟨rfl, rfl⟩

theorem step (net : Network σ) (wrap : δ → ε) (f : Node → Except δ α × Node) (w : World σ) :
    Returns net (fun r w' => r = (f w.node).1.mapError wrap ∧
        w' = { w with node := (f w.node).2 }) (Program.step wrap f) w :=
  ⟨rfl, rfl⟩

end Returns

end ChainNode.Program
