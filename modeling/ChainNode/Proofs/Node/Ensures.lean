import ChainNode.Node.Run

/-!
# What a program ensures

`Ensures net Q p w` says that the program `p`, started in the world `w`, ends with an outcome and in
a world that satisfy `Q`. It follows the program command by command, so what holds of a command is
said where the command stands. `Succeeds` is the case where the outcome has to be a result.

* `Ensures.bind`, `Ensures.of_run`, `Ensures.of_run_bind`, `Ensures.attempt_bind`: the rules.
* `Succeeds.bind`, `Succeeds.attempt_bind`: the rules without errors.
* `Succeeds.run`: the run ends with a result.
-/
namespace ChainNode.Program

variable {σ ε ε' α β : Type} {net : Network σ} {p : Program ε α} {w : World σ}

/-- The run ends, and with `Q`. -/
def Ensures (net : Network σ) (Q : Except ε α → World σ → Prop) : Program ε α → World σ → Prop
  | .done r, w => Q r w
  | .unfinished, _ => False
  | .perform c next, w => (next (c.exec net w).1).Ensures net Q (c.exec net w).2

/-- The run ends with a result, and with `Q`. -/
abbrev Succeeds (net : Network σ) (Q : α → World σ → Prop) (p : Program ε α) (w : World σ) : Prop :=
  Ensures net (fun r w' => ∃ a, r = .ok a ∧ Q a w') p w

namespace Ensures

variable {Q R : Except ε α → World σ → Prop}

theorem run (h : Ensures net Q p w) : ∃ r w', p.run net w = (some r, w') ∧ Q r w' := by
  induction p generalizing w with
  | done r => exact ⟨r, w, rfl, h⟩
  | unfinished => exact h.elim
  | perform c next ih => exact ih _ h

/-- From a run that is known. -/
theorem of_run {w' : World σ} {r : Except ε α} (hrun : p.run net w = (some r, w')) (h : Q r w') :
    Ensures net Q p w := by
  induction p generalizing w with
  | done r =>
    cases hrun
    exact h
  | unfinished => cases hrun
  | perform c next ih => exact ih _ hrun

/-- From a program that runs alike. -/
theorem of_run_eq {q : Program ε α} (same : p.run net w = q.run net w) (h : Ensures net Q q w) :
    Ensures net Q p w := by
  obtain ⟨r, w', hrun, hQ⟩ := run h
  exact of_run (same.trans hrun) hQ

theorem mono (le : ∀ r w, R r w → Q r w) (h : Ensures net R p w) : Ensures net Q p w := by
  induction p generalizing w with
  | done r => exact le r w h
  | unfinished => exact h
  | perform c next ih => exact ih _ h

theorem bind {S : Except ε β → World σ → Prop} {f : α → Program ε β}
    (ok : ∀ a w, R (.ok a) w → Ensures net S (f a) w)
    (error : ∀ e w, R (.error e) w → S (.error e) w) (h : Ensures net R p w) :
    Ensures net S (p.bind f) w := by
  induction p generalizing w with
  | done r =>
    cases r with
    | ok a => exact ok a w h
    | error e => exact error e w h
  | unfinished => exact h
  | perform c next ih => exact ih _ h

theorem of_run_bind {S : Except ε β → World σ → Prop} {f : α → Program ε β} {a : α} {w' : World σ}
    (hrun : p.run net w = (some (.ok a), w')) (h : Ensures net S (f a) w') :
    Ensures net S (p.bind f) w := by
  refine bind (R := fun r w => r = .ok a ∧ w = w') ?_ ?_ (of_run hrun ⟨rfl, rfl⟩)
  · intro b w₁ same
    cases same.1
    cases same.2
    exact h
  · intro e w₁ failed
    cases failed.1

theorem of_run_bind_error {S : Except ε β → World σ → Prop} {f : α → Program ε β} {e : ε}
    {w' : World σ} (hrun : p.run net w = (some (.error e), w')) (h : S (.error e) w') :
    Ensures net S (p.bind f) w :=
  of_run (by rw [run_bind, hrun]) h

theorem attempt_bind {S : Except ε' β → World σ → Prop} {f : Except ε α → Program ε' β}
    (next : ∀ r w, R r w → Ensures net S (f r) w) (h : Ensures net R p w) :
    Ensures net S (p.attempt.bind f) w := by
  induction p generalizing w with
  | done r => exact next r w h
  | unfinished => exact h
  | perform c next ih => exact ih _ h

end Ensures

namespace Succeeds

variable {Q R : α → World σ → Prop}

theorem run (h : Succeeds net Q p w) : ∃ a w', p.run net w = (some (.ok a), w') ∧ Q a w' := by
  obtain ⟨r, w', hrun, a, rfl, hQ⟩ := Ensures.run h
  exact ⟨a, w', hrun, hQ⟩

theorem mono (h : Succeeds net R p w) (le : ∀ a w, R a w → Q a w) : Succeeds net Q p w := by
  refine Ensures.mono ?_ h
  intro r w' ended
  obtain ⟨a, rfl, hR⟩ := ended
  exact ⟨a, rfl, le a w' hR⟩

theorem bind {S : Except ε β → World σ → Prop} {f : α → Program ε β} (h : Succeeds net R p w)
    (next : ∀ a w, R a w → Ensures net S (f a) w) : Ensures net S (p.bind f) w := by
  refine Ensures.bind ?_ ?_ h
  · intro a w' ended
    obtain ⟨b, same, hR⟩ := ended
    cases same
    exact next a w' hR
  · intro e w' ended
    obtain ⟨a, failed, -⟩ := ended
    cases failed

theorem attempt_bind {S : Except ε' β → World σ → Prop} {f : Except ε α → Program ε' β}
    (h : Succeeds net R p w) (next : ∀ a w, R a w → Ensures net S (f (.ok a)) w) :
    Ensures net S (p.attempt.bind f) w := by
  refine Ensures.attempt_bind ?_ h
  intro r w' ended
  obtain ⟨a, rfl, hR⟩ := ended
  exact next a w' hR

end Succeeds

end ChainNode.Program
