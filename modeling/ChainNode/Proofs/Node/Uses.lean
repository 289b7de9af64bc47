import ChainNode.Proofs.Node.Asks

/-!
# Which commands a program uses

`Uses P p` says that every command that the program `p` can come to is one of `P`, whatever it is
told on the way. It is read off the text of a program, and carries over to any run of it what each
single command of `P` does to the world.

* `Uses.bind`, `Uses.attempt_bind`, `Uses.of_asks`: the rules.
* `Uses.run`: what the commands do to the world, the run does.
-/
namespace ChainNode.Program

variable {σ ε ε' δ α β : Type}

def Uses (P : ∀ {β : Type}, Command β → Prop) : Program ε α → Prop
  | .done _ => True
  | .unfinished => True
  | .perform c next => P c ∧ ∀ b, (next b).Uses P

namespace Uses

variable {P P' : ∀ {β : Type}, Command β → Prop} {p : Program ε α}

theorem mono (le : ∀ {β : Type} (c : Command β), P c → P' c) (h : p.Uses P) : p.Uses P' := by
  induction p with
  | done r => trivial
  | unfinished => trivial
  | perform c next ih => exact ⟨le c h.1, fun b => ih b (h.2 b)⟩

theorem bind {f : α → Program ε β} (h : p.Uses P) (next : ∀ a, (f a).Uses P) :
    (p.bind f).Uses P := by
  induction p with
  | done r =>
    cases r with
    | ok a => exact next a
    | error e => trivial
  | unfinished => trivial
  | perform c rest ih => exact ⟨h.1, fun b => ih b (h.2 b)⟩

theorem attempt_bind {f : Except ε α → Program ε' β} (h : p.Uses P) (next : ∀ r, (f r).Uses P) :
    (p.attempt.bind f).Uses P := by
  induction p with
  | done r => exact next r
  | unfinished => trivial
  | perform c rest ih => exact ⟨h.1, fun b => ih b (h.2 b)⟩

theorem command {c : Command α} (h : P c) : (Program.command c : Program ε α).Uses P :=
  ⟨h, fun _ => trivial⟩

theorem step {wrap : δ → ε} {f : Node → Except δ α × Node} (h : P (.act f)) :
    (Program.step wrap f).Uses P :=
  ⟨h, fun _ => trivial⟩

theorem of_asks {Q : Except ε α → Prop} (le : ∀ {β : Type} (c : Command β), c.Asks → P c)
    (asks : p.Asks Q) : p.Uses P := by
  induction p with
  | done r => trivial
  | unfinished => trivial
  | perform c next ih => exact ⟨le c asks.1, fun b => ih b (asks.2 b)⟩

/-- By induction on the program, for a relation that goes along with doing nothing and with doing
one thing after another. -/
theorem run {net : Network σ} {R : World σ → World σ → Prop} (refl : ∀ w, R w w)
    (trans : ∀ {w w' w''}, R w w' → R w' w'' → R w w'')
    (exec : ∀ {β : Type} (c : Command β) (w : World σ), P c → R w (c.exec net w).2)
    (h : p.Uses P) (w : World σ) : R w (p.run net w).2 := by
  induction p generalizing w with
  | done r => exact refl w
  | unfinished => exact refl w
  | perform c next ih => exact trans (exec c w h.1) (ih _ (h.2 _) _)

end Uses

end ChainNode.Program
