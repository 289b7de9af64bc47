import ChainNode.Node.Run

/-!
# Programs that only ask

Asking peers leaves the node as it is and always ends: the number of rounds is fixed before the
first of them. `Asks Q` says so of a program whatever it is told, and that its outcome then
satisfies `Q`; nothing is assumed about peers, so it holds against any network.

* `Asks.run`: against a network, such a program ends, with `Q`, and with the node unchanged.
* `Asks.bind`: a sequence of them is one of them.
-/
namespace ChainNode

/-- The commands that question the network. -/
def Command.Asks : {β : Type} → Command β → Prop
  | _, .members => True
  | _, .shuffle _ => True
  | _, .newId => True
  | _, .round _ => True
  | _, .act _ => False
  | _, .save _ => False
  | _, .broadcast _ _ => False
  | _, .busy => False

theorem Command.Asks.exec {σ : Type} (net : Network σ) :
    ∀ {β : Type} {c : Command β}, c.Asks → ∀ w : World σ, (c.exec net w).2.node = w.node
  | _, .members, _, _ => rfl
  | _, .shuffle _, _, _ => rfl
  | _, .newId, _, _ => rfl
  | _, .round _, _, _ => rfl
  | _, .act _, h, _ => h.elim
  | _, .save _, h, _ => h.elim
  | _, .broadcast _ _, h, _ => h.elim
  | _, .busy, h, _ => h.elim

namespace Program

variable {ε α β : Type}

/-- It only asks, and ends with an outcome that satisfies `Q`, whatever the answers are. -/
def Asks (Q : Except ε α → Prop) : Program ε α → Prop
  | .done r => Q r
  | .unfinished => False
  | .perform c next => c.Asks ∧ ∀ b, (next b).Asks Q

namespace Asks

variable {P Q : Except ε α → Prop}

theorem bind {R : Except ε β → Prop} {f : α → Program ε β} (ok : ∀ a, P (.ok a) → (f a).Asks R)
    (error : ∀ e, P (.error e) → R (.error e)) :
    ∀ {p : Program ε α}, p.Asks P → (p.bind f).Asks R
  | .done (.ok a), hp => ok a hp
  | .done (.error e), hp => error e hp
  | .unfinished, hp => hp
  | .perform _ _, hp => ⟨hp.1, fun b => bind ok error (hp.2 b)⟩

theorem run {σ : Type} (net : Network σ) : ∀ {p : Program ε α}, p.Asks Q → ∀ w : World σ,
    ∃ r w', p.run net w = (some r, w') ∧ Q r ∧ w'.node = w.node
  | .done r, hp, w => ⟨r, w, rfl, hp, rfl⟩
  | .unfinished, hp, _ => hp.elim
  | .perform c next, hp, w => by
    obtain ⟨r, w', hrun, hQ, hnode⟩ := run net (hp.2 (c.exec net w).1) (c.exec net w).2
    exact ⟨r, w', hrun, hQ, hnode.trans (hp.1.exec net w)⟩

end Asks

end Program

end ChainNode
