import ChainNode.Proofs.Node.Uses
import ChainNode.Proofs.Store

/-!
# What a program keeps

`Keeps net I Q p w` says that `I` holds of every world that the run of `p` from `w` comes to, and
that a result satisfies `Q` together with the world it is there in. The run may end with an error or
not at all: peers and stores may fail as they like, and `I` survives it. `Always` is the case where
nothing is asked of results.

Most commands cannot touch the chain, and what is noted only grows. A `Stable` property depends on
no more than that, so it passes by all of them, and only what writes the chain is left to look at.

* `Keeps.run`: what it says of the end of the run.
* `Keeps.bind`, `Keeps.attempt_bind`: the rules for sequences.
* `Keeps.of_uses`: programs none of whose commands breaks the property.
* `Keeps.of_asks`, `Keeps.step`, `Keeps.read`: programs that leave the chain as it is.
* `Keeps.write`: an operation that changes it, if it is not refused.
-/
namespace ChainNode

variable {σ ε ε' δ α β : Type}

/-! ## Worlds -/

namespace World

abbrev chain (w : World σ) : Chain := w.node.store.chain

/-- The property is one of the chain and of what was noted, and noting more does not break it. -/
def Stable (I : World σ → Prop) : Prop :=
  ∀ w w', w'.chain = w.chain → w.events <:+ w'.events → I w → I w'

end World

namespace Command

/-- A block is refused, and the chain is as it was, or it is saved and that is noted. Nothing else
changes but the store. -/
theorem exec_save_eq (net : Network σ) (b : Block) (w : World σ) :
    (∃ e s, (Command.save b).exec net w =
        (.error e, { w with node := { w.node with store := s } }) ∧ s.chain = w.chain) ∨
      ∃ s, (Command.save b).exec net w =
        (.ok (), World.note (.saved b) { w with node := { w.node with store := s } }) ∧
          w.chain.save b = .ok s.chain := by
  have outcome := Store.run_cases (.save b) w.node.store
  simp only [Write.run] at outcome
  simp only [exec, Node.withStore]
  generalize Store.save b w.node.store = saved at outcome
  obtain ⟨r, s⟩ := saved
  rcases outcome with ⟨e, refused, same⟩ | ⟨accepted, written⟩
  · cases refused
    exact .inl ⟨e, s, rfl, same⟩
  · cases accepted
    rcases written with ⟨b', this_block, written⟩ | ⟨p, n, other, -⟩
    · cases this_block
      exact .inr ⟨s, rfl, written⟩
    · cases other

theorem exec_save_cases (net : Network σ) (b : Block) (w : World σ) :
    (∃ e w', (Command.save b).exec net w = (.error e, w') ∧ w'.chain = w.chain ∧
        w'.events = w.events) ∨
      ∃ w', (Command.save b).exec net w = (.ok (), w') ∧ w.chain.save b = .ok w'.chain ∧
        w'.events = .saved b :: w.events := by
  rcases exec_save_eq net b w with ⟨e, s, refused, same⟩ | ⟨s, accepted, written⟩
  · exact .inl ⟨e, _, refused, same, rfl⟩
  · exact .inr ⟨_, accepted, written, rfl⟩

/-- What was noted stays noted. -/
theorem events_suffix (net : Network σ) :
    ∀ {β : Type} (c : Command β) (w : World σ), w.events <:+ (c.exec net w).2.events
  | _, .act _, _ => List.suffix_refl _
  | _, .save b, w => by
    rcases exec_save_cases net b w with ⟨e, w', saved, -, events⟩ | ⟨w', saved, -, events⟩
    · simp only [saved, events, List.suffix_refl]
    · simp only [saved, events, List.suffix_cons]
  | _, .members, _ => List.suffix_refl _
  | _, .shuffle _, _ => List.suffix_refl _
  | _, .newId, _ => List.suffix_refl _
  | _, .broadcast _ _, _ => List.suffix_cons ..
  | _, .round _, _ => List.suffix_cons ..
  | _, .busy, _ => List.suffix_refl _

end Command

/-! ## Programs -/

namespace Program

variable {net : Network σ} {I : World σ → Prop} {p : Program ε α} {w : World σ}

def Keeps (net : Network σ) (I : World σ → Prop) (Q : α → World σ → Prop) :
    Program ε α → World σ → Prop
  | .done (.ok a), w => I w ∧ Q a w
  | .done (.error _), w => I w
  | .unfinished, w => I w
  | .perform c next, w => I w ∧ (next (c.exec net w).1).Keeps net I Q (c.exec net w).2

/-- `I` holds of every world that the run comes to. -/
abbrev Always (net : Network σ) (I : World σ → Prop) (p : Program ε α) (w : World σ) : Prop :=
  Keeps net I (fun _ _ => True) p w

theorem events_suffix (net : Network σ) (p : Program ε α) (w : World σ) :
    w.events <:+ (p.run net w).2.events := by
  induction p generalizing w with
  | done r => exact List.suffix_refl _
  | unfinished => exact List.suffix_refl _
  | perform c next ih => exact (c.events_suffix net w).trans (ih _ _)

theorem events_suffix_of_run {r : Option (Except ε α)} {w' : World σ}
    (ran : p.run net w = (r, w')) : w.events <:+ w'.events := by
  have more := events_suffix net p w
  rwa [ran] at more

namespace Keeps

variable {Q R : α → World σ → Prop}

/-- What holds all along a run holds where it ends. -/
theorem run (h : Keeps net I Q p w) {r : Option (Except ε α)} {w' : World σ}
    (hrun : p.run net w = (r, w')) : I w' ∧ ∀ a, r = some (.ok a) → Q a w' := by
  induction p generalizing w with
  | done result =>
    cases hrun
    cases result with
    | ok a => exact ⟨h.1, fun b same => by cases same; exact h.2⟩
    | error e => exact ⟨h, nofun⟩
  | unfinished =>
    cases hrun
    exact ⟨h, nofun⟩
  | perform c next ih => exact ih _ h.2 hrun

theorem mono {J : World σ → Prop} (h : Keeps net I R p w) (world : ∀ w', I w' → J w')
    (result : ∀ a w', R a w' → Q a w') : Keeps net J Q p w := by
  induction p generalizing w with
  | done r =>
    cases r with
    | ok a => exact ⟨world w h.1, result a w h.2⟩
    | error e => exact world w h
  | unfinished => exact world w h
  | perform c next ih => exact ⟨world w h.1, ih _ h.2⟩

theorem bind {S : β → World σ → Prop} {f : α → Program ε β} (h : Keeps net I R p w)
    (next : ∀ a w', w.events <:+ w'.events → I w' → R a w' → Keeps net I S (f a) w') :
    Keeps net I S (p.bind f) w := by
  induction p generalizing w with
  | done r =>
    cases r with
    | ok a => exact next a w (List.suffix_refl _) h.1 h.2
    | error e => exact h
  | unfinished => exact h
  | perform c rest ih =>
    refine ⟨h.1, ih _ h.2 fun a w' later => next a w' ?_⟩
    exact (c.events_suffix net w).trans later

theorem attempt_bind {S : β → World σ → Prop} {f : Except ε α → Program ε' β}
    (h : Keeps net I R p w)
    (ok : ∀ a w', w.events <:+ w'.events → I w' → R a w' → Keeps net I S (f (.ok a)) w')
    (error : ∀ e w', w.events <:+ w'.events → I w' → Keeps net I S (f (.error e)) w') :
    Keeps net I S (p.attempt.bind f) w := by
  induction p generalizing w with
  | done r =>
    cases r with
    | ok a => exact ok a w (List.suffix_refl _) h.1 h.2
    | error e => exact error e w (List.suffix_refl _) h
  | unfinished => exact h
  | perform c rest ih =>
    have before := c.events_suffix net w
    refine ⟨h.1, ih _ h.2 (fun a w' later => ok a w' ?_) (fun e w' later => error e w' ?_)⟩
    · exact before.trans later
    · exact before.trans later

theorem command {c : Command β} (h : I w) (after : I (c.exec net w).2) :
    Keeps net I (fun b w' => c.exec net w = (b, w')) (Program.command c : Program ε β) w :=
  ⟨h, after, rfl⟩

/-- What no command of the program breaks. -/
theorem of_uses {P : ∀ {β : Type}, Command β → Prop}
    (exec : ∀ {β : Type} (c : Command β) (w : World σ), P c → I w → I (c.exec net w).2)
    (uses : p.Uses P) (h : I w) : Always net I p w := by
  induction p generalizing w with
  | done r => cases r <;> simp [Keeps, h]
  | unfinished => exact h
  | perform c next ih => exact ⟨h, ih _ (uses.2 _) (exec c w uses.1 h)⟩

/-! ### Programs whose commands leave the chain as it is, and programs that write it -/

section

variable (stable : World.Stable I) (h : I w)

include stable h

/-- Of a program that only asks, what its result is like can be read off its run. -/
theorem of_asks {P : Except ε α → Prop} (asks : p.Asks P)
    (result : ∀ a w', p.run net w = (some (.ok a), w') → w'.node = w.node → Q a w') :
    Keeps net I Q p w := by
  induction p generalizing w with
  | done r =>
    cases r with
    | ok a => exact ⟨h, result a w rfl rfl⟩
    | error e => exact h
  | unfinished => exact asks.elim
  | perform c next ih =>
    obtain ⟨asking, asks⟩ := asks
    have node := asking.exec net w
    refine ⟨h, ih _ (stable w _ ?_ (c.events_suffix net w) h) (asks _) ?_⟩
    · rw [World.chain, node]
    · exact fun a w' hrun same => result a w' hrun (same.trans node)

theorem step {wrap : δ → ε} {f : Node → Except δ α × Node}
    (same : (f w.node).2.store.chain = w.chain)
    (result : ∀ a, (f w.node).1 = .ok a → Q a { w with node := (f w.node).2 }) :
    Keeps net I Q (Program.step wrap f) w := by
  have after : I { w with node := (f w.node).2 } := stable w _ same (List.suffix_refl _) h
  refine ⟨h, ?_⟩
  show Keeps net I Q (.done ((f w.node).1.mapError wrap)) { w with node := (f w.node).2 }
  cases r : (f w.node).1 with
  | ok a => exact ⟨after, result a r⟩
  | error e => exact after

theorem read {wrap : StoreError → ε} {op : Store.Op α} {view : Chain → α}
    (reads : Store.Reads view op) :
    Keeps net I (fun a w' => a = view w'.chain ∧ w'.chain = w.chain ∧ w'.events = w.events)
      (Program.store wrap op) w := by
  obtain ⟨same, result⟩ := reads w.node.store
  refine step stable h same fun a ok => ⟨?_, same, rfl⟩
  show a = view (op w.node.store).2.chain
  rw [same]
  exact result a ok

theorem write {wrap : StoreError → ε} {m : StoreMethod}
    {change : Chain → Except StoreError (α × Chain)}
    (after : ∀ a w', change w.chain = .ok (a, w'.chain) → w'.events = w.events → I w') :
    Keeps net I (fun a w' => change w.chain = .ok (a, w'.chain) ∧ w'.events = w.events)
      (Program.store wrap (Store.write m change)) w := by
  let w' : World σ := { w with node := (w.node.withStore (Store.write m change)).2 }
  refine ⟨h, ?_⟩
  show Keeps net I _
    (.done ((w.node.withStore (Store.write m change)).1.mapError wrap)) w'
  have ended : (w.node.withStore (Store.write m change)).1 =
      (Store.write m change w.node.store).1 := rfl
  rw [ended]
  rcases Store.write_cases m change w.node.store with
    ⟨e, refused, same⟩ | ⟨a, c, accepted, result, written⟩
  · rw [refused]
    exact stable w w' same (List.suffix_refl _) h
  · have changed : change w.chain = .ok (a, w'.chain) := by
      rw [accepted]
      exact congrArg (fun c => Except.ok (a, c)) written.symm
    rw [result]
    exact ⟨after a w' changed rfl, changed, rfl⟩

end

end Keeps

end Program

end ChainNode
