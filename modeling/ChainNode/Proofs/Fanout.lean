import Mathlib.Data.List.Basic
import Mathlib.Data.List.Perm.Subperm
import ChainNode.Node.Run
import ChainNode.Proofs.Fanout.Arrivals

/-!
# What a round of calls brings

Every answer of a round is what some call was answered at some moment of it. If the call that is
served first is answered in time, there is at least one; all calls that could come first being
answered, there is one whatever the latencies are.

* `gather_state`: what becomes of the peers.
* `mem_gather_after`, `mem_gather`, `mem_gather_of_first`: answers come from calls, and the first
  one counts.
* `gather_once`: no call is answered twice.
* `World.round_peers`, `World.round_answers`, `World.mem_round`, `World.round_once`: the same for a
  round that a node carries out.
* `World.round_noted`: what is noted of a round, and that its answers can be read off from that.
-/
namespace ChainNode

namespace Fanout

variable {σ γ ε β : Type} {timeout minimum : Nat} {serve : γ → σ → Except ε β × σ}

section

variable {R : σ → σ → Prop} (refl : ∀ s, R s s) (trans : ∀ {s s' s''}, R s s' → R s' s'' → R s s'')
  (one : ∀ x s, R s (serve x s).2)

include refl trans one

/-- What each call does to the peers, the round does, for a relation that goes along with doing
nothing and with doing one thing after another. -/
theorem gather_state (calls : List (Call γ)) (got : Gathered β) (s : σ) :
    R s (gather timeout minimum serve calls got s).2 := by
  induction calls generalizing got s with
  | nil => exact refl s
  | cons c rest ih =>
    have first := one c.target s
    unfold gather
    split
    · exact refl s
    · split
      · rename_i served
        rw [served] at first
        exact trans first (ih _ _)
      · rename_i served
        rw [served] at first
        dsimp only
        split
        · exact first
        · exact trans first (ih _ _)

/-- An answer was given in a state that the peers had come to. -/
theorem mem_gather_after {calls : List (Call γ)} {got : Gathered β} {s : σ} {a : β}
    (h : a ∈ (gather timeout minimum serve calls got s).1.answers) :
    a ∈ got.answers ∨ ∃ c ∈ calls, ∃ t t', R s t ∧ serve c.target t = (.ok a, t') := by
  induction calls generalizing got s with
  | nil => exact .inl h
  | cons c rest ih =>
    have first := one c.target s
    unfold gather at h
    split at h
    · exact .inl h
    · split at h
      · rename_i served
        rw [served] at first
        rcases ih h with h | ⟨c', hc', t, t', later, answered⟩
        · exact .inl h
        · exact .inr ⟨c', List.mem_cons_of_mem _ hc', t, t', trans first later, answered⟩
      · rename_i answer s' served
        rw [served] at first
        have new : a ∈ got.answers ++ [answer] →
            a ∈ got.answers ∨
              ∃ c' ∈ c :: rest, ∃ t t', R s t ∧ serve c'.target t = (.ok a, t') := by
          intro h
          rcases List.mem_append.mp h with h | h
          · exact .inl h
          · rw [List.mem_singleton.mp h]
            exact .inr ⟨c, List.mem_cons_self, s, s', refl s, served⟩
        dsimp only at h
        split at h
        · exact new h
        · rcases ih h with h | ⟨c', hc', t, t', later, answered⟩
          · exact new h
          · exact .inr ⟨c', List.mem_cons_of_mem _ hc', t, t', trans first later, answered⟩

end

theorem mem_gather {calls : List (Call γ)} {got : Gathered β} {s : σ} {a : β}
    (h : a ∈ (gather timeout minimum serve calls got s).1.answers) :
    a ∈ got.answers ∨ ∃ c ∈ calls, ∃ t t', serve c.target t = (.ok a, t') := by
  simpa using mem_gather_after (R := fun _ _ => True) (fun _ => trivial) (fun _ _ => trivial)
    (fun _ _ => trivial) h

theorem mem_gather_of_mem {calls : List (Call γ)} {got : Gathered β} {s : σ} {a : β}
    (h : a ∈ got.answers) : a ∈ (gather timeout minimum serve calls got s).1.answers := by
  induction calls generalizing got s with
  | nil => exact h
  | cons c rest ih =>
    unfold gather
    split
    · exact h
    · split
      · exact ih h
      · dsimp only
        split
        · exact List.mem_append_left _ h
        · exact ih (List.mem_append_left _ h)

theorem mem_gather_of_first {c : Call γ} {rest : List (Call γ)} {got : Gathered β} {s s' : σ}
    {a : β} (intime : c.latency ≤ timeout) (served : serve c.target s = (.ok a, s')) :
    a ∈ (gather timeout minimum serve (c :: rest) got s).1.answers := by
  unfold gather
  rw [if_neg (by omega), served]
  simp only
  split
  · exact List.mem_append_right _ List.mem_cons_self
  · exact mem_gather_of_mem (List.mem_append_right _ List.mem_cons_self)

/-- Each call is answered once at most: the new answers are those of some of the calls, in their
order. -/
theorem gather_once (timeout minimum : Nat) (serve : γ → σ → Except ε β × σ) (calls : List (Call γ))
    (got : Gathered β) (s : σ) :
    ∃ answered new, answered.Sublist calls ∧
      (gather timeout minimum serve calls got s).1.answers = got.answers ++ new ∧
      List.Forall₂ (fun c a => ∃ t t', serve c.target t = (.ok a, t')) answered new := by
  induction calls generalizing got s with
  | nil => exact ⟨[], [], List.Sublist.slnil, (List.append_nil _).symm, .nil⟩
  | cons c rest ih =>
    have ended : ∃ answered new, answered.Sublist (c :: rest) ∧
        got.answers = got.answers ++ new ∧
        List.Forall₂ (fun c a => ∃ t t', serve c.target t = (.ok a, t')) answered new :=
      ⟨[], [], List.nil_sublist _, (List.append_nil _).symm, .nil⟩
    unfold gather
    split
    · exact ended
    · split
      · obtain ⟨answered, new, some_of, answers, each⟩ := ih _ _
        exact ⟨answered, new, some_of.cons c, answers, each⟩
      · rename_i answer s' served
        dsimp only
        split
        · exact ⟨[c], [answer], (List.nil_sublist rest).cons_cons c, rfl,
            .cons ⟨s, s', served⟩ .nil⟩
        · obtain ⟨answered, new, some_of, answers, each⟩ := ih _ _
          exact ⟨c :: answered, answer :: new, some_of.cons_cons c,
            by rw [answers, List.append_assoc, List.singleton_append],
            .cons ⟨s, s', served⟩ each⟩

theorem mem_arrivals {calls : List (Call γ)} {c : Call γ} : c ∈ arrivals calls ↔ c ∈ calls :=
  List.mem_mergeSort

/-- One call needs no sorting. -/
theorem fetch_singleton (timeout : Nat) (serve : γ → σ → Except ε β × σ) (call : Call γ) (s : σ) :
    fetch timeout serve [call] s = gather timeout (minimumDesired 1) serve [call] ⟨[], 0⟩ s := by
  unfold fetch fetchWithMinimum arrivals
  rw [List.mergeSort_singleton]
  rfl

end Fanout

namespace World

variable {σ β : Type}

theorem serve_eq_ok {net : Network σ} {r : Round β} {call : NodeId × Message} {s s' : σ}
    {a : β × NodeId × Message} (served : serve net r call s = (.ok a, s')) :
    (net.handle call.1 call.2 s).1 = .ok a.2.2 ∧ a.2.1 = call.1 ∧
      r.read call.1 a.2.2 = .ok a.1 := by
  unfold serve at served
  split at served
  · cases served
  · rename_i reply _ handled
    split at served
    · cases served
    · rename_i answer hread
      cases served
      exact ⟨by rw [handled], rfl, hread⟩

theorem serve_of_handle {net : Network σ} {r : Round β} {call : NodeId × Message} {s : σ}
    {m : Message} {answer : β} (handled : (net.handle call.1 call.2 s).1 = .ok m)
    (hread : r.read call.1 m = .ok answer) : ∃ a s', serve net r call s = (.ok a, s') := by
  obtain ⟨s', hs'⟩ : ∃ s', net.handle call.1 call.2 s = (.ok m, s') := ⟨_, Prod.ext handled rfl⟩
  refine ⟨(answer, call.1, m), s', ?_⟩
  unfold serve
  rw [hs']
  simp only [hread]

/-- A call does to the peers what the peer that is called does. -/
theorem serve_peers (net : Network σ) (r : Round β) (call : NodeId × Message) (s : σ) :
    (serve net r call s).2 = (net.handle call.1 call.2 s).2 := by
  unfold serve
  split
  · rename_i handled
    rw [handled]
  · rename_i handled
    rw [handled]
    dsimp only
    split <;> rfl

/-- And a round what all of them do. -/
theorem round_peers {net : Network σ} {R : σ → σ → Prop} (refl : ∀ s, R s s)
    (trans : ∀ {s s' s''}, R s s' → R s' s'' → R s s'')
    (one : ∀ id m s, R s (net.handle id m s).2) (r : Round β) (w : World σ) :
    R w.peers (w.round net r).2.peers :=
  Fanout.gather_state refl trans
    (fun call s => by rw [serve_peers]; exact one call.1 call.2 s) _ _ _

/-- A round all of whose calls are answered in time when they come first has answers, and each is
one that `Good` allows for its call. -/
theorem round_answers (net : Network σ) (r : Round β) (w : World σ)
    (Good : NodeId × Message → β → Prop) (nonempty : r.calls ≠ [])
    (intime : ∀ call ∈ r.calls, net.latency call.1 call.2 w.peers ≤ r.timeout)
    (first : ∀ call ∈ r.calls, ∃ a s, serve net r call w.peers = (.ok a, s))
    (good : ∀ call ∈ r.calls, ∀ s a s', serve net r call s = (.ok a, s') → Good call a.1) :
    (w.round net r).1 ≠ [] ∧ ∀ b ∈ (w.round net r).1, ∃ call ∈ r.calls, Good call b := by
  let calls := r.calls.map fun call =>
    (⟨net.latency call.1 call.2 w.peers, call⟩ : Fanout.Call (NodeId × Message))
  have answers : (w.round net r).1 =
      (Fanout.fetch r.timeout (serve net r) calls w.peers).1.answers.map (·.1) := rfl
  have called : ∀ c ∈ Fanout.arrivals calls,
      c.target ∈ r.calls ∧ c.latency = net.latency c.target.1 c.target.2 w.peers := by
    intro c hc
    obtain ⟨call, hcall, rfl⟩ := List.mem_map.mp (Fanout.mem_arrivals.mp hc)
    exact ⟨hcall, rfl⟩
  rw [answers]
  constructor
  · cases order : Fanout.arrivals calls with
    | nil =>
      obtain ⟨call, hcall⟩ := List.exists_mem_of_ne_nil _ nonempty
      have arrives : _ ∈ Fanout.arrivals calls :=
        Fanout.mem_arrivals.mpr (List.mem_map_of_mem hcall)
      rw [order] at arrives
      cases arrives
    | cons c rest =>
      have hc : c ∈ Fanout.arrivals calls := by rw [order]; exact List.mem_cons_self
      obtain ⟨a, s, served⟩ := first _ (called c hc).1
      have arrived : a ∈ (Fanout.fetch r.timeout (serve net r) calls w.peers).1.answers := by
        unfold Fanout.fetch Fanout.fetchWithMinimum
        rw [order]
        exact Fanout.mem_gather_of_first
          (by rw [(called c hc).2]; exact intime _ (called c hc).1) served
      intro empty
      rw [List.map_eq_nil_iff] at empty
      rw [empty] at arrived
      cases arrived
  · intro b hb
    obtain ⟨a, ha, rfl⟩ := List.mem_map.mp hb
    rcases Fanout.mem_gather ha with h | ⟨c, hc, s, s', served⟩
    · cases h
    · exact ⟨c.target, (called c hc).1, good _ (called c hc).1 _ _ _ served⟩

/-- An answer is what is understood of a reply that somebody gave, in a state that the peers had
come to in the round. -/
theorem mem_round {net : Network σ} {r : Round β} {R : σ → σ → Prop} (refl : ∀ s, R s s)
    (trans : ∀ {s s' s''}, R s s' → R s' s'' → R s s'')
    (one : ∀ id m s, R s (net.handle id m s).2) {w : World σ} {b : β} (h : b ∈ (w.round net r).1) :
    ∃ id m s reply, R w.peers s ∧ (net.handle id m s).1 = .ok reply ∧ r.read id reply = .ok b := by
  obtain ⟨a, ha, rfl⟩ := List.mem_map.mp h
  have call_one : ∀ call s, R s (serve net r call s).2 := fun call s => by
    rw [serve_peers]
    exact one call.1 call.2 s
  rcases Fanout.mem_gather_after refl trans call_one ha with
    before | ⟨call, -, s, s', later, served⟩
  · cases before
  · obtain ⟨handled, -, understood⟩ := serve_eq_ok served
    exact ⟨call.target.1, call.target.2, s, a.2.2, later, handled, understood⟩

/-- What is understood of replies. -/
def understood (read : NodeId → Message → Except SyncError β) (replies : List (NodeId × Message)) :
    List β :=
  replies.filterMap fun reply => (read reply.1 reply.2).toOption

theorem mem_understood {read : NodeId → Message → Except SyncError β}
    {replies : List (NodeId × Message)} {b : β} :
    b ∈ understood read replies ↔ ∃ reply ∈ replies, read reply.1 reply.2 = .ok b := by
  simp only [understood, List.mem_filterMap]
  refine exists_congr fun reply => and_congr_right fun _ => ?_
  cases read reply.1 reply.2 <;> simp [Except.toOption]

/-- A round is noted with its calls and with the replies that counted. These are what peers said to
some call, and its answers are what is understood of them. -/
theorem round_noted (net : Network σ) (r : Round β) (w : World σ) :
    ∃ replies elapsed,
      (w.round net r).2.events = .asked r.calls replies elapsed :: w.events ∧
      (∀ reply ∈ replies, ∃ m s, (reply.1, m) ∈ r.calls ∧
        (net.handle reply.1 m s).1 = .ok reply.2) ∧
      (w.round net r).1 = understood r.read replies := by
  let calls := r.calls.map fun call =>
    (⟨net.latency call.1 call.2 w.peers, call⟩ : Fanout.Call (NodeId × Message))
  let got := (Fanout.fetch r.timeout (serve net r) calls w.peers).1
  have served : ∀ a ∈ got.answers, ∃ call ∈ r.calls, ∃ s,
      (net.handle call.1 call.2 s).1 = .ok a.2.2 ∧ a.2.1 = call.1 ∧
        r.read call.1 a.2.2 = .ok a.1 := by
    intro a ha
    rcases Fanout.mem_gather ha with before | ⟨c, hc, s, s', hs⟩
    · cases before
    · obtain ⟨call, hcall, rfl⟩ := List.mem_map.mp (Fanout.mem_arrivals.mp hc)
      exact ⟨call, hcall, s, serve_eq_ok hs⟩
  refine ⟨got.answers.map (·.2), got.elapsed, rfl, ?_, ?_⟩
  · intro reply hreply
    obtain ⟨a, ha, rfl⟩ := List.mem_map.mp hreply
    obtain ⟨call, hcall, s, handled, asked, -⟩ := served a ha
    exact ⟨call.2, s, by rwa [asked], by rwa [asked]⟩
  · show got.answers.map (·.1) = understood r.read (got.answers.map (·.2))
    symm
    rw [understood, List.filterMap_map]
    refine List.filterMap_eq_map_iff_forall_eq_some.mpr fun a ha => ?_
    obtain ⟨call, -, s, -, asked, hread⟩ := served a ha
    simp [asked, hread, Except.toOption]

theorem map_replier {net : Network σ} {r : Round β} {calls : List (Fanout.Call (NodeId × Message))}
    {answers : List (β × NodeId × Message)}
    (each : List.Forall₂ (fun c a => ∃ s s', serve net r c.target s = (.ok a, s')) calls answers) :
    answers.map (·.2.1) = calls.map (·.target.1) := by
  induction each with
  | nil => rfl
  | cons served _ ih =>
    obtain ⟨s, s', served⟩ := served
    rw [List.map_cons, List.map_cons, ih, (serve_eq_ok served).2.1]

/-- No call of a round has two replies. -/
theorem round_once {net : Network σ} {r : Round β} {w : World σ}
    {replies : List (NodeId × Message)} {elapsed : Nat}
    (noted : (w.round net r).2.events = .asked r.calls replies elapsed :: w.events) :
    (replies.map Prod.fst).Subperm (r.calls.map Prod.fst) := by
  let calls := r.calls.map fun call =>
    (⟨net.latency call.1 call.2 w.peers, call⟩ : Fanout.Call (NodeId × Message))
  let got := (Fanout.fetch r.timeout (serve net r) calls w.peers).1
  have counted : (w.round net r).2.events =
      .asked r.calls (got.answers.map (·.2)) got.elapsed :: w.events := rfl
  obtain ⟨same, -⟩ := List.cons.inj (noted.symm.trans counted)
  obtain ⟨-, rfl, -⟩ := Event.asked.inj same
  obtain ⟨answered, new, some_of, answers, each⟩ :=
    Fanout.gather_once r.timeout (Fanout.minimumDesired calls.length) (serve net r)
      (Fanout.arrivals calls) ⟨[], 0⟩ w.peers
  have answers : got.answers = new := answers
  have named : (got.answers.map (·.2)).map Prod.fst = answered.map (·.target.1) := by
    rw [answers, List.map_map, ← map_replier each]
    rfl
  have issued : calls.map (·.target.1) = r.calls.map Prod.fst := by
    rw [List.map_map]
    rfl
  rw [named, ← issued]
  exact (some_of.map _).subperm.trans ((Fanout.arrivals_perm calls).map _).subperm

end World

end ChainNode
