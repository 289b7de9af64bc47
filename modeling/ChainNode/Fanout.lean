/-!
# Asking many at once

All calls of a round are issued together; each is answered after its own latency, or given up at
the timeout. Answers are taken as they arrive, failures are dropped, and the round ends with the
answer that makes their number sufficient, or when every call has settled. Calls that are then
still open are never served.
-/
namespace ChainNode.Fanout

/-- How many answers are waited for when nothing else is said. -/
def minimumDesired (calls : Nat) : Nat := max 3 (calls / 2)

/-- A call and the time it takes to be served. -/
structure Call (γ : Type) where
  latency : Nat
  target : γ
  deriving Repr

/-- The answers in order of arrival and the time at which the round ended. -/
structure Gathered (β : Type) where
  answers : List β
  elapsed : Nat
  deriving Repr

variable {σ γ ε β : Type}

/-- Serve calls in the order of the list, which is that of their latencies. -/
def gather (timeout minimum : Nat) (serve : γ → σ → Except ε β × σ) :
    List (Call γ) → Gathered β → σ → Gathered β × σ
  | [], got, s => (got, s)
  | c :: rest, got, s =>
    if timeout < c.latency then ({ got with elapsed := timeout }, s)
    else
      match serve c.target s with
      | (.error _, s) => gather timeout minimum serve rest { got with elapsed := c.latency } s
      | (.ok answer, s) =>
        let got := ⟨got.answers ++ [answer], c.latency⟩
        if minimum ≤ got.answers.length then (got, s)
        else gather timeout minimum serve rest got s

/-- Calls in order of arrival; calls that take equally long stay in the order of their issue. -/
def arrivals (calls : List (Call γ)) : List (Call γ) := calls.mergeSort (·.latency ≤ ·.latency)

def fetchWithMinimum (timeout minimum : Nat) (serve : γ → σ → Except ε β × σ)
    (calls : List (Call γ)) (s : σ) : Gathered β × σ :=
  gather timeout minimum serve (arrivals calls) ⟨[], 0⟩ s

def fetch (timeout : Nat) (serve : γ → σ → Except ε β × σ) (calls : List (Call γ)) (s : σ) :
    Gathered β × σ :=
  fetchWithMinimum timeout (minimumDesired calls.length) serve calls s

end ChainNode.Fanout
