/-!
# A bounded memory of what was seen

A cache remembers keys for a time-to-live and holds at most `capacity` of them, at least one.
Entries stand in the order in which they were last written, newest first; a lookup moves nothing.
That is why the oldest are found at the end, both when room is needed and when what has expired
is swept away.

* `length_put_le`: the bound holds after every write.
-/
namespace ChainNode

structure SeenCache (κ : Type) where
  capacity : Nat
  ttl : Nat
  entries : List (κ × Nat)

namespace SeenCache

variable {κ : Type} [DecidableEq κ]

def empty (capacity ttl : Nat) : SeenCache κ := ⟨max capacity 1, ttl, []⟩

def length (c : SeenCache κ) : Nat := c.entries.length

/-- Not yet expired at time `now`. -/
def isFresh (c : SeenCache κ) (now : Nat) (e : κ × Nat) : Bool := now - e.2 < c.ttl

def contains (c : SeenCache κ) (now : Nat) (key : κ) : Bool :=
  match c.entries.find? (·.1 = key) with
  | none => false
  | some e => c.isFresh now e

/-- Write a key, as the newest; a full cache loses its oldest. -/
def put (c : SeenCache κ) (now : Nat) (key : κ) : SeenCache κ :=
  { c with entries := ((key, now) :: c.entries.filter (·.1 ≠ key)).take c.capacity }

/-- True, and the key is written, unless it was seen and has not expired. -/
def insertIfAbsent (c : SeenCache κ) (now : Nat) (key : κ) : Bool × SeenCache κ :=
  if c.contains now key then (false, c) else (true, c.put now key)

/-- Sweep expired entries from the old end, up to the first that is fresh. -/
def purge (c : SeenCache κ) (now : Nat) : Nat × SeenCache κ :=
  let kept := (c.entries.reverse.dropWhile fun e => !c.isFresh now e).reverse
  (c.entries.length - kept.length, { c with entries := kept })

theorem length_put_le (c : SeenCache κ) (now : Nat) (key : κ) :
    (c.put now key).length ≤ c.capacity := by
  simp only [put, length, List.length_take]
  omega

end SeenCache

end ChainNode
