import ChainNode.Entity
import Mathlib.Algebra.Group.Nat.Defs
import Mathlib.Logic.Function.Basic

/-!
# Joining neighbours, level by level

A hash tree is one way of joining the neighbours of a level, the last one of an odd level with
itself, until one is left. `pairWith` and `foldPairs` do this with any way of joining. Hashes are
joined by `node`; the byte strings that are hashed for a level come of `nodeBytes`; and trees, which
forget nothing, are joined in the same way, so that what holds of trees can be carried over.

* `pairUp_eq_pairWith`, `top_eq_foldPairs`: hash trees are an instance.
* `map_foldPairs`: a map that respects joining respects the whole fold.
* `foldPairs_append_replicate`: a tail that the fold repeats anyway can be left out.
-/
namespace ChainNode.Merkle

variable {α β γ : Type}

/-- Neighbours joined, an odd tail with itself. -/
def pairWith (f : α → α → β) : List α → List β
  | [] => []
  | [a] => [f a a]
  | a :: b :: rest => f a b :: pairWith f rest

theorem length_pairWith (f : α → α → β) :
    ∀ xs : List α, (pairWith f xs).length = (xs.length + 1) / 2
  | [] => by simp [pairWith]
  | [_] => by simp [pairWith]
  | _ :: _ :: rest => by simp [pairWith, length_pairWith f rest]; omega

theorem length_pairWith_lt (f : α → α → β) (a b : α) (rest : List α) :
    (pairWith f (a :: b :: rest)).length < (a :: b :: rest).length := by
  rw [length_pairWith]; simp; omega

/-- What a level comes down to. -/
def foldPairs (f : α → α → α) : List α → Option α
  | [] => none
  | [a] => some a
  | a :: b :: rest => foldPairs f (pairWith f (a :: b :: rest))
termination_by xs => xs.length
decreasing_by exact length_pairWith_lt f a b rest

theorem pairUp_eq_pairWith : ∀ level : List Label, pairUp level = pairWith node level
  | [] => rfl
  | [_] => rfl
  | a :: b :: rest => by rw [pairUp, pairWith, pairUp_eq_pairWith rest]

theorem foldPairs_of_two_le {f : α → α → α} : ∀ {xs : List α}, 2 ≤ xs.length →
    foldPairs f xs = foldPairs f (pairWith f xs)
  | a :: b :: rest, _ => by rw [foldPairs]

theorem top_eq_foldPairs : ∀ level : List Label, top level = foldPairs node level
  | [] => by rw [top, foldPairs]
  | [a] => by rw [top, foldPairs]
  | a :: b :: rest => by
    rw [top, foldPairs, top_eq_foldPairs, pairUp_eq_pairWith]
termination_by level => level.length
decreasing_by exact pairUp_length_lt a b rest

/-! ## Maps -/

theorem map_pairWith (g : β → γ) (f : α → α → β) :
    ∀ xs : List α, (pairWith f xs).map g = pairWith (fun a b => g (f a b)) xs
  | [] => rfl
  | [_] => rfl
  | a :: b :: rest => congrArg (g (f a b) :: ·) (map_pairWith g f rest)

theorem pairWith_map (f : β → β → γ) (g : α → β) :
    ∀ xs : List α, pairWith f (xs.map g) = pairWith (fun a b => f (g a) (g b)) xs
  | [] => rfl
  | [_] => rfl
  | a :: b :: rest => congrArg (f (g a) (g b) :: ·) (pairWith_map f g rest)

theorem map_foldPairs {f : α → α → α} {f' : β → β → β} {g : α → β}
    (respects : ∀ a b, g (f a b) = f' (g a) (g b)) (xs : List α) :
    (foldPairs f xs).map g = foldPairs f' (xs.map g) := by
  induction xs using foldPairs.induct f with
  | case1 => simp [foldPairs]
  | case2 a => simp [foldPairs]
  | case3 a b rest ih =>
    have level : (pairWith f (a :: b :: rest)).map g = pairWith f' ((a :: b :: rest).map g) := by
      simp only [map_pairWith, pairWith_map, respects]
    rw [foldPairs, ih, level, ← foldPairs_of_two_le (by simp)]

/-! ## Parts of a level -/

variable {f : α → α → β}

theorem pairWith_append : ∀ {xs : List α} (ys : List α), xs.length % 2 = 0 →
    pairWith f (xs ++ ys) = pairWith f xs ++ pairWith f ys
  | [], _, _ => rfl
  | [_], _, even => by simp at even
  | a :: b :: rest, ys, even => by
    have shorter : rest.length % 2 = 0 := by simp at even; omega
    exact congrArg (f a b :: ·) (pairWith_append ys shorter)

theorem pairWith_replicate (w : α) :
    ∀ n, pairWith f (List.replicate n w) = List.replicate ((n + 1) / 2) (f w w)
  | 0 => rfl
  | 1 => rfl
  | n + 2 => by
    have half : (n + 2 + 1) / 2 = (n + 1) / 2 + 1 := by omega
    rw [half, List.replicate_succ, List.replicate_succ, List.replicate_succ, pairWith,
      pairWith_replicate w n]

theorem foldPairs_append_copies {f : α → α → α} {front : List α} (w : α) (n : Nat)
    (two : 2 ≤ front.length) (even : front.length % 2 = 0) :
    foldPairs f (front ++ List.replicate n w) =
      foldPairs f (pairWith f front ++ List.replicate ((n + 1) / 2) (f w w)) := by
  rw [foldPairs_of_two_le (by simp; omega), pairWith_append _ even, pairWith_replicate]

/-- By induction on `k`: as long as the copies fill whole pairs, they are copies on the level above
too, half as many; at the end the last one is joined with itself or with a copy of itself. -/
theorem foldPairs_append_replicate {f : α → α → α} {front : List α} (w : α) {k m : Nat}
    (hfront : front.length = 2 ^ (k + 1) * (m + 1)) :
    foldPairs f (front ++ List.replicate (2 ^ k + 1) w) =
      foldPairs f (front ++ List.replicate (2 ^ k) w) := by
  induction k generalizing front w with
  | zero =>
    have two : 2 ≤ front.length := by omega
    have even : front.length % 2 = 0 := by omega
    rw [Nat.pow_zero, foldPairs_append_copies w (1 + 1) two even,
      foldPairs_append_copies w 1 two even]
  | succ k ih =>
    have double : front.length = 2 * (2 ^ (k + 1) * (m + 1)) := by
      rw [hfront, Nat.pow_succ', Nat.mul_assoc]
    have positive : 0 < 2 ^ (k + 1) * (m + 1) :=
      Nat.mul_pos (Nat.two_pow_pos _) (Nat.succ_pos m)
    have two : 2 ≤ front.length := by omega
    have even : front.length % 2 = 0 := by omega
    have half : (pairWith f front).length = 2 ^ (k + 1) * (m + 1) := by
      rw [length_pairWith]
      omega
    have copies : (2 ^ (k + 1) + 1 + 1) / 2 = 2 ^ k + 1 ∧ (2 ^ (k + 1) + 1) / 2 = 2 ^ k := by
      rw [Nat.pow_succ]
      omega
    rw [foldPairs_append_copies w (2 ^ (k + 1) + 1) two even,
      foldPairs_append_copies w (2 ^ (k + 1)) two even, copies.1, copies.2, ih (f w w) half]

end ChainNode.Merkle
