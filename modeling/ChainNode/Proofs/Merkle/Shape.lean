import ChainNode.Proofs.Merkle.Pairs

/-!
# What a tree tells of its leaves

Suppose that joining forgets nothing: the two parts can be told from what they are joined to, and
so can the level. Then the top of a tree almost determines the leaves. It cannot tell a tail that
is there twice from one that is joined with itself, so two rows of leaves with one top need not be
equal, but the longer is the shorter one, filled up with members of it; and if it is longer by one
leaf only, the two are known exactly.

* `Faithful.fillsUp`: one top, one row of leaves up to filling.
* `Faithful.eq_of_length`: one top and one length, one row.
* `Faithful.longer_by_one`: the shapes of two rows of which one has a leaf more.
-/
namespace ChainNode.Merkle

variable {α β : Type}

/-- The second row is the first one, continued with members of it. -/
structure FillsUp (xs ys : List α) : Prop where
  starts : xs <+: ys
  members : ys ⊆ xs

theorem FillsUp.eq_of_nodup {xs ys : List α} (h : FillsUp xs ys) (distinct : ys.Nodup) :
    xs = ys := by
  obtain ⟨rest, rfl⟩ := h.starts
  cases rest with
  | nil => exact (List.append_nil xs).symm
  | cons x rest =>
    have again : x ∈ xs := h.members (by simp)
    have apart := (List.nodup_append.mp distinct).2.2
    exact absurd rfl (apart x again x List.mem_cons_self)

/-! ## One level -/

section

variable {f : α → α → β}

theorem mem_of_mem_pairWith {z : β} : ∀ {xs : List α}, z ∈ pairWith f xs →
    ∃ a ∈ xs, ∃ b ∈ xs, z = f a b
  | [a], h => ⟨a, by simp, a, by simp, List.mem_singleton.mp h⟩
  | a :: b :: rest, h => by
    rcases List.mem_cons.mp h with rfl | later
    · exact ⟨a, by simp, b, by simp, rfl⟩
    · obtain ⟨c, hc, d, hd, rfl⟩ := mem_of_mem_pairWith later
      exact ⟨c, by simp [hc], d, by simp [hd], rfl⟩

theorem exists_mem_pairWith {a : α} : ∀ {xs : List α}, a ∈ xs →
    ∃ b, f a b ∈ pairWith f xs ∨ f b a ∈ pairWith f xs
  | [c], h => by
    obtain rfl := List.mem_singleton.mp h
    exact ⟨a, .inl (by simp [pairWith])⟩
  | c :: d :: rest, h => by
    rcases List.mem_cons.mp h with rfl | h
    · exact ⟨d, .inl (by simp [pairWith])⟩
    · rcases List.mem_cons.mp h with rfl | later
      · exact ⟨c, .inr (by simp [pairWith])⟩
      · obtain ⟨b, joined⟩ := exists_mem_pairWith later
        exact ⟨b, joined.imp (List.mem_cons_of_mem _) (List.mem_cons_of_mem _)⟩

variable (inj : Function.Injective2 f)

include inj

theorem subset_of_pairWith {xs ys : List α} (h : pairWith f ys ⊆ pairWith f xs) : ys ⊆ xs := by
  intro y hy
  obtain ⟨b, joined | joined⟩ := exists_mem_pairWith (f := f) hy
  · obtain ⟨c, hc, d, -, same⟩ := mem_of_mem_pairWith (h joined)
    exact (inj same).1 ▸ hc
  · obtain ⟨c, -, d, hd, same⟩ := mem_of_mem_pairWith (h joined)
    exact (inj same).2 ▸ hd

theorem prefix_of_pairWith : ∀ {xs ys : List α}, xs.length ≤ ys.length →
    pairWith f xs <+: pairWith f ys → xs <+: ys
  | [], _, _, _ => List.nil_prefix
  | [a], [b], _, h => by
    obtain ⟨same, -⟩ := List.cons_prefix_cons.mp h
    obtain ⟨rfl, -⟩ := inj same
    exact List.prefix_refl _
  | [a], b :: c :: rest, _, h => by
    obtain ⟨same, -⟩ := List.cons_prefix_cons.mp h
    exact List.cons_prefix_cons.mpr ⟨(inj same).1, List.nil_prefix⟩
  | a :: b :: rest, c :: d :: rest', short, h => by
    obtain ⟨same, later⟩ := List.cons_prefix_cons.mp h
    obtain ⟨rfl, rfl⟩ := inj same
    have shorter : rest.length ≤ rest'.length := by simpa using short
    exact List.cons_prefix_cons.mpr ⟨rfl, List.cons_prefix_cons.mpr
      ⟨rfl, prefix_of_pairWith shorter later⟩⟩

theorem eq_replicate_of_pairWith {xs : List α} {w : α} {n : Nat} (even : xs.length % 2 = 0)
    (h : pairWith f xs = List.replicate n (f w w)) : xs = List.replicate (2 * n) w := by
  have lengths := congrArg List.length h
  rw [length_pairWith, List.length_replicate] at lengths
  refine List.eq_replicate_iff.mpr ⟨by omega, fun x hx => ?_⟩
  obtain ⟨b, joined | joined⟩ := exists_mem_pairWith (f := f) hx
  · rw [h] at joined
    exact (inj (List.eq_of_mem_replicate joined)).1
  · rw [h] at joined
    exact (inj (List.eq_of_mem_replicate joined)).2

omit inj in
/-- A level that falls into two parts does so because the level below it does. -/
theorem exists_append_of_pairWith : ∀ {xs : List α} {us vs : List β}, xs.length % 2 = 0 →
    pairWith f xs = us ++ vs →
      ∃ front back, xs = front ++ back ∧ front.length = 2 * us.length ∧ pairWith f back = vs
  | xs, [], _, _, h => ⟨[], xs, rfl, rfl, h⟩
  | [a], _ :: _, _, even, _ => by simp at even
  | a :: b :: rest, u :: us, vs, even, h => by
    obtain ⟨-, later⟩ := List.cons.inj h
    have shorter : rest.length % 2 = 0 := by simp at even; omega
    obtain ⟨front, back, rfl, length, above⟩ := exists_append_of_pairWith shorter later
    exact ⟨a :: b :: front, back, rfl, by simp [length]; omega, above⟩

/-! Two rows of which one has a member more, with levels above them that differ likewise or not. -/

omit inj in
theorem exists_eq_append_singleton {xs ys : List α} (starts : xs <+: ys)
    (longer : ys.length = xs.length + 1) : ∃ w, ys = xs ++ [w] := by
  obtain ⟨rest, rfl⟩ := starts
  obtain ⟨w, rfl⟩ := List.length_eq_one_iff.mp (show rest.length = 1 by simpa using longer)
  exact ⟨w, rfl⟩

theorem longer_of_pairWith_eq {xs ys : List α} (odd : xs.length % 2 = 1)
    (longer : ys.length = xs.length + 1) (same : pairWith f xs = pairWith f ys) :
    ∃ front w, xs = front ++ [w] ∧ ys = front ++ [w, w] := by
  have starts : xs <+: ys := prefix_of_pairWith inj (by omega) (same ▸ List.prefix_refl _)
  obtain ⟨v, rfl⟩ := exists_eq_append_singleton starts longer
  rcases List.eq_nil_or_concat xs with rfl | ⟨front, w, rfl⟩
  · simp at odd
  · have even : front.length % 2 = 0 := by simp at odd; omega
    rw [List.concat_eq_append, List.append_assoc, pairWith_append _ even,
      pairWith_append _ even] at same
    have tails := List.append_cancel_left same
    obtain ⟨-, rfl⟩ := inj (List.cons.inj tails).1
    exact ⟨front, w, by simp, by simp⟩

theorem longer_of_pairWith_replicate {xs ys : List α} {above : List β} {u : β} {q : Nat}
    (even : xs.length % 2 = 0) (longer : ys.length = xs.length + 1)
    (hx : pairWith f xs = above ++ List.replicate q u)
    (hy : pairWith f ys = above ++ List.replicate (q + 1) u) :
    ∃ front w, front.length = 2 * above.length ∧ xs = front ++ List.replicate (2 * q) w ∧
      ys = front ++ List.replicate (2 * q + 1) w := by
  have next : pairWith f ys = pairWith f xs ++ [u] := by
    rw [hx, hy, List.replicate_succ', List.append_assoc]
  have starts : xs <+: ys := prefix_of_pairWith inj (by omega) ⟨[u], next.symm⟩
  obtain ⟨w, rfl⟩ := exists_eq_append_singleton starts longer
  rw [pairWith_append _ even] at next
  obtain rfl : f w w = u := (List.cons.inj (List.append_cancel_left next)).1
  obtain ⟨front, back, rfl, length, tail⟩ := exists_append_of_pairWith even hx
  obtain rfl := eq_replicate_of_pairWith inj (by simp at even; omega) tail
  exact ⟨front, w, length, rfl, by rw [List.replicate_succ', List.append_assoc]⟩

end

/-! ## All levels -/

/-- A way of joining that forgets nothing: neither the parts nor the level they are on. -/
structure Faithful (join : α → α → α) (rank : α → Nat) : Prop where
  parts : Function.Injective2 join
  rank : ∀ a b, rank (join a b) = rank a + 1

namespace Faithful

variable {join : α → α → α} {rank : α → Nat} (h : Faithful join rank)

include h

theorem rank_pairWith {n : Nat} {xs : List α} (level : ∀ x ∈ xs, rank x = n) :
    ∀ z ∈ pairWith join xs, rank z = n + 1 := by
  intro z hz
  obtain ⟨a, ha, b, -, rfl⟩ := mem_of_mem_pairWith hz
  rw [h.rank, level a ha]

theorem rank_foldPairs {n : Nat} {top : α} {xs : List α} (level : ∀ x ∈ xs, rank x = n)
    (folded : foldPairs join xs = some top) : n ≤ rank top := by
  induction xs using foldPairs.induct join generalizing n with
  | case1 => simp [foldPairs] at folded
  | case2 a =>
    rw [foldPairs, Option.some.injEq] at folded
    exact Nat.le_of_eq (folded ▸ (level a (by simp)).symm)
  | case3 a b rest ih =>
    rw [foldPairs] at folded
    exact Nat.le_of_lt (ih (h.rank_pairWith level) folded)

theorem lt_rank_foldPairs {n : Nat} {top : α} {xs : List α} (level : ∀ x ∈ xs, rank x = n)
    (two : 2 ≤ xs.length) (folded : foldPairs join xs = some top) : n < rank top := by
  rw [foldPairs_of_two_le two] at folded
  exact h.rank_foldPairs (h.rank_pairWith level) folded

/-- By induction along the levels: what holds of the levels above is handed down. -/
theorem fillsUp {n : Nat} {top : α} {xs ys : List α} (levelX : ∀ x ∈ xs, rank x = n)
    (levelY : ∀ y ∈ ys, rank y = n) (short : xs.length ≤ ys.length)
    (foldedX : foldPairs join xs = some top) (foldedY : foldPairs join ys = some top) :
    FillsUp xs ys := by
  induction xs using foldPairs.induct join generalizing n ys with
  | case1 => simp [foldPairs] at foldedX
  | case2 a =>
    rw [foldPairs, Option.some.injEq] at foldedX
    subst foldedX
    rcases Nat.lt_or_ge ys.length 2 with single | two
    · have length : ys.length = 1 := Nat.le_antisymm (Nat.le_of_lt_succ single) short
      obtain ⟨b, rfl⟩ := List.length_eq_one_iff.mp length
      rw [foldPairs, Option.some.injEq] at foldedY
      exact foldedY ▸ ⟨List.prefix_refl _, List.Subset.refl _⟩
    · have higher := h.lt_rank_foldPairs levelY two foldedY
      have here := levelX a (by simp)
      omega
  | case3 a b rest ih =>
    have two : 2 ≤ ys.length := by simp at short; omega
    rw [foldPairs] at foldedX
    rw [foldPairs_of_two_le two] at foldedY
    have shorter : (pairWith join (a :: b :: rest)).length ≤ (pairWith join ys).length := by
      rw [length_pairWith, length_pairWith]
      omega
    have above := ih (h.rank_pairWith levelX) (h.rank_pairWith levelY) shorter foldedX foldedY
    exact ⟨prefix_of_pairWith h.parts short above.starts,
      subset_of_pairWith h.parts above.members⟩

theorem eq_of_length {n : Nat} {top : α} {xs ys : List α} (levelX : ∀ x ∈ xs, rank x = n)
    (levelY : ∀ y ∈ ys, rank y = n) (length : xs.length = ys.length)
    (foldedX : foldPairs join xs = some top) (foldedY : foldPairs join ys = some top) :
    xs = ys :=
  (h.fillsUp levelX levelY (Nat.le_of_eq length) foldedX foldedY).starts.eq_of_length length

/-- A leaf more that does not show at the top stands behind copies of itself, as many as the tree
would otherwise have repeated in its place; and in front of them there is something. -/
theorem longer_by_one {n : Nat} {top : α} {xs ys : List α} (levelX : ∀ x ∈ xs, rank x = n)
    (levelY : ∀ y ∈ ys, rank y = n) (longer : ys.length = xs.length + 1)
    (foldedX : foldPairs join xs = some top) (foldedY : foldPairs join ys = some top) :
    ∃ front w k m, front.length = 2 ^ (k + 1) * (m + 1) ∧
      xs = front ++ List.replicate (2 ^ k) w ∧ ys = front ++ List.replicate (2 ^ k + 1) w := by
  induction xs using foldPairs.induct join generalizing n ys with
  | case1 => simp [foldPairs] at foldedX
  | case2 a =>
    rw [foldPairs, Option.some.injEq] at foldedX
    subst foldedX
    have higher := h.lt_rank_foldPairs levelY (by simp [longer]) foldedY
    have here := levelX a (by simp)
    omega
  | case3 a b rest ih =>
    rw [foldPairs] at foldedX
    rw [foldPairs_of_two_le (by simp [longer])] at foldedY
    have levelX' := h.rank_pairWith levelX
    have levelY' := h.rank_pairWith levelY
    have lengthX := length_pairWith join (a :: b :: rest)
    have lengthY := length_pairWith join ys
    rcases Nat.mod_two_eq_zero_or_one (a :: b :: rest).length with even | odd
    · -- The level above is longer by one as well.
      obtain ⟨above, u, k, m, length, hx, hy⟩ := ih levelX' levelY' (by omega) foldedX foldedY
      obtain ⟨front, w, twice, hx, hy⟩ :=
        longer_of_pairWith_replicate h.parts even longer hx hy
      rw [← Nat.pow_succ'] at hx hy
      refine ⟨front, w, k + 1, m, ?_, hx, hy⟩
      rw [twice, length, ← Nat.mul_assoc, ← Nat.pow_succ']
    · -- The leaf is joined with its neighbour, which was joined with itself.
      have same := h.eq_of_length levelX' levelY' (by omega) foldedX foldedY
      obtain ⟨front, w, hx, hy⟩ := longer_of_pairWith_eq h.parts odd longer same
      have length := congrArg List.length hx
      simp only [List.length_cons, List.length_append, List.length_nil] at length odd
      exact ⟨front, w, 0, front.length / 2 - 1, by omega, hx, hy⟩

end Faithful

end ChainNode.Merkle
