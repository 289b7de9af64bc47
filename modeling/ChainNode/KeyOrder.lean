/-!
# Order by number, then by content

Leaves of a hash tree, block infos and pooled transactions are all put in the order of a number
with ties broken by a text or a byte string. Texts compare by code point, byte strings byte by
byte.

* `keyLE_total`, `keyLE_trans`, `keyLE_antisymm`: with a linear order on the second part this
  is a linear order, so a sorted list is determined by its members.
-/
namespace ChainNode

def keyLE {α : Type} [LE α] [DecidableLE α] (a b : Nat × α) : Bool :=
  a.1 < b.1 || (a.1 == b.1 && decide (a.2 ≤ b.2))

theorem keyLE_iff {α : Type} [LE α] [DecidableLE α] {a b : Nat × α} :
    keyLE a b = true ↔ a.1 < b.1 ∨ (a.1 = b.1 ∧ a.2 ≤ b.2) := by
  simp [keyLE]

theorem keyLE_total {α : Type} [LE α] [DecidableLE α] (total : ∀ a b : α, a ≤ b ∨ b ≤ a)
    (a b : Nat × α) : (keyLE a b || keyLE b a) = true := by
  rw [Bool.or_eq_true, keyLE_iff, keyLE_iff]
  rcases Nat.lt_trichotomy a.1 b.1 with h | h | h
  · exact .inl (.inl h)
  · exact (total a.2 b.2).elim (fun k => .inl (.inr ⟨h, k⟩)) (fun k => .inr (.inr ⟨h.symm, k⟩))
  · exact .inr (.inl h)

theorem keyLE_trans {α : Type} [LE α] [DecidableLE α]
    (trans : ∀ a b c : α, a ≤ b → b ≤ c → a ≤ c) (a b c : Nat × α) :
    keyLE a b = true → keyLE b c = true → keyLE a c = true := by
  simp only [keyLE_iff]
  rintro (h | ⟨h, k⟩) (h' | ⟨h', k'⟩)
  · exact .inl (by omega)
  · exact .inl (by omega)
  · exact .inl (by omega)
  · exact .inr ⟨by omega, trans _ _ _ k k'⟩

theorem keyLE_antisymm {α : Type} [LE α] [DecidableLE α]
    (antisymm : ∀ a b : α, a ≤ b → b ≤ a → a = b) (a b : Nat × α) :
    keyLE a b = true → keyLE b a = true → a = b := by
  simp only [keyLE_iff]
  rintro (h | ⟨h, k⟩) (h' | ⟨h', k'⟩)
  · omega
  · omega
  · omega
  · exact Prod.ext h (antisymm _ _ k k')

end ChainNode
