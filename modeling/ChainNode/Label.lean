/-!
# Texts and rows whose length is a word

What a memory holds is no longer than a word counts. `Label` is such a text, `Row` such a list. The
hashes and names that are written into blocks are labels, the inputs and outputs of a transaction
are rows; that is why their canonical bytes, which begin with the length as a word, tell them apart.

* `utf8ByteSize_ofList_le`: a text has at most four bytes for each character.
* `Label.le_trans`, `Label.le_total`, `Label.le_antisymm`: labels are in the order of their texts.
-/
namespace ChainNode

theorem utf8ByteSize_ofList_le : ∀ cs : List Char, (String.ofList cs).utf8ByteSize ≤ 4 * cs.length
  | [] => Nat.le_refl _
  | c :: cs => by
    have rest := utf8ByteSize_ofList_le cs
    have first : (String.ofList [c]).utf8ByteSize ≤ 4 := by simpa using c.utf8Size_le_four
    have split : String.ofList (c :: cs) = String.ofList [c] ++ String.ofList cs := by
      rw [← String.ofList_append, List.singleton_append]
    rw [split, String.utf8ByteSize_append, List.length_cons]
    omega

/-- A text whose length in bytes is a word. -/
structure Label where
  chars : String
  fits : chars.utf8ByteSize < UInt64.size
  deriving DecidableEq, Repr

namespace Label

instance : Coe Label String := ⟨chars⟩

instance : ToString Label := ⟨chars⟩

instance : LE Label := ⟨fun s t => s.chars ≤ t.chars⟩

instance : DecidableLE Label := fun s t => inferInstanceAs (Decidable (s.chars ≤ t.chars))

def empty : Label := ⟨"", by decide⟩

/-- The label of a text. A text that is too long for one is no text that a memory holds; it is taken
as empty. -/
def ofString (s : String) : Label :=
  if fits : s.utf8ByteSize < UInt64.size then ⟨s, fits⟩ else empty

theorem chars_inj {s t : Label} : s.chars = t.chars ↔ s = t := by
  refine ⟨fun same => ?_, congrArg chars⟩
  cases s
  cases t
  cases same
  rfl

theorem le_trans (r s t : Label) : r ≤ s → s ≤ t → r ≤ t := String.le_trans

theorem le_total (s t : Label) : s ≤ t ∨ t ≤ s := String.le_total _ _

theorem le_antisymm (s t : Label) (le : s ≤ t) (ge : t ≤ s) : s = t :=
  chars_inj.mp (String.le_antisymm le ge)

instance : Std.IsLinearOrder Label where
  le_refl _ := String.le_refl _
  le_trans := le_trans
  le_antisymm := le_antisymm
  le_total := le_total

end Label

/-- A list whose length is a word. -/
abbrev Row (α : Type) := { xs : List α // xs.length < UInt64.size }

namespace Row

variable {α : Type}

def empty : Row α := ⟨[], (by decide : 0 < UInt64.size)⟩

/-- The row of a list; a list that is too long for one is taken as empty. -/
def ofList (xs : List α) : Row α :=
  if fits : xs.length < UInt64.size then ⟨xs, fits⟩ else empty

end Row

end ChainNode
