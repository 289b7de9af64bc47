import Mathlib.Data.List.TakeWhile
import Mathlib.Data.Nat.Digits.Defs
import ChainNode.Text.Blank
import ChainNode.Text.Decimal

/-!
# Texts that stand for a number

Between blanks, an optional plus sign and one or more ASCII digits. `Numeral` says so without
reading: it names the parts and gives the number in positional notation. Neither signs nor digits
are blank, so trimming leaves just the middle part, and a plus sign is not a digit, so it is clear
where the digits begin.

* `trim_append`, `exists_trim`: what trimming takes away.
* `readDecimal_trim_eq_some_iff`: what is read, exactly.
-/
namespace ChainNode.Text

/-- A text that stands for a number. -/
inductive Numeral : List Char → Nat → Prop where
  | intro {before sign digits after : List Char} (blank_before : ∀ c ∈ before, isBlank c = true)
      (plus : sign = [] ∨ sign = ['+']) (some_digit : digits ≠ [])
      (decimal : ∀ c ∈ digits, c.isDigit = true) (blank_after : ∀ c ∈ after, isBlank c = true) :
      Numeral (before ++ (sign ++ digits) ++ after)
        (Nat.ofDigits 10 (digits.reverse.map digitValue))

/-! ## Blanks -/

theorem not_isBlank_of_isDigit {c : Char} (h : c.isDigit = true) : isBlank c = false := by
  have range : 48 ≤ c.toNat ∧ c.toNat ≤ 57 := by
    simpa [Char.isDigit, UInt32.le_iff_toNat_le] using h
  simp only [isBlank, Bool.or_eq_false_iff, Bool.and_eq_false_iff, decide_eq_false_iff_not,
    beq_eq_false_iff_ne]
  omega

theorem trim_append {before cs after : List Char} (blank_before : ∀ c ∈ before, isBlank c = true)
    (shown : ∀ c ∈ cs, isBlank c = false) (blank_after : ∀ c ∈ after, isBlank c = true) :
    trim (before ++ cs ++ after) = cs := by
  cases cs with
  | nil =>
    have all : ∀ c ∈ before ++ [] ++ after, isBlank c = true := by
      simpa using fun c hc => hc.elim (blank_before c) (blank_after c)
    rw [trim, List.dropWhile_eq_nil_iff.mpr all]
    rfl
  | cons c cs =>
    have left : (before ++ (c :: cs) ++ after).dropWhile isBlank = (c :: cs) ++ after := by
      rw [List.append_assoc, List.dropWhile_append_of_pos blank_before, List.cons_append,
        List.dropWhile_cons_of_neg (by simp [shown c List.mem_cons_self])]
    have right : (after.reverse ++ (c :: cs).reverse).dropWhile isBlank = (c :: cs).reverse := by
      rw [List.dropWhile_append_of_pos fun c hc => blank_after c (List.mem_reverse.mp hc),
        List.dropWhile_eq_self_iff]
      intro nonempty
      exact Bool.eq_false_iff.mp (shown _ (List.mem_reverse.mp (List.getElem_mem nonempty)))
    rw [trim, left, List.reverse_append, right, List.reverse_reverse]

theorem exists_trim (cs : List Char) :
    ∃ before after, cs = before ++ trim cs ++ after ∧ (∀ c ∈ before, isBlank c = true) ∧
      ∀ c ∈ after, isBlank c = true := by
  let rest := cs.dropWhile isBlank
  refine ⟨cs.takeWhile isBlank, (rest.reverse.takeWhile isBlank).reverse, ?_, ?_, ?_⟩
  · rw [List.append_assoc, trim, ← List.reverse_append, List.takeWhile_append_dropWhile,
      List.reverse_reverse, List.takeWhile_append_dropWhile]
  · exact fun c hc => List.mem_takeWhile_imp hc
  · exact fun c hc => List.mem_takeWhile_imp (List.mem_reverse.mp hc)

/-! ## Signs and digits -/

theorem withoutPlus_append {sign digits : List Char} (plus : sign = [] ∨ sign = ['+'])
    (decimal : ∀ c ∈ digits, c.isDigit = true) : withoutPlus (sign ++ digits) = digits := by
  rcases plus with rfl | rfl
  · cases digits with
    | nil => rfl
    | cons c cs =>
      have digit := decimal c List.mem_cons_self
      have no_plus : c ≠ '+' := by
        rintro rfl
        exact absurd digit (by decide)
      simp [withoutPlus, no_plus]
  · rfl

theorem exists_sign (cs : List Char) :
    ∃ sign, (sign = [] ∨ sign = ['+']) ∧ cs = sign ++ withoutPlus cs := by
  unfold withoutPlus
  split
  · exact ⟨['+'], .inr rfl, rfl⟩
  · exact ⟨[], .inl rfl, rfl⟩

theorem isDecimal_iff {cs : List Char} :
    isDecimal cs = true ↔ cs ≠ [] ∧ ∀ c ∈ cs, c.isDigit = true := by
  simp [isDecimal]

theorem digitsValue_eq_ofDigits (cs : List Char) :
    digitsValue cs = Nat.ofDigits 10 (cs.reverse.map digitValue) := by
  rw [Nat.ofDigits_eq_foldr, List.map_reverse, List.foldr_reverse, List.foldl_map, digitsValue]
  congr 1
  funext n c
  exact (Nat.add_comm _ _).trans (congrArg _ (Nat.mul_comm _ _))

theorem readDecimal_eq_some_iff {size n : Nat} {cs : List Char} :
    readDecimal size cs = some n ↔
      isDecimal (withoutPlus cs) = true ∧ digitsValue (withoutPlus cs) = n ∧ n < size := by
  simp only [readDecimal, Option.ite_none_right_eq_some, Bool.and_eq_true, decide_eq_true_eq,
    Option.some.injEq]
  constructor
  · rintro ⟨⟨decimal, small⟩, rfl⟩
    exact ⟨decimal, rfl, small⟩
  · rintro ⟨decimal, rfl, small⟩
    exact ⟨⟨decimal, small⟩, rfl⟩

/-- **Numerals.** What is read between the blanks of a text is the number that it stands for, if
that is small enough. -/
theorem readDecimal_trim_eq_some_iff {size n : Nat} {cs : List Char} :
    readDecimal size (trim cs) = some n ↔ Numeral cs n ∧ n < size := by
  rw [readDecimal_eq_some_iff, isDecimal_iff, digitsValue_eq_ofDigits]
  constructor
  · rintro ⟨⟨some_digit, decimal⟩, rfl, small⟩
    refine ⟨?_, small⟩
    obtain ⟨before, after, split, blank_before, blank_after⟩ := exists_trim cs
    obtain ⟨sign, plus, signed⟩ := exists_sign (trim cs)
    have numeral := Numeral.intro blank_before plus some_digit decimal blank_after
    rwa [← signed, ← split] at numeral
  · rintro ⟨⟨blank_before, plus, some_digit, decimal, blank_after⟩, small⟩
    rename_i before sign digits after
    have shown : ∀ c ∈ sign ++ digits, isBlank c = false := by
      intro c hc
      rcases List.mem_append.mp hc with signed | digit
      · rcases plus with rfl | rfl
        · cases signed
        · rw [List.mem_singleton.mp signed]
          rfl
      · exact not_isBlank_of_isDigit (decimal c digit)
    rw [trim_append blank_before shown blank_after, withoutPlus_append plus decimal]
    exact ⟨⟨some_digit, decimal⟩, rfl, small⟩

/-- A text stands for one number at most. -/
theorem Numeral.unique {cs : List Char} {m n : Nat} (h : Numeral cs m) (h' : Numeral cs n) :
    m = n := by
  have read := readDecimal_trim_eq_some_iff.mpr ⟨h, show m < m + n + 1 by omega⟩
  have read' := readDecimal_trim_eq_some_iff.mpr ⟨h', show n < m + n + 1 by omega⟩
  exact Option.some.inj (read.symm.trans read')

end ChainNode.Text
