import ChainNode.Block

/-!
# Canonical bytes determine what they encode

A writer is self-delimiting if its output says where it ends: whatever is written behind a value,
the value and the rest can be told apart again. Writers one after the other are then
self-delimiting too, so an entity that is a row of fields needs no argument of its own.

* `count_append_inj`, `selfDelimiting_label`, `selfDelimiting_row`: the general writers, for lengths
  that are words.
* `list_inj`: a list of any length can be told apart if nothing is written behind it, as the
  transactions stand at the end of a seal.
* `selfDelimiting_transaction`: a whole transaction, its hash included.
* `selfDelimiting_info`: a block info.
* `eq_of_sealBytes_eq`, `body_append_inj`: a seal determines every field of its block but the hash,
  a body every field of its transaction but the hash.
-/
namespace ChainNode

namespace Canonical

variable {α β : Type}

def SelfDelimiting (write : α → Bytes) : Prop :=
  ∀ ⦃a b : α⦄ ⦃x y : Bytes⦄, write a ++ x = write b ++ y → a = b ∧ x = y

theorem SelfDelimiting.injective {write : α → Bytes} (h : SelfDelimiting write) {a b : α}
    (e : write a = write b) : a = b :=
  (h (x := []) (y := []) (by rw [e])).1

/-- Writers of a fixed width. -/
theorem SelfDelimiting.of_length {write : α → Bytes} {n : Nat} (hn : ∀ a, (write a).length = n)
    (inj : ∀ a b, write a = write b → a = b) : SelfDelimiting write := by
  intro a b x y h
  obtain ⟨h1, h2⟩ := List.append_inj h (by rw [hn, hn])
  exact ⟨inj a b h1, h2⟩

/-! ## Words -/

theorem le64_inj (v w : UInt64) (h : Bytes.le64 v = Bytes.le64 w) : v = w := by
  simp only [Bytes.le64, List.cons.injEq, and_true] at h
  obtain ⟨h0, h1, h2, h3, h4, h5, h6, h7⟩ := h
  have hv := v.toNat_lt
  have hw := w.toNat_lt
  apply UInt64.toNat_inj.mp
  simp only [← UInt8.toNat_inj, UInt64.toNat_toUInt8, UInt64.toNat_shiftRight,
    UInt64.reduceToNat, Nat.reduceMod, Nat.shiftRight_eq_div_pow, Nat.reducePow] at *
  omega

theorem le32_inj (v w : UInt32) (h : Bytes.le32 v = Bytes.le32 w) : v = w := by
  simp only [Bytes.le32, List.cons.injEq, and_true] at h
  obtain ⟨h0, h1, h2, h3⟩ := h
  have hv := v.toNat_lt
  have hw := w.toNat_lt
  apply UInt32.toNat_inj.mp
  simp only [← UInt8.toNat_inj, UInt32.toNat_toUInt8, UInt32.toNat_shiftRight,
    UInt32.reduceToNat, Nat.reduceMod, Nat.shiftRight_eq_div_pow, Nat.reducePow] at *
  omega

theorem selfDelimiting_le64 : SelfDelimiting Bytes.le64 := .of_length Bytes.length_le64 le64_inj

theorem selfDelimiting_le32 : SelfDelimiting Bytes.le32 := .of_length Bytes.length_le32 le32_inj

/-! ## Labels, rows and lists -/

theorem count_append_inj {m n : Nat} (hm : m < UInt64.size) (hn : n < UInt64.size) {x y : Bytes}
    (h : count m ++ x = count n ++ y) : m = n ∧ x = y := by
  obtain ⟨word, rest⟩ := selfDelimiting_le64 h
  have numbers := congrArg UInt64.toNat word
  rw [UInt64.toNat_ofNat_of_lt' hm, UInt64.toNat_ofNat_of_lt' hn] at numbers
  exact ⟨numbers, rest⟩

theorem selfDelimiting_label : SelfDelimiting label := by
  intro s t x y h
  simp only [label, text, List.append_assoc] at h
  obtain ⟨hsize, h⟩ := count_append_inj s.fits t.fits h
  obtain ⟨hbytes, hx⟩ := List.append_inj h (by simpa using hsize)
  refine ⟨Label.chars_inj.mp (String.toByteArray_inj.mp (ByteArray.ext (Array.ext' ?_))), hx⟩
  simpa using hbytes

theorem flatMap_append_inj {write : α → Bytes} (hw : SelfDelimiting write) :
    ∀ (xs ys : List α) {x y : Bytes}, xs.length = ys.length →
      xs.flatMap write ++ x = ys.flatMap write ++ y → xs = ys ∧ x = y
  | [], [], _, _, _, h => ⟨rfl, h⟩
  | a :: as, b :: bs, _, _, hlen, h => by
    simp only [List.flatMap_cons, List.append_assoc] at h
    obtain ⟨ea, h⟩ := hw h
    obtain ⟨eas, hx⟩ := flatMap_append_inj hw as bs (Nat.succ.inj hlen) h
    exact ⟨by rw [ea, eas], hx⟩

theorem selfDelimiting_row {write : α → Bytes} (hw : SelfDelimiting write) :
    SelfDelimiting (row write) := by
  intro xs ys x y h
  simp only [row, list, List.append_assoc] at h
  obtain ⟨hlen, h⟩ := count_append_inj xs.property ys.property h
  obtain ⟨same, hx⟩ := flatMap_append_inj hw xs.val ys.val hlen h
  exact ⟨Subtype.ext same, hx⟩

theorem flatMap_inj {write : α → Bytes} (hw : SelfDelimiting write)
    (some_byte : ∀ a, write a ≠ []) :
    ∀ {xs ys : List α}, xs.flatMap write = ys.flatMap write → xs = ys
  | [], [], _ => rfl
  | [], b :: bs, h => absurd (List.append_eq_nil_iff.mp h.symm).1 (some_byte b)
  | a :: as, [], h => absurd (List.append_eq_nil_iff.mp h).1 (some_byte a)
  | a :: as, b :: bs, h => by
    obtain ⟨ea, h⟩ := hw h
    rw [ea, flatMap_inj hw some_byte h]

/-- A list of any length that stands at the end. -/
theorem list_inj {write : α → Bytes} (hw : SelfDelimiting write) (some_byte : ∀ a, write a ≠ [])
    {xs ys : List α} (h : list write xs = list write ys) : xs = ys :=
  flatMap_inj hw some_byte (selfDelimiting_le64 h).2

end Canonical

open Canonical

/-! ## Transactions -/

theorem selfDelimiting_input : SelfDelimiting Transaction.Input.encode := by
  rintro ⟨p, a⟩ ⟨q, b⟩ x y h
  simp only [Transaction.Input.encode, List.append_assoc] at h
  obtain ⟨hash, h⟩ := selfDelimiting_label h
  obtain ⟨amount, h⟩ := selfDelimiting_le64 h
  exact ⟨by rw [hash, amount], h⟩

theorem selfDelimiting_output : SelfDelimiting Transaction.Output.encode := by
  rintro ⟨r, a, t⟩ ⟨s, b, u⟩ x y h
  simp only [Transaction.Output.encode, List.append_assoc] at h
  obtain ⟨receiver, h⟩ := selfDelimiting_label h
  obtain ⟨amount, h⟩ := selfDelimiting_le64 h
  obtain ⟨timestamp, h⟩ := selfDelimiting_le64 h
  exact ⟨by rw [receiver, amount, timestamp], h⟩

theorem body_append_inj {s t : Transaction} {x y : Bytes} (h : s.body ++ x = t.body ++ y) :
    s = { t with hash := s.hash } ∧ x = y := by
  obtain ⟨h1, s1, t1, i1, o1⟩ := s
  obtain ⟨h2, s2, t2, i2, o2⟩ := t
  simp only [Transaction.body, List.append_assoc] at h
  obtain ⟨sender, h⟩ := selfDelimiting_label h
  obtain ⟨timestamp, h⟩ := selfDelimiting_le64 h
  obtain ⟨inputs, h⟩ := selfDelimiting_row selfDelimiting_input h
  obtain ⟨outputs, h⟩ := selfDelimiting_row selfDelimiting_output h
  exact ⟨by rw [sender, timestamp, inputs, outputs], h⟩

/-- Two transactions with one body differ in their hash at most. -/
theorem eq_of_body_eq {s t : Transaction} (h : s.body = t.body) : s = { t with hash := s.hash } :=
  (body_append_inj (x := []) (y := []) (by rw [h])).1

theorem selfDelimiting_transaction : SelfDelimiting Transaction.encode := by
  intro s t x y h
  simp only [Transaction.encode, List.append_assoc] at h
  obtain ⟨hash, h⟩ := selfDelimiting_label h
  obtain ⟨e, h⟩ := body_append_inj h
  exact ⟨by rw [e, hash], h⟩

/-! ## Blocks -/

theorem tag_zero_ne_one {x y : Bytes} : tag 0 ++ x ≠ tag 1 ++ y := by
  intro h
  exact absurd (selfDelimiting_le32 h).1 (by decide)

theorem selfDelimiting_work : SelfDelimiting ProofOfWork.encode := by
  rintro ⟨d, n, t, s⟩ ⟨e, m, u, r⟩ x y h
  simp only [ProofOfWork.encode, List.append_assoc] at h
  obtain ⟨difficulty, h⟩ := selfDelimiting_le32 h
  obtain ⟨nonce, h⟩ := selfDelimiting_le64 h
  obtain ⟨timestamp, h⟩ := selfDelimiting_le64 h
  obtain ⟨spent, h⟩ := selfDelimiting_le64 h
  exact ⟨by rw [difficulty, nonce, timestamp, spent], h⟩

theorem selfDelimiting_consent : SelfDelimiting Consent.encode := by
  intro c d x y h
  cases c with
  | proofOfWork v =>
    cases d with
    | proofOfWork w =>
      simp only [Consent.encode, List.append_assoc] at h
      obtain ⟨work, h⟩ := selfDelimiting_work (List.append_cancel_left h)
      exact ⟨by rw [work], h⟩
    | proofOfMajority =>
      simp only [Consent.encode, List.append_assoc] at h
      exact absurd h tag_zero_ne_one
  | proofOfMajority =>
    cases d with
    | proofOfWork w =>
      simp only [Consent.encode, List.append_assoc] at h
      exact absurd h.symm tag_zero_ne_one
    | proofOfMajority => exact ⟨rfl, List.append_cancel_left h⟩

theorem selfDelimiting_info : SelfDelimiting BlockInfo.encode := by
  rintro ⟨p, h1⟩ ⟨q, h2⟩ x y h
  simp only [BlockInfo.encode, List.append_assoc] at h
  obtain ⟨position, h⟩ := selfDelimiting_le64 h
  obtain ⟨hash, h⟩ := selfDelimiting_label h
  exact ⟨by rw [position, hash], h⟩

theorem encode_ne_nil (t : Transaction) : t.encode ≠ [] := by
  simp [Transaction.encode, label, text, count, Bytes.le64]

/-- Two blocks with one seal differ in their hash at most. -/
theorem eq_of_sealBytes_eq {a b : Block} (h : a.sealBytes = b.sealBytes) :
    a = { b with hash := a.hash } := by
  obtain ⟨p1, h1, l1, m1, t1, v1, c1, ts1⟩ := a
  obtain ⟨p2, h2, l2, m2, t2, v2, c2, ts2⟩ := b
  simp only [Block.sealBytes, List.append_assoc] at h
  obtain ⟨position, h⟩ := selfDelimiting_le64 h
  obtain ⟨lastHash, h⟩ := selfDelimiting_label h
  obtain ⟨merkleRoot, h⟩ := selfDelimiting_label h
  obtain ⟨timestamp, h⟩ := selfDelimiting_le64 h
  obtain ⟨version, h⟩ := selfDelimiting_le32 h
  obtain ⟨consent, h⟩ := selfDelimiting_consent h
  have transactions := list_inj selfDelimiting_transaction encode_ne_nil h
  rw [position, lastHash, merkleRoot, timestamp, version, consent, transactions]

end ChainNode
