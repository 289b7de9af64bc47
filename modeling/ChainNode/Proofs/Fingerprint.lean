import ChainNode.Proofs.SelfDelimiting

/-!
# What a fingerprint determines

The text of a digest is a faithful copy of it, and `sameHash` forgives nothing but letter case, so
two blocks that carry one hash and name themselves correctly have seals with one digest. Whether
they are then one block is up to the digest: `SealCollision` is the only other possibility, and it
names the two byte strings.

* `fingerprint_eq_iff`: equal texts, equal digests.
* `eq_or_collision`: one hash, one block, unless two seals collide.
-/
namespace ChainNode

namespace Bytes

theorem digitChar_inj {m n : Nat} (hm : m < 16) (hn : n < 16)
    (h : m.digitChar = n.digitChar) : m = n := by
  have inj : ∀ i j : Fin 16, i.val.digitChar = j.val.digitChar → i = j := by decide
  exact congrArg Fin.val (inj ⟨m, hm⟩ ⟨n, hn⟩ h)

theorem toLower_digitChar {n : Nat} (h : n < 16) : n.digitChar.toLower = n.digitChar := by
  have lower : ∀ i : Fin 16, i.val.digitChar.toLower = i.val.digitChar := by decide
  exact lower ⟨n, h⟩

theorem hexChars_cons (b : UInt8) (bs : Bytes) :
    hexChars (b :: bs) = (b.toNat / 16).digitChar :: (b.toNat % 16).digitChar :: hexChars bs := rfl

theorem hexChars_inj : ∀ {as bs : Bytes}, hexChars as = hexChars bs → as = bs
  | [], [], _ => rfl
  | [], _ :: _, h => nomatch h
  | _ :: _, [], h => nomatch h
  | a :: as, b :: bs, h => by
    rw [hexChars_cons, hexChars_cons] at h
    obtain ⟨hi, h⟩ := List.cons.inj h
    obtain ⟨lo, h⟩ := List.cons.inj h
    have ha := a.toNat_lt
    have hb := b.toNat_lt
    have high := digitChar_inj (by omega) (by omega) hi
    have low := digitChar_inj (Nat.mod_lt _ (by decide)) (Nat.mod_lt _ (by decide)) lo
    have head : a = b := UInt8.toNat_inj.mp (by omega)
    rw [head, hexChars_inj h]

theorem mem_hexChars {c : Char} {bs : Bytes} (h : c ∈ hexChars bs) :
    c ∈ "0123456789abcdef".toList := by
  have digit : ∀ i : Fin 16, i.val.digitChar ∈ "0123456789abcdef".toList := by decide
  obtain ⟨b, -, hc⟩ := List.mem_flatMap.mp h
  have hb := b.toNat_lt
  rw [List.mem_cons, List.mem_singleton] at hc
  rcases hc with rfl | rfl
  · exact digit ⟨_, by omega⟩
  · exact digit ⟨_, Nat.mod_lt _ (by decide)⟩

theorem map_toLower_hexChars : ∀ bs : Bytes, (hexChars bs).map Char.toLower = hexChars bs
  | [] => rfl
  | b :: bs => by
    have hb := b.toNat_lt
    rw [hexChars_cons, List.map_cons, List.map_cons, toLower_digitChar (by omega),
      toLower_digitChar (Nat.mod_lt _ (by decide)), map_toLower_hexChars bs]

end Bytes

theorem fingerprint_eq_iff {x y : Bytes} :
    fingerprint x = fingerprint y ↔ doubleDigest x = doubleDigest y := by
  constructor
  · intro h
    apply Bytes.hexChars_inj
    rw [← toList_fingerprint, ← toList_fingerprint, h]
  · intro h
    exact Label.chars_inj.mp (congrArg Bytes.hex h)

theorem mem_fingerprint {c : Char} {x : Bytes} (h : c ∈ (fingerprint x).chars.toList) :
    c ∈ "0123456789abcdef".toList := by
  rw [toList_fingerprint] at h
  exact Bytes.mem_hexChars h

theorem sameHash_iff {s t : String} :
    sameHash s t = true ↔ s.toList.map Char.toLower = t.toList.map Char.toLower := by
  simp [sameHash]

@[simp] theorem sameHash_self (s : String) : sameHash s s = true := sameHash_iff.mpr rfl

theorem sameHash_trans {a b c : String} (h : sameHash a b = true) (h' : sameHash b c = true) :
    sameHash a c = true :=
  sameHash_iff.mpr ((sameHash_iff.mp h).trans (sameHash_iff.mp h'))

theorem sameHash_symm {a b : String} (h : sameHash a b = true) : sameHash b a = true :=
  sameHash_iff.mpr (sameHash_iff.mp h).symm

/-- A fingerprint is written in lower case: among fingerprints, letter case forgives nothing. -/
theorem fingerprint_eq_of_sameHash {x y : Bytes} {s t : String} (hst : sameHash s t = true)
    (hs : sameHash (fingerprint x) s = true) (ht : sameHash (fingerprint y) t = true) :
    fingerprint x = fingerprint y := by
  rw [sameHash_iff] at hst hs ht
  rw [toList_fingerprint, Bytes.map_toLower_hexChars] at hs ht
  apply Label.chars_inj.mp
  apply String.toList_inj.mp
  rw [toList_fingerprint, toList_fingerprint, hs, ht, hst]

@[simp] theorem Transaction.isCorrect_create (sender : Label) (timestamp : UInt64)
    (inputs : Row Input) (outputs : Row Output) :
    (create sender timestamp inputs outputs).isCorrect = true := sameHash_self _

namespace Block

theorem hash_rehash (b : Block) : b.rehash.hash = fingerprint b.rehash.sealBytes := rfl

@[simp] theorem isCorrect_rehash (b : Block) : b.rehash.isCorrect = true := sameHash_self _

/-- Two different seals with one digest. -/
def SealCollision (a b : Block) : Prop :=
  a.sealBytes ≠ b.sealBytes ∧ doubleDigest a.sealBytes = doubleDigest b.sealBytes

theorem sealBytes_eq_or_collision {a b : Block} (ha : a.isCorrect = true)
    (hb : b.isCorrect = true) (h : sameHash a.hash b.hash = true) :
    a.sealBytes = b.sealBytes ∨ SealCollision a b := by
  by_cases hseal : a.sealBytes = b.sealBytes
  · exact .inl hseal
  · exact .inr ⟨hseal, fingerprint_eq_iff.mp (fingerprint_eq_of_sameHash h ha hb)⟩

theorem eq_or_collision {a b : Block} (ha : a.isCorrect = true) (hb : b.isCorrect = true)
    (h : a.hash = b.hash) : a = b ∨ SealCollision a b := by
  rcases sealBytes_eq_or_collision ha hb (by rw [h, sameHash_self]) with hseal | hc
  · left
    have := eq_of_sealBytes_eq hseal
    rw [h] at this
    exact this
  · exact .inr hc

end Block

end ChainNode
