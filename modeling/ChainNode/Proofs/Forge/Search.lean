import Mathlib.Data.Nat.Find
import ChainNode.Forge.Nonce
import ChainNode.Proofs.Fingerprint

/-!
# The search ends at the first attempt that ends it

An attempt either ends the search by itself, with a raised flag or with a block that is difficult
enough, or it leaves no trace but the next nonce: the block of an attempt is made from the
candidate, not from the block of the attempt before. So a search over any number of attempts is
decided by the first of them that ends it.

* `searchFrom_eq_iff`: the run, from the one step `searchFrom_succ`.
* `searchNonce_first`: which block is sealed, and when the search is cancelled.
-/
namespace ChainNode

section

variable (candidate : Block) (difficulty : UInt32) (inputs : SearchInputs)

/-- The block that attempt `n` hashes. -/
def attemptBlock (n : Nat) : Block :=
  Block.rehash { candidate with consent := attemptConsent difficulty inputs n }

/-- How attempt `n` ends the search, if it does. -/
def attemptResult (n : Nat) : Option SearchResult :=
  if inputs.raised n then some .cancelled
  else if meetsDifficulty (attemptBlock candidate difficulty inputs n).hash difficulty then
    some (.sealed (attemptBlock candidate difficulty inputs n))
  else none

end

variable {candidate b : Block} {difficulty : UInt32} {inputs : SearchInputs}

theorem meetsDifficulty_iff {hash : String} :
    meetsDifficulty hash difficulty = true ↔ difficulty.toNat ≤ leadingZeros hash :=
  decide_eq_true_iff

theorem attemptResult_eq_sealed_iff {n : Nat} :
    attemptResult candidate difficulty inputs n = some (.sealed b) ↔
      inputs.raised n = false ∧ b = attemptBlock candidate difficulty inputs n ∧
        difficulty.toNat ≤ leadingZeros b.hash := by
  rw [← meetsDifficulty_iff]
  unfold attemptResult
  cases inputs.raised n with
  | true => simp
  | false =>
    simp only [Bool.false_eq_true, if_false, true_and]
    constructor
    · intro found
      split at found
      · rename_i meets
        cases found
        exact ⟨rfl, meets⟩
      · cases found
    · rintro ⟨rfl, meets⟩
      rw [if_pos meets]

theorem attemptResult_eq_cancelled_iff {n : Nat} :
    attemptResult candidate difficulty inputs n = some .cancelled ↔ inputs.raised n = true := by
  unfold attemptResult
  cases inputs.raised n with
  | true => simp
  | false =>
    simp only [Bool.false_eq_true, if_false, iff_false]
    split
    · exact fun found => by cases found
    · exact fun found => by cases found

theorem attemptResult_eq_none_iff {n : Nat} :
    attemptResult candidate difficulty inputs n = none ↔
      inputs.raised n = false ∧
        leadingZeros (attemptBlock candidate difficulty inputs n).hash < difficulty.toNat := by
  rw [← Nat.not_le, ← meetsDifficulty_iff]
  unfold attemptResult
  cases inputs.raised n with
  | true => simp
  | false => simp

theorem searchFrom_succ (attempts n : Nat) :
    searchFrom candidate.frame difficulty inputs (attempts + 1) n =
      (attemptResult candidate difficulty inputs n).getD
        (searchFrom candidate.frame difficulty inputs attempts (n + 1)) := by
  rw [searchFrom, attemptResult]
  by_cases raised : inputs.raised n = true
  · rw [if_pos raised, if_pos raised, Option.getD_some]
  · rw [if_neg raised, if_neg raised, withConsent_frame]
    by_cases meets : meetsDifficulty (attemptBlock candidate difficulty inputs n).hash difficulty
    · rw [if_pos meets]
      exact if_pos meets
    · rw [if_neg meets]
      exact if_neg meets

/-- By induction on the attempts: those before the one that ends the search have ended nothing. -/
theorem searchFrom_eq_iff {result : SearchResult} (ended : result ≠ .exhausted)
    (attempts n : Nat) :
    searchFrom candidate.frame difficulty inputs attempts n = result ↔
      ∃ m, n ≤ m ∧ m < n + attempts ∧
        attemptResult candidate difficulty inputs m = some result ∧
          ∀ k, n ≤ k → k < m → attemptResult candidate difficulty inputs k = none := by
  induction attempts generalizing n with
  | zero =>
    constructor
    · exact fun exhausted => absurd exhausted.symm ended
    · rintro ⟨m, _, _, -⟩
      omega
  | succ attempts ih =>
    rw [searchFrom_succ]
    cases here : attemptResult candidate difficulty inputs n with
    | some r =>
      rw [Option.getD_some]
      constructor
      · rintro rfl
        exact ⟨n, Nat.le_refl n, by omega, here, fun k _ _ => by omega⟩
      · rintro ⟨m, low, -, there, before⟩
        rcases Nat.eq_or_lt_of_le low with rfl | later
        · exact Option.some.inj (here.symm.trans there)
        · rw [before n (Nat.le_refl n) later] at here
          cases here
    | none =>
      rw [Option.getD_none, ih]
      constructor
      · rintro ⟨m, low, high, there, before⟩
        refine ⟨m, by omega, by omega, there, fun k hk hm => ?_⟩
        rcases Nat.eq_or_lt_of_le hk with rfl | later
        · exact here
        · exact before k later hm
      · rintro ⟨m, low, high, there, before⟩
        rcases Nat.eq_or_lt_of_le low with rfl | later
        · rw [here] at there
          cases there
        · exact ⟨m, later, by omega, there, fun k hk => before k (by omega)⟩

/-- A sealed block is the candidate with the consent of some attempt and the hash that goes with
it. -/
theorem searchNonce_sealed (found : searchNonce candidate difficulty inputs = .sealed b) :
    ∃ m, b = Block.rehash { candidate with consent := attemptConsent difficulty inputs m } ∧
      meetsDifficulty b.hash difficulty = true := by
  obtain ⟨m, -, -, ends, -⟩ := (searchFrom_eq_iff (by simp) _ _).mp found
  obtain ⟨-, block, difficult⟩ := attemptResult_eq_sealed_iff.mp ends
  exact ⟨m, block, meetsDifficulty_iff.mpr difficult⟩

/-- Block `b` is what a search seals at its attempt `n`. -/
structure SealedAt (candidate : Block) (difficulty : UInt32) (inputs : SearchInputs) (n : Nat)
    (b : Block) : Prop where
  block : b =
    { candidate with
      consent := .proofOfWork
        { difficulty
          nonce := UInt64.ofNat n
          timestamp := inputs.timestamp
          spent := inputs.elapsed n }
      hash := b.hash }
  hash : b.hash = b.computedHash
  lowercase : ∀ c ∈ b.hash.chars.toList, c ∈ "0123456789abcdef".toList
  difficult : difficulty.toNat ≤ leadingZeros b.hash
  calm : ∀ m, 1 ≤ m → m ≤ n → inputs.raised m = false
  first : ∀ m, 1 ≤ m → m < n →
    leadingZeros (attemptBlock candidate difficulty inputs m).hash < difficulty.toNat

theorem SealedAt.eq_attemptBlock {n : Nat} (h : SealedAt candidate difficulty inputs n b) :
    b = attemptBlock candidate difficulty inputs n := by
  have named : b = b.rehash := by rw [Block.rehash, ← h.hash]
  have again : b.rehash = Block.rehash
      { candidate with consent := attemptConsent difficulty inputs n, hash := b.hash } :=
    congrArg Block.rehash h.block
  exact named.trans again

theorem sealedAt_iff {n : Nat} (positive : 1 ≤ n) :
    SealedAt candidate difficulty inputs n b ↔
      attemptResult candidate difficulty inputs n = some (.sealed b) ∧
        ∀ m, 1 ≤ m → m < n → attemptResult candidate difficulty inputs m = none := by
  rw [attemptResult_eq_sealed_iff]
  simp only [attemptResult_eq_none_iff]
  constructor
  · intro h
    exact ⟨⟨h.calm n positive (Nat.le_refl n), h.eq_attemptBlock, h.difficult⟩,
      fun m low high => ⟨h.calm m low (Nat.le_of_lt high), h.first m low high⟩⟩
  · rintro ⟨⟨raised, rfl, difficult⟩, before⟩
    have first := fun m low high => (before m low high).2
    refine ⟨rfl, rfl, fun c => mem_fingerprint, difficult, fun m low high => ?_, first⟩
    rcases Nat.eq_or_lt_of_le high with rfl | earlier
    · exact raised
    · exact (before m low earlier).1

/-- **The first nonce that qualifies.** A search seals the block of attempt `n` exactly if that
block is difficult enough, no block of an earlier attempt was, and the flag was down at the
beginning of all attempts up to this one; it is cancelled exactly if the flag is up at the
beginning of some attempt before which no block was difficult enough. -/
theorem searchNonce_first (candidate : Block) (difficulty : UInt32) (inputs : SearchInputs) :
    (∀ b, searchNonce candidate difficulty inputs = .sealed b ↔
      ∃ n, 1 ≤ n ∧ n < UInt64.size ∧ SealedAt candidate difficulty inputs n b) ∧
    (searchNonce candidate difficulty inputs = .cancelled ↔
      ∃ n, 1 ≤ n ∧ n < UInt64.size ∧ inputs.raised n = true ∧ ∀ m, 1 ≤ m → m < n →
        leadingZeros (attemptBlock candidate difficulty inputs m).hash < difficulty.toNat) := by
  have last : 1 + (UInt64.size - 1) = UInt64.size := rfl
  constructor
  · intro b
    rw [searchNonce, searchFrom_eq_iff (by simp), last]
    refine exists_congr fun n => and_congr_right fun positive => and_congr_right fun _ => ?_
    exact (sealedAt_iff positive).symm
  · rw [searchNonce, searchFrom_eq_iff (by simp), last]
    simp only [attemptResult_eq_cancelled_iff, attemptResult_eq_none_iff]
    constructor
    · rintro ⟨n, positive, bounded, raised, before⟩
      exact ⟨n, positive, bounded, raised, fun m low high => (before m low high).2⟩
    · rintro ⟨n, positive, bounded, raised, before⟩
      -- The flag may have been up before: then that is where the search ends.
      have up : ∃ k, 1 ≤ k ∧ inputs.raised k = true := ⟨n, positive, raised⟩
      have earliest : Nat.find up ≤ n := Nat.find_min' up ⟨positive, raised⟩
      obtain ⟨least, raised'⟩ := Nat.find_spec up
      refine ⟨Nat.find up, least, by omega, raised', fun m low high => ⟨?_, ?_⟩⟩
      · simpa [low] using Nat.find_min up high
      · exact before m low (by omega)

end ChainNode
