import Mathlib.Data.List.Permutation
import Mathlib.Order.Bounds.Defs
import ChainNode.Proofs.View.Ascending
import ChainNode.Proofs.View.Lookup
import ChainNode.View.ForkPoint

/-!
# What the fork point is

Reading stops at the first info that contradicts what is stored, so what is agreed on is what both
have before that info, and the fork point is the highest of it. An info sorts before another of its
position by the hash: a position that is repeated with several hashes counts only if the stored
hash is the least of them.

* `AgreesOn`, `LastAgreement`: an info that both have, with nothing contradicted up to it.
* `agreement_cases`: the last of them, while a sorted view is read.
* `forkPoint_eq_some_iff`, `forkPoint_eq_none_iff`: the fork point.
-/
namespace ChainNode

/-- `i` names another hash than `stored` for one of its positions. -/
def Contradicts (stored : List BlockInfo) (i : BlockInfo) : Prop :=
  ∃ j ∈ stored, j.position = i.position ∧ j.hash ≠ i.hash

/-- Both lists have `i`, and no info of `remote` up to `i` contradicts what is stored. -/
structure AgreesOn (stored remote : List BlockInfo) (i : BlockInfo) : Prop where
  known : i ∈ stored
  told : i ∈ remote
  undisputed : ∀ j ∈ remote, j.le i = true → ¬Contradicts stored j

/-- `i` is the last info that is agreed on. -/
structure LastAgreement (stored remote : List BlockInfo) (i : BlockInfo) : Prop where
  agrees : AgreesOn stored remote i
  last : ∀ j, AgreesOn stored remote j → j.le i = true

/-- The positions that are agreed on. -/
def agreedPositions (stored remote : List BlockInfo) : Set UInt64 :=
  {p | ∃ i, i.position = p ∧ AgreesOn stored remote i}

variable {stored remote rest : List BlockInfo} {i x : BlockInfo}

/-! ## One info -/

/-- An info that does not contradict what is stored, read first, is agreed on if it is stored. -/
theorem agreesOn_cons (sorted : ∀ j ∈ rest, x.le j = true) (quiet : ¬Contradicts stored x) :
    AgreesOn stored (x :: rest) i ↔ (i = x ∧ x ∈ stored) ∨ AgreesOn stored rest i := by
  constructor
  · intro h
    rcases List.mem_cons.mp h.told with rfl | later
    · exact .inl ⟨rfl, h.known⟩
    · exact .inr ⟨h.known, later, fun j hj => h.undisputed j (List.mem_cons_of_mem x hj)⟩
  · rintro (⟨rfl, known⟩ | h)
    · refine ⟨known, List.mem_cons_self, fun j hj upTo => ?_⟩
      rcases List.mem_cons.mp hj with rfl | later
      · exact quiet
      · rwa [BlockInfo.le_antisymm upTo (sorted j later)]
    · refine ⟨h.known, List.mem_cons_of_mem x h.told, fun j hj upTo => ?_⟩
      rcases List.mem_cons.mp hj with rfl | later
      · exact quiet
      · exact h.undisputed j later upTo

theorem not_agreesOn_cons (sorted : ∀ j ∈ rest, x.le j = true) (loud : Contradicts stored x) :
    ¬AgreesOn stored (x :: rest) i := by
  intro h
  have first : x.le i = true := by
    rcases List.mem_cons.mp h.told with rfl | later
    · exact i.le_refl
    · exact sorted i later
  exact h.undisputed x List.mem_cons_self first loud

theorem LastAgreement.cons (sorted : ∀ j ∈ rest, x.le j = true) (quiet : ¬Contradicts stored x)
    (h : LastAgreement stored rest i) : LastAgreement stored (x :: rest) i where
  agrees := (agreesOn_cons sorted quiet).mpr (.inr h.agrees)
  last j hj := by
    rcases (agreesOn_cons sorted quiet).mp hj with ⟨rfl, -⟩ | later
    · exact sorted i h.agrees.told
    · exact h.last j later

theorem LastAgreement.head (sorted : ∀ j ∈ rest, x.le j = true) (quiet : ¬Contradicts stored x)
    (known : x ∈ stored) (nowhere : ∀ j, ¬AgreesOn stored rest j) :
    LastAgreement stored (x :: rest) x where
  agrees := (agreesOn_cons sorted quiet).mpr (.inl ⟨rfl, known⟩)
  last j hj := by
    rcases (agreesOn_cons sorted quiet).mp hj with ⟨rfl, -⟩ | later
    · exact j.le_refl
    · exact absurd later (nowhere j)

/-- What is stored does not contradict itself. -/
theorem not_contradicts_of_mem (distinct : (stored.map BlockInfo.position).Nodup)
    (known : x ∈ stored) : ¬Contradicts stored x := by
  rintro ⟨j, hj, position, differs⟩
  exact differs (congrArg BlockInfo.hash (List.inj_on_of_nodup_map distinct hj known position))

/-! ## The whole view -/

/-- While a sorted view is read, its last agreement is kept, or else the one from before. By
induction on what is left to read, for any agreement that is known by then. -/
theorem agreement_cases (distinct : (stored.map BlockInfo.position).Nodup)
    (sorted : rest.Pairwise fun a b => a.le b = true) (best : Option UInt64) :
    (∃ i, LastAgreement stored rest i ∧ agreement stored best rest = some i.position) ∨
    ((∀ i, ¬AgreesOn stored rest i) ∧ agreement stored best rest = best) := by
  induction rest generalizing best with
  | nil => exact .inr ⟨fun i h => List.not_mem_nil h.told, rfl⟩
  | cons x rest ih =>
    obtain ⟨first, sorted⟩ := List.pairwise_cons.mp sorted
    cases found : hashAt stored x.position with
    | none =>
      have absent := hashAt_eq_none_iff.mp found
      have quiet : ¬Contradicts stored x := fun ⟨j, hj, position, _⟩ => absent j hj position
      rw [agreement, found]
      rcases ih sorted best with ⟨i, last, value⟩ | ⟨nowhere, value⟩
      · exact .inl ⟨i, last.cons first quiet, value⟩
      · refine .inr ⟨fun i agrees => ?_, value⟩
        rcases (agreesOn_cons first quiet).mp agrees with ⟨-, known⟩ | later
        · exact absent x known rfl
        · exact nowhere i later
    | some hash =>
      have stands := mem_of_hashAt found
      rw [agreement, found]
      by_cases equal : hash = x.hash
      · have known : x ∈ stored := by rwa [equal] at stands
        have quiet := not_contradicts_of_mem distinct known
        simp only [equal, if_true]
        rcases ih sorted (some x.position) with ⟨i, last, value⟩ | ⟨nowhere, value⟩
        · exact .inl ⟨i, last.cons first quiet, value⟩
        · exact .inl ⟨x, .head first quiet known nowhere, value⟩
      · simp only [equal, if_false]
        exact .inr ⟨fun i => not_agreesOn_cons first ⟨_, stands, rfl, equal⟩, trivial⟩

/-! ## The fork point -/

/-- What is agreed on depends on the members of the two lists only. -/
theorem agreesOn_congr {stored' remote' : List BlockInfo} (hs : ∀ i, i ∈ stored' ↔ i ∈ stored)
    (hr : ∀ i, i ∈ remote' ↔ i ∈ remote) (i : BlockInfo) :
    AgreesOn stored' remote' i ↔ AgreesOn stored remote i := by
  have disputes : ∀ j, Contradicts stored' j ↔ Contradicts stored j := by
    simp [Contradicts, hs]
  constructor
  · intro h
    exact ⟨(hs i).mp h.known, (hr i).mp h.told, fun j hj upTo =>
      (disputes j).not.mp (h.undisputed j ((hr j).mpr hj) upTo)⟩
  · intro h
    exact ⟨(hs i).mpr h.known, (hr i).mpr h.told, fun j hj upTo =>
      (disputes j).not.mpr (h.undisputed j ((hr j).mp hj) upTo)⟩

theorem agreesOn_sort (stored remote : List BlockInfo) (i : BlockInfo) :
    AgreesOn stored (BlockInfo.sort remote) i ↔ AgreesOn stored remote i :=
  agreesOn_congr (fun _ => Iff.rfl) (fun _ => List.mem_mergeSort) i

/-- The fork point, if there is one, is the last agreement. -/
theorem forkPoint_cases (distinct : (stored.map BlockInfo.position).Nodup)
    (remote : List BlockInfo) :
    (∃ p, IsGreatest (agreedPositions stored remote) p ∧ forkPoint stored remote = some p) ∨
    ((∀ p, p ∉ agreedPositions stored remote) ∧ forkPoint stored remote = none) := by
  have sorted := List.pairwise_mergeSort BlockInfo.le_trans BlockInfo.le_total remote
  rcases agreement_cases distinct sorted none with ⟨i, ⟨agrees, last⟩, value⟩ | ⟨nowhere, value⟩
  · refine .inl ⟨i.position, ⟨⟨i, rfl, (agreesOn_sort _ _ i).mp agrees⟩, ?_⟩, value⟩
    rintro q ⟨j, rfl, agrees'⟩
    have below := BlockInfo.height_le_of_le (last j ((agreesOn_sort _ _ j).mpr agrees'))
    exact UInt64.le_iff_toNat_le.mpr below
  · refine .inr ⟨?_, value⟩
    rintro p ⟨i, -, agrees⟩
    exact nowhere i ((agreesOn_sort _ _ i).mpr agrees)

theorem forkPoint_eq_some_iff (distinct : (stored.map BlockInfo.position).Nodup)
    {remote : List BlockInfo} {p : UInt64} :
    forkPoint stored remote = some p ↔ IsGreatest (agreedPositions stored remote) p := by
  rcases forkPoint_cases distinct remote with ⟨q, greatest, value⟩ | ⟨nowhere, value⟩
  · rw [value, Option.some_inj]
    constructor
    · rintro rfl
      exact greatest
    · intro greatest'
      exact UInt64.le_antisymm (greatest'.2 greatest.1) (greatest.2 greatest'.1)
  · simp [value, IsGreatest, nowhere p]

theorem forkPoint_eq_none_iff (distinct : (stored.map BlockInfo.position).Nodup)
    {remote : List BlockInfo} :
    forkPoint stored remote = none ↔ ∀ p, p ∉ agreedPositions stored remote := by
  rcases forkPoint_cases distinct remote with ⟨q, greatest, value⟩ | ⟨nowhere, value⟩
  · simp only [value, reduceCtorEq, false_iff, not_forall, not_not]
    exact ⟨q, greatest.1⟩
  · simp [value, nowhere]

/-- **The fork point is the highest agreement.** Where the stored list does not repeat a position,
and whatever the remote one is: the fork point is the greatest position at which both have the same
hash and up to which, by position and then by hash, nothing remote contradicts what is stored. There
is none exactly if there is no such position; and the order of neither list matters. -/
theorem forkPoint_greatest (distinct : (stored.map BlockInfo.position).Nodup)
    (remote : List BlockInfo) :
    (∀ p, forkPoint stored remote = some p ↔ IsGreatest (agreedPositions stored remote) p) ∧
      (forkPoint stored remote = none ↔ ∀ p, p ∉ agreedPositions stored remote) ∧
      ∀ stored' remote', stored'.Perm stored → remote'.Perm remote →
        forkPoint stored' remote' = forkPoint stored remote := by
  refine ⟨fun p => forkPoint_eq_some_iff distinct, forkPoint_eq_none_iff distinct, ?_⟩
  intro stored' remote' hs hr
  have distinct' : (stored'.map BlockInfo.position).Nodup := (hs.map _).nodup_iff.mpr distinct
  have same : agreedPositions stored' remote' = agreedPositions stored remote := by
    ext p
    exact exists_congr fun i =>
      and_congr_right' (agreesOn_congr (fun _ => hs.mem_iff) (fun _ => hr.mem_iff) i)
  ext p
  rw [forkPoint_eq_some_iff distinct', forkPoint_eq_some_iff distinct, same]

/-- Position 2 is told with two hashes. If the stored one sorts first, that is the fork point,
though 4, which is not stored, and 6 are told as well; if the other one does, position 1 is. -/
theorem forkPoint_greatest_repeated :
    let a : Label := ⟨"a", by decide⟩
    let b : Label := ⟨"b", by decide⟩
    let d : Label := ⟨"d", by decide⟩
    let f : Label := ⟨"f", by decide⟩
    let stored : List BlockInfo := [⟨6, f⟩, ⟨2, b⟩, ⟨1, a⟩]
    let remote : List BlockInfo :=
      [⟨6, f⟩, ⟨2, ⟨"x", by decide⟩⟩, ⟨4, d⟩, ⟨1, a⟩, ⟨2, b⟩, ⟨1, a⟩]
    (stored.map BlockInfo.position).Nodup ∧ IsGreatest (agreedPositions stored remote) 2 ∧
      forkPoint stored.reverse remote.reverse = some 2 ∧
      IsGreatest (agreedPositions stored (⟨2, a⟩ :: remote)) 1 ∧
      ∀ p, p ∉ agreedPositions stored (⟨1, ⟨"0", by decide⟩⟩ :: remote) := by
  intro a b d f stored remote
  have distinct : (stored.map BlockInfo.position).Nodup := by decide
  obtain ⟨two, -, reordered⟩ := forkPoint_greatest distinct remote
  have fork : forkPoint stored remote = some 2 := by cbv
  refine ⟨distinct, (two 2).mp fork, ?_, ?_, ?_⟩
  · exact (reordered _ _ stored.reverse_perm remote.reverse_perm).trans fork
  · exact ((forkPoint_greatest distinct _).1 1).mp (by cbv)
  · exact (forkPoint_greatest distinct _).2.1.mp (by cbv)

end ChainNode
