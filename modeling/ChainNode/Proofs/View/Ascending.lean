import Mathlib.Data.List.Nodup
import ChainNode.View.Majority

/-!
# Infos in ascending order

Two notions of order for lists of infos. `Increasing`: each stands higher than those before it;
such a list is determined by its members, and sorting puts any list without repeated positions
into that order. `Consecutive p`: the heights are `p`, `p + 1` and so on; this is what the infos of
a range of a chain look like.

* `Increasing.eq_of_mem_iff`, `sort_eq_of_mem_iff`: the order is unique.
* `Consecutive.isContiguous`, `Consecutive.increasing`.
-/
namespace ChainNode

def Increasing (infos : List BlockInfo) : Prop := infos.Pairwise (·.height < ·.height)

/-- The heights count up from `p`. -/
def Consecutive (p : Nat) (infos : List BlockInfo) : Prop :=
  infos.map BlockInfo.height = List.range' p infos.length

namespace BlockInfo

theorem le_trans (a b c : BlockInfo) : le a b = true → le b c = true → le a c = true :=
  keyLE_trans (fun _ _ _ => String.le_trans) _ _ _

theorem le_total (a b : BlockInfo) : (le a b || le b a) = true :=
  keyLE_total String.le_total _ _

theorem le_refl (a : BlockInfo) : le a a = true := by simpa using le_total a a

theorem height_le_of_le {a b : BlockInfo} (h : le a b = true) : a.height ≤ b.height := by
  rcases keyLE_iff.mp h with lt | ⟨same, -⟩
  · exact Nat.le_of_lt lt
  · exact Nat.le_of_eq same

theorem le_of_height_lt {a b : BlockInfo} (h : a.height < b.height) : le a b = true :=
  keyLE_iff.mpr (.inl h)

theorem height_lt (i : BlockInfo) : i.height < UInt64.size := i.position.toNat_lt

theorem position_eq_iff {a b : BlockInfo} : a.position = b.position ↔ a.height = b.height :=
  UInt64.toNat_inj.symm

theorem eq_of_height_hash {a b : BlockInfo} (height : a.height = b.height)
    (hash : a.hash = b.hash) : a = b := by
  have position := position_eq_iff.mpr height
  cases a
  cases b
  simp only at position hash
  rw [position, hash]

theorem le_antisymm {a b : BlockInfo} (ab : le a b = true) (ba : le b a = true) : a = b := by
  have same := keyLE_antisymm (fun _ _ => String.le_antisymm) _ _ ab ba
  exact eq_of_height_hash (congrArg Prod.fst same)
    (Label.chars_inj.mp (congrArg Prod.snd same))

end BlockInfo

namespace Increasing

variable {l m : List BlockInfo}

theorem nodup_positions (h : Increasing l) : (l.map BlockInfo.position).Nodup :=
  List.pairwise_map.mpr (h.imp fun lt e => Nat.ne_of_lt lt (BlockInfo.position_eq_iff.mp e))

theorem nodup (h : Increasing l) : l.Nodup := h.nodup_positions.of_map _

theorem sort_eq (h : Increasing l) : BlockInfo.sort l = l :=
  List.mergeSort_of_pairwise (h.imp BlockInfo.le_of_height_lt)

theorem eq_of_mem_iff (hl : Increasing l) (hm : Increasing m) (h : ∀ i, i ∈ l ↔ i ∈ m) :
    l = m := by
  have perm : l.Perm m := (List.perm_ext_iff_of_nodup hl.nodup hm.nodup).mpr h
  exact perm.eq_of_pairwise (fun a b _ _ lt gt => absurd (Nat.lt_trans lt gt) (Nat.lt_irrefl _))
    hl hm

end Increasing

theorem increasing_sort {l : List BlockInfo} (distinct : (l.map BlockInfo.position).Nodup) :
    Increasing (BlockInfo.sort l) := by
  have ordered := List.pairwise_mergeSort BlockInfo.le_trans BlockInfo.le_total l
  have apart : (BlockInfo.sort l).Pairwise (·.position ≠ ·.position) :=
    List.pairwise_map.mp (((List.mergeSort_perm l _).map _).nodup_iff.mpr distinct)
  refine (ordered.and apart).imp ?_
  rintro a b ⟨le, ne⟩
  rcases keyLE_iff.mp le with lt | ⟨eq, -⟩
  · exact lt
  · exact absurd (BlockInfo.position_eq_iff.mpr eq) ne

theorem sort_eq_of_mem_iff {l m : List BlockInfo} (distinct : (l.map BlockInfo.position).Nodup)
    (hm : Increasing m) (h : ∀ i, i ∈ l ↔ i ∈ m) : BlockInfo.sort l = m :=
  (increasing_sort distinct).eq_of_mem_iff hm fun i => by
    rw [BlockInfo.sort, List.mem_mergeSort, h]

namespace Consecutive

variable {p : Nat} {l : List BlockInfo}

theorem increasing (h : Consecutive p l) : Increasing l := by
  have sorted : (l.map BlockInfo.height).Pairwise (· < ·) := by
    rw [h]
    exact List.pairwise_lt_range'
  exact List.pairwise_map.mp sorted

theorem height_head {i : BlockInfo} (h : Consecutive p (i :: l)) : i.height = p := by
  rw [Consecutive, List.map_cons, List.length_cons, List.range'_succ] at h
  exact (List.cons.inj h).1

theorem height_getElem (h : Consecutive p l) {i : Nat} (hi : i < l.length) :
    l[i].height = p + i := by
  have heights := congrArg (·[i]?) h
  simpa [hi] using heights

theorem height_getLast {last : BlockInfo} (h : Consecutive p l) (hlast : l.getLast? = some last) :
    last.height + 1 = p + l.length := by
  have heights := congrArg List.getLast? h
  rw [List.getLast?_map, hlast, List.getLast?_range'] at heights
  split at heights
  · cases heights
  · have := Option.some.inj heights
    omega

theorem consecutive_range' : ∀ p n : Nat, consecutive (List.range' p n) = true
  | _, 0 => rfl
  | _, 1 => rfl
  | p, n + 2 => by
    rw [List.range'_succ, List.range'_succ, consecutive, ← List.range'_succ]
    simp [consecutive_range' (p + 1) (n + 1)]

theorem isContiguous (h : Consecutive p l) : isContiguous l = true := by
  have sorted : (List.range' p l.length).Pairwise (· ≤ ·) := List.pairwise_le_range'
  rw [ChainNode.isContiguous, h, List.mergeSort_of_pairwise (by simpa using sorted)]
  exact consecutive_range' _ _

end Consecutive

end ChainNode
