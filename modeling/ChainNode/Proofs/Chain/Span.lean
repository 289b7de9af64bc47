import ChainNode.Proofs.Chain.Position
import ChainNode.Proofs.View.Ascending

/-!
# The infos of a range

On a valid chain the infos of a range are in order and without gap. If the chain starts at
position 1 they are those of the chain whose heights lie in the range.

* `mem_span`, `exists_span`: which infos these are.
* `take_span`, `span_add`, `span_eq_cons`, `span_split`: taking a range apart.
* `Sound.consecutive_span`, `Valid.consecutive_span`: their order.
-/
namespace ChainNode.Chain

/-- The infos of a range. -/
def span (c : Chain) (position limit : Nat) : List BlockInfo :=
  (c.range position limit).map Block.info

theorem map_hash_infos (c : Chain) : c.infos.map BlockInfo.hash = c.blocks.map Block.hash := by
  simp [infos, Function.comp_def]

variable {c : Chain}

theorem mem_infos_of_mem_span {p n : Nat} {i : BlockInfo} (hi : i ∈ c.span p n) : i ∈ c.infos := by
  obtain ⟨b, hb, rfl⟩ := List.mem_map.mp hi
  exact List.mem_map_of_mem (mem_of_mem_range hb)

/-- A range that is not empty has an info for each of its positions up to the head. -/
theorem Valid.exists_span (h : c.Valid) {p n k : Nat} (nonempty : c.span p n ≠ []) (low : p ≤ k)
    (high : k < p + n) (top : k ≤ c.head.height) : ∃ j ∈ c.span p n, j.height = k := by
  have total := h.height_head
  have above : c.first.height ≤ p := by
    by_contra below
    exact nonempty (by simp [span, range, Nat.lt_of_not_le below])
  have hk : k - c.first.height < c.blocks.length := by omega
  refine ⟨c.blocks[k - c.first.height].info, ?_, ?_⟩
  · rw [span, range, if_neg (by omega)]
    refine List.mem_map_of_mem (List.mem_take_iff_getElem.mpr ⟨k - p, ?_, ?_⟩)
    · rw [List.length_drop]
      omega
    · rw [List.getElem_drop]
      congr 1
      omega
  · rw [Block.height_info, h.height_getElem]
    omega

theorem span_of_le {p : Nat} (above : c.first.height ≤ p) (n : Nat) :
    c.span p n = (c.infos.drop (p - c.first.height)).take n := by
  rw [span, range_of_le above, infos, List.map_take, List.map_drop]

theorem take_span (c : Chain) (p : Nat) {m n : Nat} (le : m ≤ n) :
    (c.span p n).take m = c.span p m := by
  unfold span range
  split
  · exact List.take_nil
  · rw [← List.map_take, List.take_take, Nat.min_eq_left le]

theorem length_span_le (c : Chain) (p n : Nat) : (c.span p n).length ≤ n := by
  have cut := congrArg List.length (c.take_span p (Nat.le_refl n))
  rw [List.length_take] at cut
  omega

/-- The words after a position, one for each info of the range. -/
theorem Sound.height_getElem_span (h : c.Sound) {p n : Nat} (above : c.first.height ≤ p) {k : Nat}
    (hk : k < (c.span p n).length) : (c.span p n)[k].height = (p + k) % UInt64.size := by
  simp only [span_of_le above, List.length_take, List.length_drop] at hk ⊢
  rw [List.getElem_take, List.getElem_drop]
  simp only [infos, List.getElem_map, Block.height_info]
  rw [h.height_getElem_mod]
  congr 1
  omega

/-- A range that ends at the last position or below counts upwards. -/
theorem Sound.consecutive_span (h : c.Sound) {p n : Nat} (above : c.first.height ≤ p)
    (within : p + (c.span p n).length ≤ UInt64.size) : Consecutive p (c.span p n) := by
  rw [Consecutive]
  apply List.ext_getElem
  · rw [List.length_map, List.length_range']
  · intro k hk _
    rw [List.length_map] at hk
    rw [List.getElem_map, h.height_getElem_span above hk, Nat.mod_eq_of_lt (by omega),
      List.getElem_range']
    omega

/-- Below the first position a range is empty. -/
theorem Valid.consecutive_span (h : c.Valid) (p n : Nat) : Consecutive p (c.span p n) := by
  by_cases above : c.first.height ≤ p
  · rw [Consecutive, span_of_le above]
    apply List.ext_getElem
    · rw [List.length_map, List.length_range']
    · intro k hk _
      rw [List.length_map, List.length_take, List.length_drop] at hk
      rw [List.getElem_map, List.getElem_take, List.getElem_drop, h.height_getElem_infos,
        List.getElem_range']
      omega
  · rw [span, range, if_pos (by omega)]
    rfl

variable (genesis : c.first.height = 1)

include genesis

theorem span_eq {p : Nat} (hp : 1 ≤ p) (n : Nat) :
    c.span p n = (c.infos.drop (p - 1)).take n := by
  rw [span_of_le (by omega), genesis]

theorem span_add {p : Nat} (hp : 1 ≤ p) (m n : Nat) :
    c.span p (m + n) = c.span p m ++ c.span (p + m) n := by
  rw [span_eq genesis hp, span_eq genesis hp, span_eq genesis (by omega), List.take_add,
    List.drop_drop]
  congr 3
  omega

theorem span_eq_nil {p : Nat} (hp : 1 ≤ p) (above : c.blocks.length < p) (n : Nat) :
    c.span p n = [] := by
  rw [span_eq genesis hp, List.drop_eq_nil_of_le (by rw [length_infos]; omega), List.take_nil]

theorem span_eq_cons {p : Nat} (hp : 1 ≤ p) (below : p - 1 < c.infos.length) (n : Nat) :
    c.span p (n + 1) = c.infos[p - 1] :: c.span (p + 1) n := by
  rw [span_eq genesis hp, span_eq genesis (by omega), List.drop_eq_getElem_cons below,
    List.take_succ_cons, Nat.add_sub_cancel, Nat.sub_add_cancel hp]

/-- A range taken apart at one of its positions. -/
theorem span_split {p q n : Nat} (hp : 1 ≤ p) (low : p ≤ q) (high : q < p + n)
    (hq : q - 1 < c.infos.length) :
    c.span p n = c.span p (q - p) ++ c.infos[q - 1] :: c.span (q + 1) (n - (q - p) - 1) := by
  have upper := span_eq_cons genesis (by omega : 1 ≤ q) hq (n - (q - p) - 1)
  rw [show n - (q - p) - 1 + 1 = n - (q - p) by omega] at upper
  have total := span_add genesis hp (q - p) (n - (q - p))
  rw [show q - p + (n - (q - p)) = n by omega, show p + (q - p) = q by omega, upper] at total
  exact total

theorem length_span {p : Nat} (hp : 1 ≤ p) (n : Nat) :
    (c.span p n).length = min n (c.blocks.length - (p - 1)) := by
  rw [span_eq genesis hp, List.length_take, List.length_drop, length_infos]

namespace Valid

theorem mem_span (h : c.Valid) {p : Nat} (hp : 1 ≤ p) (n : Nat) {i : BlockInfo} :
    i ∈ c.span p n ↔ i ∈ c.infos ∧ p ≤ i.height ∧ i.height < p + n := by
  rw [span_eq genesis hp, List.mem_take_iff_getElem]
  constructor
  · rintro ⟨k, hk, rfl⟩
    rw [List.length_drop] at hk
    rw [List.getElem_drop, h.height_getElem_infos]
    exact ⟨List.getElem_mem _, by omega, by omega⟩
  · rintro ⟨hi, low, high⟩
    obtain ⟨k, hk, rfl⟩ := List.mem_iff_getElem.mp hi
    have height := h.height_getElem_infos hk
    refine ⟨k - (p - 1), ?_, ?_⟩
    · rw [List.length_drop]
      omega
    · simp only [List.getElem_drop]
      congr 1
      omega

theorem increasing_infos (h : c.Valid) : Increasing c.infos := by
  have all : c.span 1 c.blocks.length = c.infos := by
    rw [span_eq genesis (Nat.le_refl 1), List.drop_zero, ← length_infos, List.take_length]
  rw [← all]
  exact (h.consecutive_span 1 _).increasing

end Valid

end ChainNode.Chain
