import ChainNode.Proofs.Chain.Valid

/-!
# Blocks by their position

In a valid chain a block's position is its distance from the first block, so a list index says
where a block stands. On a chain that starts at position 1 a range from position `p` on is what
is left of the list after `p - 1` blocks.

* `Valid.height_head`: position and length.
* `range_of_le`: reading a range.
* `Valid.filter_below`, `Valid.filter_from`: what lies on the two sides of a position.
* `range_eq`, `at?_eq`, `filter_height_lt`: reading a range, one block, what lies below, on a chain
  that starts at position 1.
-/
namespace ChainNode

namespace Block

/-- Following is a matter of the head's position and hash only. -/
theorem Follows.of_info_eq {a a' b : Block} (e : a.info = a'.info) (h : Follows a b) :
    Follows a' b := by
  have positions : a.position = a'.position := congrArg BlockInfo.position e
  have hashes : a.hash = a'.hash := congrArg BlockInfo.hash e
  exact ⟨by rw [h.position, nextPosition, positions, nextPosition],
    by rw [h.lastHash, hashes], h.contents⟩

theorem isCorrect_of_checkContents {b : Block} (h : b.checkContents = .ok ()) :
    b.isCorrect = true := by
  unfold checkContents at h
  split at h
  · assumption
  · cases h

theorem Follows.isCorrect {a b : Block} (h : Follows a b) : b.isCorrect = true :=
  isCorrect_of_checkContents h.contents

@[simp] theorem height_info (b : Block) : b.info.height = b.height := rfl

@[simp] theorem hash_info (b : Block) : b.info.hash = b.hash := rfl

@[simp] theorem position_info (b : Block) : b.info.position = b.position := rfl

end Block

namespace Chain

@[simp] theorem length_infos (c : Chain) : c.infos.length = c.blocks.length := by simp [infos]

theorem length_later_lt (c : Chain) : c.later.length < c.blocks.length := by
  rw [length_blocks]
  omega

theorem getElem_length_later (c : Chain) (h : c.later.length < c.blocks.length) :
    c.blocks[c.later.length] = c.head := by
  have top := c.getLast?_blocks
  rw [List.getLast?_eq_getElem?, length_blocks, Nat.add_sub_cancel,
    List.getElem?_eq_getElem h] at top
  exact Option.some.inj top

/-- The block below a cut is the head afterwards. -/
theorem head_cut {c : Chain} {n : Nat} (h : n < c.blocks.length) :
    (c.cut n).head = c.blocks[n] := by
  have top := (c.cut n).getLast?_blocks
  rw [blocks_cut, List.getLast?_take] at top
  simpa [h] using top.symm

/-- What is read at a position stands in the list at its distance from the first block. -/
theorem getElem?_of_at? {c : Chain} {p : Nat} {b : Block} (h : c.at? p = some b) :
    c.first.height ≤ p ∧ c.blocks[p - c.first.height]? = some b := by
  unfold at? range at h
  split at h
  · cases h
  · rename_i above
    simp [List.head?_take] at h
    exact ⟨by omega, h⟩

theorem range_of_le {c : Chain} {p : Nat} (above : c.first.height ≤ p) (n : Nat) :
    c.range p n = (c.blocks.drop (p - c.first.height)).take n := by
  rw [range, if_neg (by omega)]

theorem mem_of_mem_range {c : Chain} {p n : Nat} {b : Block} (h : b ∈ c.range p n) :
    b ∈ c.blocks := by
  unfold range at h
  split at h
  · cases h
  · exact List.mem_of_mem_drop (List.mem_of_mem_take h)

namespace Sound

variable {c : Chain}

theorem isCorrect_getElem (h : c.Sound) {i : Nat} (hi : i + 1 < c.blocks.length) :
    c.blocks[i + 1].isCorrect = true :=
  (h.follows_getElem hi).isCorrect

theorem nodup_range (h : c.Sound) (p n : Nat) : ((c.range p n).map Block.hash).Nodup := by
  unfold range
  split
  · exact List.nodup_nil
  · exact h.distinct.sublist (((List.take_sublist _ _).trans (List.drop_sublist _ _)).map _)

/-- What is found at a position stands there. -/
theorem height_of_at? (h : c.Sound) {p : Nat} {b : Block} (found : c.at? p = some b)
    (word : p < UInt64.size) : b.height = p := by
  obtain ⟨above, entry⟩ := getElem?_of_at? found
  obtain ⟨hi, rfl⟩ := List.getElem?_eq_some_iff.mp entry
  rw [h.height_getElem_mod, Nat.add_sub_of_le above, Nat.mod_eq_of_lt word]

/-- Every block but the first was checked. -/
theorem isCorrect_of_mem_range (h : c.Sound) {p n : Nat} (above : c.first.height < p) :
    ∀ b ∈ c.range p n, b.isCorrect = true := by
  intro b hb
  rw [range_of_le (by omega)] at hb
  obtain ⟨i, hi, rfl⟩ := List.mem_drop_iff_getElem.mp (List.mem_of_mem_take hb)
  obtain ⟨j, hj⟩ : ∃ j, p - c.first.height + i = j + 1 := ⟨p - c.first.height - 1 + i, by omega⟩
  simp only [hj] at hi ⊢
  exact h.isCorrect_getElem (by omega)

end Sound

namespace Valid

variable {c : Chain}

theorem height_head (h : c.Valid) : c.head.height + 1 = c.first.height + c.blocks.length := by
  rw [← c.getElem_length_later c.length_later_lt, h.height_getElem, length_blocks]
  omega

theorem height_getElem_infos (h : c.Valid) {i : Nat} (hi : i < c.infos.length) :
    c.infos[i].height = c.first.height + i := by
  have hb : i < c.blocks.length := by simpa using hi
  rw [← h.height_getElem hb]
  simp [infos]

theorem increasing_blocks (h : c.Valid) : c.blocks.Pairwise (·.height < ·.height) := by
  refine List.pairwise_iff_getElem.mpr fun i j hi hj lt => ?_
  rw [h.height_getElem hi, h.height_getElem hj]
  omega

theorem height_lt_of_mem_take (h : c.Valid) {p : Nat} {b : Block}
    (hb : b ∈ c.blocks.take (p - c.first.height)) : b.height < p := by
  obtain ⟨i, hi, rfl⟩ := List.mem_take_iff_getElem.mp hb
  rw [h.height_getElem]
  omega

theorem le_height_of_mem_drop (h : c.Valid) {p : Nat} {b : Block}
    (hb : b ∈ c.blocks.drop (p - c.first.height)) : p ≤ b.height := by
  obtain ⟨i, hi, rfl⟩ := List.mem_drop_iff_getElem.mp hb
  rw [h.height_getElem]
  omega

/-- The blocks below a position are the first ones of the list. -/
theorem filter_below (h : c.Valid) (p : Nat) :
    c.blocks.filter (·.height < p) = c.blocks.take (p - c.first.height) := by
  conv_lhs => rw [← List.take_append_drop (p - c.first.height) c.blocks]
  have below : (c.blocks.take (p - c.first.height)).filter (·.height < p) =
      c.blocks.take (p - c.first.height) :=
    List.filter_eq_self.mpr fun b hb => decide_eq_true (h.height_lt_of_mem_take hb)
  have above : (c.blocks.drop (p - c.first.height)).filter (·.height < p) = [] :=
    List.filter_eq_nil_iff.mpr fun b hb => by simpa using h.le_height_of_mem_drop hb
  rw [List.filter_append, below, above, List.append_nil]

end Valid

/-! ## Reading a chain that starts at position 1 -/

variable {c : Chain} (genesis : c.first.height = 1)

include genesis

theorem range_eq {p : Nat} (hp : 1 ≤ p) (n : Nat) :
    c.range p n = (c.blocks.drop (p - 1)).take n := by
  rw [range_of_le (by omega), genesis]

theorem at?_eq {p : Nat} (hp : 1 ≤ p) : c.at? p = c.blocks[p - 1]? := by
  rw [at?, range_eq genesis hp]
  simp [List.head?_take]

/-- A block is found where it says that it stands. -/
theorem Valid.at?_of_mem (h : c.Valid) {b : Block} (hb : b ∈ c.blocks) :
    c.at? b.height = some b := by
  obtain ⟨k, hk, rfl⟩ := List.mem_iff_getElem.mp hb
  have height : c.blocks[k].height = k + 1 := by
    rw [h.height_getElem hk, genesis]
    omega
  rw [height, at?_eq genesis (by omega), Nat.add_sub_cancel, List.getElem?_eq_getElem hk]

theorem Valid.height_head_eq (h : c.Valid) : c.head.height = c.blocks.length := by
  have := h.height_head
  omega

/-- The blocks below a position are the first ones of the list. -/
theorem Valid.filter_height_lt (h : c.Valid) (p : Nat) :
    c.blocks.filter (·.height < p) = c.blocks.take (p - 1) := by
  rw [h.filter_below, genesis]

theorem at?_zero : c.at? 0 = none := by
  rw [at?, range, if_pos (by omega)]
  rfl

theorem Valid.at?_head (h : c.Valid) : c.at? c.head.height = some c.head :=
  h.at?_of_mem genesis (List.mem_of_getLast? c.getLast?_blocks)

/-- What two chains hold up to a position depends on as many of their blocks. -/
theorem at?_eq_of_take_eq {d : Chain} (genesis' : d.first.height = 1) {k : Nat}
    (same : d.blocks.take k = c.blocks.take k) {p : Nat} (le : p ≤ k) : d.at? p = c.at? p := by
  by_cases positive : 1 ≤ p
  · have entry := congrArg (·[p - 1]?) same
    simp only [List.getElem?_take, show p - 1 < k by omega, if_true] at entry
    rw [at?_eq genesis positive, at?_eq genesis' positive, entry]
  · obtain rfl : p = 0 := by omega
    rw [at?_zero genesis, at?_zero genesis']

end Chain

end ChainNode
