import ChainNode.Proofs.Chain.Commitment
import ChainNode.Proofs.Chain.Span

/-!
# Where two chains fork

`shared` counts how many blocks two chains have in common, by their hashes, before the first on
which they differ. That they also differ at every position above is not a matter of counting: a
hash above would bring the hashes below it along, so it takes a collision of two seals.
`Forks c d n` says all of this of a number `n`, and is what reconciling relies on.

* `forks_shared`: chains with one first block fork at `shared`, or two of their seals collide.
* `Forks.mem`, `Forks.not_mem`: which infos of the one chain the other has.
* `FirstPart.forks`: a chain that is a first part of another forks from it at its own head.
-/
namespace ChainNode

/-- How many entries two lists have in common before they first differ. -/
def sharedLength : List Label → List Label → Nat
  | a :: as, b :: bs => if a = b then sharedLength as bs + 1 else 0
  | _, _ => 0

theorem sharedLength_le : ∀ as bs : List Label,
    sharedLength as bs ≤ as.length ∧ sharedLength as bs ≤ bs.length
  | [], _ => by simp [sharedLength]
  | _ :: _, [] => by simp [sharedLength]
  | a :: as, b :: bs => by
    have := sharedLength_le as bs
    rw [sharedLength, List.length_cons, List.length_cons]
    split <;> omega

theorem getElem_eq_of_lt_sharedLength : ∀ {as bs : List Label} {i : Nat} (ha : i < as.length)
    (hb : i < bs.length), i < sharedLength as bs → as[i] = bs[i]
  | a :: as, b :: bs, i, ha, hb, h => by
    rw [sharedLength] at h
    split at h
    · rename_i same
      cases i with
      | zero => exact same
      | succ i =>
        rw [List.getElem_cons_succ, List.getElem_cons_succ]
        exact getElem_eq_of_lt_sharedLength _ _ (by omega)
    · omega

theorem getElem_sharedLength_ne : ∀ {as bs : List Label} (ha : sharedLength as bs < as.length)
    (hb : sharedLength as bs < bs.length), as[sharedLength as bs] ≠ bs[sharedLength as bs]
  | a :: as, b :: bs, ha, hb => by
    by_cases same : a = b
    · have next : sharedLength (a :: as) (b :: bs) = sharedLength as bs + 1 := if_pos same
      simp only [next, List.length_cons, List.getElem_cons_succ] at ha hb ⊢
      exact getElem_sharedLength_ne (by omega) (by omega)
    · have here : sharedLength (a :: as) (b :: bs) = 0 := if_neg same
      simpa only [here, List.getElem_cons_zero] using same

namespace Chain

/-- How many blocks two chains have in common, judged by their hashes. -/
def shared (c d : Chain) : Nat :=
  sharedLength (c.blocks.map Block.hash) (d.blocks.map Block.hash)

/-- Two valid chains with one first block, at position 1, that agree on their first `n` blocks and
at no position above. -/
structure Forks (c d : Chain) (n : Nat) : Prop where
  valid_left : c.Valid
  valid_right : d.Valid
  first : c.first = d.first
  genesis : d.first.height = 1
  positive : 1 ≤ n
  left : n ≤ c.blocks.length
  right : n ≤ d.blocks.length
  below : c.infos.take n = d.infos.take n
  above : ∀ i (hc : i < c.infos.length) (hd : i < d.infos.length), n ≤ i → c.infos[i] ≠ d.infos[i]

variable {c d : Chain}

theorem getElem_infos {i : Nat} (hi : i < c.infos.length) (hb : i < c.blocks.length) :
    c.infos[i] = c.blocks[i].info := by simp [infos]

theorem getElem_eq_of_take_eq {n i : Nat} (same : c.blocks.take n = d.blocks.take n) (hi : i < n)
    {hc : i < c.blocks.length} {hd : i < d.blocks.length} : c.blocks[i] = d.blocks[i] := by
  have entry := congrArg (·[i]?) same
  simp only [List.getElem?_take, hi, if_true, List.getElem?_eq_getElem hc,
    List.getElem?_eq_getElem hd] at entry
  exact Option.some.inj entry

/-- Blocks at one index have one position, so their hashes decide. -/
theorem info_eq_of_hash_eq (hc : c.Valid) (hd : d.Valid) (first : c.first = d.first) {i : Nat}
    (hi : i < c.blocks.length) (hi' : i < d.blocks.length)
    (hash : c.blocks[i].hash = d.blocks[i].hash) : c.blocks[i].info = d.blocks[i].info := by
  have height : c.blocks[i].height = d.blocks[i].height := by
    rw [hc.height_getElem hi, hd.height_getElem hi', first]
  rw [Block.info, Block.info, hash, UInt64.toNat_inj.mp height]

theorem forks_shared (hc : c.Valid) (hd : d.Valid) (first : c.first = d.first)
    (genesis : d.first.height = 1) : Forks c d (shared c d) ∨ SealCollision c d := by
  by_cases collision : SealCollision c d
  · exact .inr collision
  left
  have bounds := sharedLength_le (c.blocks.map Block.hash) (d.blocks.map Block.hash)
  rw [List.length_map, List.length_map] at bounds
  refine ⟨hc, hd, first, genesis, ?_, bounds.1, bounds.2, ?_, ?_⟩
  · rw [shared, blocks, blocks, List.map_cons, List.map_cons, sharedLength, first, if_pos rfl]
    omega
  · apply List.ext_getElem
    · rw [List.length_take, List.length_take, length_infos, length_infos, shared]
      omega
    · intro i hi hi'
      rw [List.length_take, length_infos] at hi hi'
      have bc : i < c.blocks.length := by omega
      have bd : i < d.blocks.length := by omega
      have hash := getElem_eq_of_lt_sharedLength (by simpa using bc) (by simpa using bd)
        (show i < sharedLength (c.blocks.map Block.hash) (d.blocks.map Block.hash) by
          rw [shared] at hi
          omega)
      rw [List.getElem_map, List.getElem_map] at hash
      rw [List.getElem_take, List.getElem_take, getElem_infos _ bc, getElem_infos _ bd,
        info_eq_of_hash_eq hc hd first bc bd hash]
  · intro i hi hi' le same
    rw [length_infos] at hi hi'
    rw [getElem_infos _ hi, getElem_infos _ hi'] at same
    have below := (take_eq_or_collision hc.toSound hd.toSound first hi hi'
      (congrArg BlockInfo.hash same)).resolve_right collision
    apply getElem_sharedLength_ne (by rw [List.length_map]; exact Nat.lt_of_le_of_lt le hi)
      (by rw [List.length_map]; exact Nat.lt_of_le_of_lt le hi')
    rw [List.getElem_map, List.getElem_map]
    exact congrArg Block.hash (getElem_eq_of_take_eq below.2 (Nat.lt_succ_of_le le))

namespace Forks

variable {n : Nat}

theorem genesis_left (fork : Forks c d n) : c.first.height = 1 := by rw [fork.first, fork.genesis]

theorem getElem_info (fork : Forks c d n) {i : Nat} (hi : i < n) (hc : i < c.blocks.length)
    (hd : i < d.blocks.length) : c.blocks[i].info = d.blocks[i].info := by
  have same := congrArg (fun l => l[i]?) fork.below
  simp only [List.getElem?_take, hi, if_true] at same
  rw [List.getElem?_eq_getElem (by simpa using hc), List.getElem?_eq_getElem (by simpa using hd),
    getElem_infos _ hc, getElem_infos _ hd] at same
  exact Option.some.inj same

theorem mem (fork : Forks c d n) {i : BlockInfo} (hi : i ∈ d.infos) (le : i.height ≤ n) :
    i ∈ c.infos := by
  obtain ⟨k, hk, rfl⟩ := List.mem_iff_getElem.mp hi
  rw [fork.valid_right.height_getElem_infos hk, fork.genesis] at le
  have kept : d.infos[k] ∈ d.infos.take n :=
    List.mem_take_iff_getElem.mpr ⟨k, by omega, rfl⟩
  rw [← fork.below] at kept
  exact List.mem_of_mem_take kept

theorem not_mem (fork : Forks c d n) {i : BlockInfo} (hi : i ∈ d.infos) (lt : n < i.height) :
    i ∉ c.infos := by
  intro hi'
  obtain ⟨k, hk, rfl⟩ := List.mem_iff_getElem.mp hi
  obtain ⟨j, hj, same⟩ := List.mem_iff_getElem.mp hi'
  have heights := congrArg BlockInfo.height same
  rw [fork.valid_left.height_getElem_infos hj, fork.valid_right.height_getElem_infos hk,
    fork.first] at heights
  rw [fork.valid_right.height_getElem_infos hk, fork.genesis] at lt
  obtain rfl : j = k := by omega
  exact fork.above j hj hk (by omega) same

end Forks

/-- The chain is sound and its infos are the first `n` of those of `d`. -/
structure FirstPart (d : Chain) (n : Nat) (c : Chain) : Prop where
  sound : c.Sound
  first : c.first = d.first
  infos : c.infos = d.infos.take n

namespace FirstPart

variable {n : Nat}

theorem length (part : d.FirstPart n c) (within : n ≤ d.blocks.length) : c.blocks.length = n := by
  rw [← length_infos, part.infos, List.length_take, length_infos]
  omega

theorem infos_eq (part : d.FirstPart d.blocks.length c) : c.infos = d.infos := by
  rw [part.infos, ← length_infos, List.take_length]

theorem valid (part : d.FirstPart n c) (hd : d.Valid) : c.Valid where
  toSound := part.sound
  unwrapped := by
    have shorter := congrArg List.length part.infos
    rw [List.length_take, length_infos, length_infos, length_blocks, length_blocks] at shorter
    have room := hd.unwrapped
    rw [Unwrapped] at room ⊢
    rw [part.first]
    omega

theorem forks (part : d.FirstPart n c) (hd : d.Valid) (genesis : d.first.height = 1)
    (positive : 1 ≤ n) (within : n ≤ d.blocks.length) : Forks c d n := by
  have length := part.length within
  refine ⟨part.valid hd, hd, part.first, genesis, positive, by omega, within, ?_, ?_⟩
  · rw [part.infos, List.take_take, Nat.min_self]
  · intro i hi _ le
    rw [length_infos] at hi
    omega

end FirstPart

end Chain

end ChainNode
