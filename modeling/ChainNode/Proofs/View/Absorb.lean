import ChainNode.Proofs.View.Ascending

/-!
# Absorbing a view

Absorbing adds the infos whose positions are free. Where two views do not contradict each other,
that is their union, and being sorted it is determined by its members.

* `mem_addNodes`: the nodes of both.
* `mem_of_mem_absorb`: every info is of one of the two.
* `absorb_infos`: the infos of two views that are part of one whole.
* `increasing_absorb`: the order, of any two views.
-/
namespace ChainNode.View

theorem mem_addNodes {b a : List NodeId} {id : NodeId} :
    id ∈ b.foldl addNode a ↔ id ∈ a ∨ id ∈ b := by
  induction b generalizing a with
  | nil => simp
  | cons x b ih =>
    have added : id ∈ addNode a x ↔ id ∈ a ∨ id = x := by
      unfold addNode
      split
      · constructor
        · exact .inl
        · intro h
          rcases h with h | rfl
          · exact h
          · assumption
      · simp
    rw [List.foldl_cons, ih, added, List.mem_cons]
    tauto

theorem mem_addInfo {whole infos : List BlockInfo} (apart : Increasing whole)
    (part : ∀ i ∈ infos, i ∈ whole) {j : BlockInfo} (hj : j ∈ whole) (i : BlockInfo) :
    i ∈ addInfo infos j ↔ i ∈ infos ∨ i = j := by
  unfold addInfo
  split
  · rename_i taken
    obtain ⟨k, hk, same⟩ := List.any_eq_true.mp taken
    have is_j : k = j := List.inj_on_of_nodup_map apart.nodup_positions (part k hk) hj
      (by simpa using same)
    constructor
    · exact .inl
    · intro h
      rcases h with h | rfl
      · exact h
      · rwa [← is_j]
  · simp

theorem nodup_addInfo {infos : List BlockInfo} (distinct : (infos.map BlockInfo.position).Nodup)
    (j : BlockInfo) : ((addInfo infos j).map BlockInfo.position).Nodup := by
  unfold addInfo
  split
  · exact distinct
  · rename_i free
    rw [List.map_append, List.nodup_append]
    refine ⟨distinct, List.nodup_singleton _, ?_⟩
    intro p hp q hq same
    obtain ⟨k, hk, rfl⟩ := List.mem_map.mp hp
    rw [List.map_singleton, List.mem_singleton] at hq
    exact free (List.any_eq_true.mpr ⟨k, hk, by simpa [← hq] using same⟩)

theorem nodup_addInfos {a : List BlockInfo} (distinct : (a.map BlockInfo.position).Nodup) :
    ∀ b : List BlockInfo, ((b.foldl addInfo a).map BlockInfo.position).Nodup
  | [] => distinct
  | j :: b => nodup_addInfos (nodup_addInfo distinct j) b

/-- By induction on the infos that are added; what was added stays part of the whole. -/
theorem mem_addInfos {whole a b : List BlockInfo} (apart : Increasing whole)
    (ha : ∀ i ∈ a, i ∈ whole) (hb : ∀ i ∈ b, i ∈ whole) (i : BlockInfo) :
    i ∈ b.foldl addInfo a ↔ i ∈ a ∨ i ∈ b := by
  induction b generalizing a with
  | nil => simp
  | cons j b ih =>
    have hj := hb j List.mem_cons_self
    have added := mem_addInfo apart ha hj
    have within : ∀ i ∈ addInfo a j, i ∈ whole := by
      intro i hi
      rcases (added i).mp hi with h | rfl
      · exact ha i h
      · exact hj
    have members := ih within fun i hi => hb i (List.mem_cons_of_mem _ hi)
    rw [List.foldl_cons, members, added i, List.mem_cons]
    tauto

theorem absorb_infos {v other : View} {whole union : List BlockInfo} (apart : Increasing whole)
    (hv : ∀ i ∈ v.infos, i ∈ whole) (hother : ∀ i ∈ other.infos, i ∈ whole)
    (distinct : (v.infos.map BlockInfo.position).Nodup) (ordered : Increasing union)
    (members : ∀ i, i ∈ union ↔ i ∈ v.infos ∨ i ∈ other.infos) :
    (v.absorb other).infos = union :=
  sort_eq_of_mem_iff (nodup_addInfos distinct other.infos) ordered fun i => by
    rw [mem_addInfos apart hv hother i, members i]

/-- Whatever is absorbed, no position is repeated and the order is kept. -/
theorem increasing_absorb {v : View} (distinct : (v.infos.map BlockInfo.position).Nodup)
    (other : View) : Increasing (v.absorb other).infos :=
  increasing_sort (nodup_addInfos distinct other.infos)

/-- Absorbing makes no infos up. -/
theorem mem_of_mem_absorb {v other : View} {i : BlockInfo} (h : i ∈ (v.absorb other).infos) :
    i ∈ v.infos ∨ i ∈ other.infos := by
  have added : ∀ b a : List BlockInfo, i ∈ b.foldl addInfo a → i ∈ a ∨ i ∈ b := by
    intro b
    induction b with
    | nil => exact fun a => .inl
    | cons j b ih =>
      intro a hi
      rcases ih _ hi with old | new
      · unfold addInfo at old
        split at old
        · exact .inl old
        · rcases List.mem_append.mp old with old | same
          · exact .inl old
          · exact .inr (by simp [List.mem_singleton.mp same])
      · exact .inr (List.mem_cons_of_mem _ new)
  exact added other.infos v.infos (List.mem_mergeSort.mp h)

end ChainNode.View
