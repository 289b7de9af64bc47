import ChainNode.Proofs.View.Absorb
import ChainNode.Proofs.View.Lookup

/-!
# Absorbing as a union

What a view says of a position after it has absorbed another is what it said before, or else what
the other says. A view in ascending order is determined by what it says of every position, so
that the laws of absorbing are the laws of "the first that has an answer".

* `infos_eq_of_infoAt`: a view is determined by its answers.
* `nodes_absorb`: who agrees.
* `infoAt_absorb`: the answers.
-/
namespace ChainNode.View

variable {v w : View} {p : UInt64} {i : BlockInfo}

/-! ## Answers determine a view -/

theorem infos_eq_of_infoAt (hv : Increasing v.infos) (hw : Increasing w.infos)
    (same : ∀ p, v.infoAt p = w.infoAt p) : v.infos = w.infos := by
  refine hv.eq_of_mem_iff hw fun i => ?_
  rw [mem_iff_infoAt hv.nodup_positions, mem_iff_infoAt hw.nodup_positions, same]

/-! ## The infos -/

theorem find?_addInfo (infos : List BlockInfo) (i : BlockInfo) (p : UInt64) :
    (addInfo infos i).find? (·.position = p) =
      (infos.find? (·.position = p)).or ([i].find? (·.position = p)) := by
  unfold addInfo
  split
  · rename_i taken
    by_cases here : i.position = p
    · have found : (infos.find? (·.position = p)).isSome := by
        simpa [here] using taken
      simp [Option.or_of_isSome found]
    · simp [here]
  · exact List.find?_append

/-- By induction on the infos that are added: each is found only if nothing was found before. -/
theorem find?_addInfos (infos added : List BlockInfo) (p : UInt64) :
    (added.foldl addInfo infos).find? (·.position = p) =
      (infos.find? (·.position = p)).or (added.find? (·.position = p)) := by
  induction added generalizing infos with
  | nil => simp
  | cons i added ih =>
    calc ((i :: added).foldl addInfo infos).find? (·.position = p)
      _ = ((addInfo infos i).find? (·.position = p)).or (added.find? (·.position = p)) := ih _
      _ = (infos.find? (·.position = p)).or ([i] ++ added |>.find? (·.position = p)) := by
        rw [find?_addInfo, Option.or_assoc, List.find?_append]

/-- Sorting does not change an answer, as no position is repeated by then. -/
theorem infoAt_absorb (distinct : (v.infos.map BlockInfo.position).Nodup) (w : View)
    (p : UInt64) : (v.absorb w).infoAt p = (v.infoAt p).or (w.infoAt p) := by
  let unsorted : View := ⟨[], w.infos.foldl addInfo v.infos⟩
  have answer : unsorted.infoAt p = (v.infoAt p).or (w.infoAt p) := find?_addInfos _ _ p
  rw [← answer]
  ext i
  rw [infoAt_eq_some_iff (increasing_absorb distinct w).nodup_positions,
    infoAt_eq_some_iff (nodup_addInfos distinct w.infos)]
  simp [absorb, BlockInfo.sort, unsorted]

/-! ## The nodes -/

theorem nodes_absorb (v w : View) :
    (v.absorb w).nodes = v.nodes ++ (w.nodes.filter (· ∉ v.nodes)).eraseDups := by
  have added : ∀ ids nodes : List NodeId,
      ids.foldl addNode nodes = nodes ++ (ids.filter (· ∉ nodes)).eraseDups := by
    intro ids
    induction ids with
    | nil => simp
    | cons id ids ih =>
      intro nodes
      rw [List.foldl_cons, ih, addNode]
      by_cases known : id ∈ nodes
      · simp [known]
      · simp [known, List.eraseDups_cons, List.filter_filter, and_comm, beq_eq_decide]
  exact added w.nodes v.nodes

/-- **Absorbing is a union in which the absorbing view comes first.** Whatever is absorbed: the
infos ascend, at each position stands the info of the absorbing view or else the first one that the
other lists, and no others; the new nodes follow in their order, each once. To absorb a view twice
is to absorb it once, and views that do not repeat a position may be absorbed in groups. -/
theorem absorb_union (distinct : (v.infos.map BlockInfo.position).Nodup) (w : View) :
    Increasing (v.absorb w).infos ∧
      (∀ p, (v.absorb w).infoAt p = (v.infoAt p).or (w.infoAt p)) ∧
      (∀ i, i ∈ (v.absorb w).infos ↔ v.infoAt i.position = some i ∨
        v.infoAt i.position = none ∧ w.infoAt i.position = some i) ∧
      (v.absorb w).nodes = v.nodes ++ (w.nodes.filter (· ∉ v.nodes)).eraseDups ∧
      (v.absorb w).absorb w = v.absorb w ∧
      ((w.infos.map BlockInfo.position).Nodup → ∀ third : View,
        ((v.absorb w).absorb third).infos = (v.absorb (w.absorb third)).infos) := by
  have ordered := increasing_absorb distinct w
  have answers := infoAt_absorb distinct w
  refine ⟨ordered, answers, ?_, nodes_absorb v w, ?_, ?_⟩
  · intro i
    rw [mem_iff_infoAt ordered.nodup_positions, answers, Option.or_eq_some_iff]
  · have infos : ((v.absorb w).absorb w).infos = (v.absorb w).infos := by
      refine infos_eq_of_infoAt (increasing_absorb ordered.nodup_positions w) ordered fun p => ?_
      rw [infoAt_absorb ordered.nodup_positions, answers, Option.or_assoc, Option.or_self]
    have nodes : ((v.absorb w).absorb w).nodes = (v.absorb w).nodes := by
      have known : ∀ id ∈ w.nodes, id ∈ (v.absorb w).nodes :=
        fun id hid => mem_addNodes.mpr (.inr hid)
      rw [nodes_absorb, List.filter_eq_nil_iff.mpr (by simpa using known)]
      simp
    exact (View.mk.injEq ..).mpr ⟨nodes, infos⟩
  · intro distinct' third
    refine infos_eq_of_infoAt (increasing_absorb ordered.nodup_positions third)
      (increasing_absorb distinct _) fun p => ?_
    rw [infoAt_absorb ordered.nodup_positions, answers, infoAt_absorb distinct,
      infoAt_absorb distinct', Option.or_assoc]

/-- The other view contradicts the absorbing one at 5 and itself at 7, where it lists the larger
hash first. -/
theorem absorb_union_overlapping :
    let p : Label := ⟨"p", by decide⟩
    let q : Label := ⟨"q", by decide⟩
    let x : Label := ⟨"x", by decide⟩
    let y : Label := ⟨"y", by decide⟩
    let z : Label := ⟨"z", by decide⟩
    let v : View := ⟨["a", "b"], [⟨5, x⟩, ⟨2, y⟩]⟩
    let w : View := ⟨["c", "b", "c"], [⟨7, q⟩, ⟨5, z⟩, ⟨7, p⟩, ⟨1, x⟩]⟩
    let third : View := ⟨["d"], [⟨8, x⟩, ⟨7, y⟩, ⟨2, z⟩]⟩
    (v.infos.map BlockInfo.position).Nodup ∧ (third.infos.map BlockInfo.position).Nodup ∧
      Increasing (v.absorb w).infos ∧ (v.absorb w).infoAt 5 = some ⟨5, x⟩ ∧
      (v.absorb w).infoAt 7 = some ⟨7, q⟩ ∧ ⟨7, p⟩ ∉ (v.absorb w).infos ∧
      (v.absorb w).nodes = ["a", "b", "c"] ∧ (v.absorb w).absorb w = v.absorb w ∧
      ((v.absorb third).absorb w).infos = (v.absorb (third.absorb w)).infos := by
  intro p q x y z v w third
  have distinct : (v.infos.map BlockInfo.position).Nodup := by decide
  have distinct' : (third.infos.map BlockInfo.position).Nodup := by decide
  obtain ⟨ascending, answers, members, nodes, again, -⟩ := absorb_union distinct w
  obtain ⟨-, -, -, -, -, grouped⟩ := absorb_union distinct third
  refine ⟨distinct, distinct', ascending, (answers 5).trans (by decide),
    (answers 7).trans (by decide), ?_, nodes.trans (by decide), again, grouped distinct' w⟩
  rw [members]
  decide

end ChainNode.View
