import ChainNode.Proofs.View.Majority

/-!
# What becomes of the list that most reports give

Those who give it are all in the camp that wins, so the view that is chosen has no other hash for
any of its positions. But the view is the list of the longest member, and a member that contradicts
nobody need not have spoken of the same positions. If it is no shorter it may take the place of the
list, and positions on which most reports agree are then missing from the view. This is the only way
in which they can get lost, and it is closed to reports that begin at the position at which the list
begins.

* `Outgrows`: what a report is like that takes the place of a list.
* `Outgrows.begins_elsewhere`: it begins at another position.
* `choose_covers_unless_outgrown`: the view has the list, or a report has outgrown it.
-/
namespace ChainNode

variable {reports : List Report} {infos : List BlockInfo}

/-- A report contradicts a list nowhere, is no shorter, and leaves out one of its positions. -/
structure Outgrows (infos : List BlockInfo) (r : Report) : Prop where
  peaceful : Agree infos r.infos
  long : infos.length ≤ r.infos.length
  leaves : ∃ i ∈ infos, ∀ j ∈ r.infos, j.position ≠ i.position

/-- The positions form one run that begins with `p`, in whatever order they are listed. -/
def BeginsAt (p : Nat) (infos : List BlockInfo) : Prop :=
  (infos.map BlockInfo.height).Perm (List.range' p infos.length)

theorem BeginsAt.of_perm {p : Nat} {others : List BlockInfo} (begins : BeginsAt p infos)
    (perm : others.Perm infos) : BeginsAt p others := by
  have heights := (perm.map BlockInfo.height).trans begins
  rwa [← perm.length_eq] at heights

/-- From one first position on, the longer of two runs has all that the other has. -/
theorem Outgrows.begins_elsewhere {r : Report} (outgrows : Outgrows infos r) {p : Nat}
    (begins : BeginsAt p infos) : ¬ BeginsAt p r.infos := by
  intro begins'
  obtain ⟨i, hi, left_out⟩ := outgrows.leaves
  have long := outgrows.long
  have within := List.mem_range'_1.mp (begins.mem_iff.mp (List.mem_map_of_mem hi))
  have covered : i.height ∈ r.infos.map BlockInfo.height :=
    begins'.mem_iff.mpr (List.mem_range'_1.mpr ⟨within.1, by omega⟩)
  obtain ⟨j, hj, height⟩ := List.mem_map.mp covered
  exact left_out j hj (BlockInfo.position_eq_iff.mpr height)

namespace Stands

variable {m : Camp} {view : View}

theorem nodup_positions (stands : Stands reports m view) :
    (view.infos.map BlockInfo.position).Nodup := by
  obtain ⟨r, hr, sorted, -⟩ := stands.infos
  have counts := (List.mem_filter.mp (stands.arrival.subset hr)).2
  rw [sorted]
  exact (((List.mergeSort_perm _ _).map _).nodup_iff).mpr (Report.nodup_of_isUsable counts)

section

variable (stands : Stands reports m view)
  (most : (usable reports).length < 2 * (reporters reports infos).length)

include stands most

theorem mem_nodes {r : Report} (hr : r ∈ reporters reports infos) : r.node ∈ view.nodes := by
  rw [stands.nodes]
  exact List.mem_map_of_mem ((stands.majority infos most).subset hr)

/-- The view is a list that agrees with the one that most reports give, and no shorter. -/
theorem exists_agreeing : ∃ r ∈ usable reports, view.infos = BlockInfo.sort r.infos ∧
    Agree infos r.infos ∧ infos.length ≤ r.infos.length := by
  obtain ⟨r, hr, sorted, longest⟩ := stands.infos
  obtain ⟨a, ha⟩ := List.exists_mem_of_ne_nil (reporters reports infos)
    (List.ne_nil_of_length_pos (by omega))
  have member := (stands.majority infos most).subset ha
  have lists := (mem_reporters.mp ha).2
  refine ⟨r, stands.arrival.subset hr, sorted, ?_, ?_⟩
  · exact ((stands.agree r hr a member).of_perm_right lists.symm).symm
  · rw [← lists.length_eq]
    exact longest a member

/-- A position of the list bears its hash in the view, or it is not in the view. -/
theorem infoAt_cases {i : BlockInfo} (hi : i ∈ infos) :
    view.infoAt i.position = some i ∨ view.infoAt i.position = none := by
  obtain ⟨r, -, sorted, peaceful, -⟩ := stands.exists_agreeing most
  cases found : view.infoAt i.position with
  | none => exact .inr rfl
  | some j =>
    obtain ⟨hj, position⟩ := View.mem_of_infoAt found
    rw [sorted, BlockInfo.sort, List.mem_mergeSort] at hj
    have hash := peaceful i hi j hj position.symm
    rw [BlockInfo.eq_of_height_hash (BlockInfo.position_eq_iff.mp position) hash.symm]
    exact .inl rfl

theorem missing_iff : (∃ i ∈ infos, view.infoAt i.position = none) ↔
    ∃ r ∈ usable reports, Outgrows infos r ∧ view.infos = BlockInfo.sort r.infos := by
  have listed : ∀ {r : Report}, view.infos = BlockInfo.sort r.infos → ∀ j,
      j ∈ view.infos ↔ j ∈ r.infos := by
    intro r sorted j
    rw [sorted, BlockInfo.sort, List.mem_mergeSort]
  constructor
  · intro missing
    obtain ⟨i, hi, absent⟩ := missing
    obtain ⟨r, counts, sorted, peaceful, long⟩ := stands.exists_agreeing most
    refine ⟨r, counts, ⟨peaceful, long, i, hi, fun j hj => ?_⟩, sorted⟩
    exact View.infoAt_eq_none_iff.mp absent j ((listed sorted j).mpr hj)
  · intro outgrown
    obtain ⟨r, -, ⟨-, -, i, hi, left_out⟩, sorted⟩ := outgrown
    exact ⟨i, hi, View.infoAt_eq_none_iff.mpr fun j hj => left_out j ((listed sorted j).mp hj)⟩

/-- Nothing is missing if all reports that count begin where the list begins. -/
theorem covers {p : Nat} (begins : BeginsAt p infos)
    (alike : ∀ r ∈ usable reports, BeginsAt p r.infos) :
    ∀ i ∈ infos, view.infoAt i.position = some i := by
  intro i hi
  rcases stands.infoAt_cases most hi with has | absent
  · exact has
  · obtain ⟨r, counts, outgrows, -⟩ := (stands.missing_iff most).mp ⟨i, hi, absent⟩
    exact absurd (alike r counts) (outgrows.begins_elsewhere begins)

end

end Stands

/-- **The majority's list in the view.** If more than half of the reports that count give one list,
there is a view, and those who gave the list are among its nodes. A position of the list has the
list's hash in the view, or none; and none at some position exactly if the view is a report that
outgrows the list. If all reports that count begin with one position, the view has all of the list.
-/
theorem choose_covers_unless_outgrown
    (most : (usable reports).length < 2 * (reporters reports infos).length) :
    ∃ view, choose reports = some view ∧ (∀ r ∈ reporters reports infos, r.node ∈ view.nodes) ∧
      (∀ i ∈ infos, view.infoAt i.position = some i ∨ view.infoAt i.position = none) ∧
      ((∃ i ∈ infos, view.infoAt i.position = none) ↔
        ∃ r ∈ usable reports, Outgrows infos r ∧ view.infos = BlockInfo.sort r.infos) ∧
      ∀ p, (∀ r ∈ usable reports, BeginsAt p r.infos) →
        ∀ i ∈ infos, view.infoAt i.position = some i := by
  obtain ⟨a, ha⟩ := List.exists_mem_of_ne_nil (reporters reports infos)
    (List.ne_nil_of_length_pos (by omega))
  obtain ⟨counts, lists⟩ := mem_reporters.mp ha
  obtain ⟨member, usable⟩ := List.mem_filter.mp counts
  obtain ⟨some_info, contiguous⟩ := Report.isUsable_iff.mp usable
  cases chosen : choose reports with
  | none =>
    rcases choose_eq_none_iff.mp chosen a member with empty | gap
    · exact absurd empty some_info
    · exact absurd contiguous gap
  | some view =>
    obtain ⟨m, stands⟩ := exists_stands chosen
    refine ⟨view, rfl, fun r hr => stands.mem_nodes most hr,
      fun i hi => stands.infoAt_cases most hi, stands.missing_iff most, fun p alike => ?_⟩
    exact stands.covers most ((alike a counts).of_perm lists.symm) alike

/-- Two of three peers report position 5, the third reports 7 and 8, and 5 is not in the view. -/
theorem choose_covers_unless_outgrown_disjoint :
    let infos : List BlockInfo := [⟨5, ⟨"x", by decide⟩⟩]
    let longer : List BlockInfo := [⟨7, ⟨"y", by decide⟩⟩, ⟨8, ⟨"z", by decide⟩⟩]
    let reports : List Report := [⟨"a", infos⟩, ⟨"b", infos⟩, ⟨"c", longer⟩]
    (usable reports).length < 2 * (reporters reports infos).length ∧
    ∃ view, choose reports = some view ∧ (∀ r ∈ reporters reports infos, r.node ∈ view.nodes) ∧
      (∀ i ∈ infos, view.infoAt i.position = some i ∨ view.infoAt i.position = none) ∧
      ∃ r ∈ usable reports, Outgrows infos r ∧ view.infos = BlockInfo.sort r.infos := by
  intro infos longer reports
  have most : (usable reports).length < 2 * (reporters reports infos).length := by cbv
  obtain ⟨view, chosen, nodes, hashes, outgrown, -⟩ := choose_covers_unless_outgrown most
  have is_view : choose reports = some ⟨["a", "b", "c"], longer⟩ := by cbv
  obtain rfl := Option.some.inj (chosen.symm.trans is_view)
  exact ⟨most, _, chosen, nodes, hashes, outgrown.mp ⟨_, List.mem_cons_self, rfl⟩⟩

end ChainNode
