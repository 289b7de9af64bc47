import ChainNode.Proofs.View.Majority

/-!
# The view of unanimous reports

When all reports list the same infos there is one camp, and its view is those infos, held by all
who reported; when they all list nothing, or with a gap, there is no view.
-/
namespace ChainNode

/-- Some reports of some of these nodes, all with the same infos. -/
structure Unanimous (ids : List NodeId) (infos : List BlockInfo) (reports : List Report) :
    Prop where
  nonempty : reports ≠ []
  nodes : ∀ r ∈ reports, r.node ∈ ids
  same : ∀ r ∈ reports, r.infos = infos

namespace Camp

/-- Reports that every member of a camp accepts all join it. -/
theorem foldl_place {rs : List Report} {c : Camp}
    (h : ∀ a ∈ c ++ rs, ∀ b ∈ rs, a.isPeaceful b = true) :
    rs.foldl (fun cs r => place r cs) [c] = [c ++ rs] := by
  induction rs generalizing c with
  | nil => simp
  | cons r rs ih =>
    have accepts : Camp.accepts c r = true := by
      rw [Camp.accepts, List.all_eq_true]
      exact fun a ha => h a (List.mem_append_left _ ha) r List.mem_cons_self
    rw [List.foldl_cons, place, if_pos accepts, ih]
    · rw [List.append_assoc, List.singleton_append]
    · intro a ha b hb
      rw [List.append_assoc, List.singleton_append] at ha
      exact h a ha b (List.mem_cons_of_mem _ hb)

end Camp

namespace Unanimous

variable {ids : List NodeId} {infos : List BlockInfo} {reports : List Report} {p : Nat}

theorem mem_nodes (h : Unanimous ids infos reports) : ∀ id ∈ reports.map Report.node, id ∈ ids := by
  intro id hid
  obtain ⟨report, hreport, rfl⟩ := List.mem_map.mp hid
  exact h.nodes report hreport

theorem nodes_ne_nil (h : Unanimous ids infos reports) : reports.map Report.node ≠ [] := by
  simpa using h.nonempty

theorem choose_eq_none (h : Unanimous ids infos reports)
    (unusable : (!infos.isEmpty && isContiguous infos) = false) : choose reports = none := by
  have nothing : reports.filter Report.isUsable = [] := by
    rw [List.filter_eq_nil_iff]
    intro r hr
    simp [Report.isUsable, h.same r hr, unusable]
  rw [choose, camps, nothing]
  rfl

theorem choose_nil (h : Unanimous ids [] reports) : choose reports = none :=
  h.choose_eq_none rfl

theorem isPeaceful (h : Unanimous ids infos reports) (ordered : Consecutive p infos)
    {a b : Report} (ha : a ∈ reports) (hb : b ∈ reports) : a.isPeaceful b = true := by
  rw [Report.isPeaceful, h.same a ha, h.same b hb, List.all_eq_true]
  intro i hi
  rw [(hashAt_eq_some_iff ordered.increasing.nodup_positions).mpr hi]
  exact beq_self_eq_true _

theorem camps_eq (h : Unanimous ids infos reports) (ordered : Consecutive p infos)
    (some_info : infos ≠ []) : camps reports = [reports] := by
  have usable : reports.filter Report.isUsable = reports := by
    rw [List.filter_eq_self]
    intro r hr
    simp [Report.isUsable, h.same r hr, ordered.isContiguous, some_info]
  rw [camps, usable]
  cases hr : reports with
  | nil => exact absurd hr h.nonempty
  | cons r rs =>
    rw [List.foldl_cons, Camp.place, Camp.foldl_place]
    · rfl
    · intro a ha b hb
      apply h.isPeaceful ordered
      · rw [hr]
        exact ha
      · rw [hr]
        exact List.mem_cons_of_mem _ hb

theorem choose_eq (h : Unanimous ids infos reports) (ordered : Consecutive p infos)
    (some_info : infos ≠ []) : choose reports = some ⟨reports.map Report.node, infos⟩ := by
  obtain ⟨r, hr⟩ := Camp.longest_isSome h.nonempty
  have longest := h.same r (Camp.longest_spec hr).1
  rw [choose, h.camps_eq ordered some_info, winner, List.foldl_nil, Option.map_some, Camp.view, hr]
  simp only [Option.map_some, Option.getD_some, longest, View.ofInfos,
    ordered.increasing.sort_eq]

end Unanimous

end ChainNode
