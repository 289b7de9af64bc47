import Mathlib.Data.List.Nodup
import ChainNode.View.Majority

/-!
# Looking up a position

Where no position is repeated, the hash that a list gives for a position is the hash of the one
info that stands there, and what a view shows at a position is that info.
-/
namespace ChainNode

variable {infos : List BlockInfo}

theorem mem_of_hashAt {p : UInt64} {hash : Label} (h : hashAt infos p = some hash) :
    ⟨p, hash⟩ ∈ infos := by
  obtain ⟨i, hfind, rfl⟩ := Option.map_eq_some_iff.mp h
  have position : i.position = p := by simpa using List.find?_some hfind
  rw [← position]
  exact List.mem_reverse.mp (List.mem_of_find?_eq_some hfind)

theorem hashAt_eq_none_iff {p : UInt64} :
    hashAt infos p = none ↔ ∀ i ∈ infos, i.position ≠ p := by
  simp [hashAt]

theorem hashAt_eq_some_iff (distinct : (infos.map BlockInfo.position).Nodup) {p : UInt64}
    {hash : Label} : hashAt infos p = some hash ↔ ⟨p, hash⟩ ∈ infos := by
  constructor
  · exact mem_of_hashAt
  · intro h
    cases found : hashAt infos p with
    | none => exact absurd rfl (hashAt_eq_none_iff.mp found _ h)
    | some other =>
      have same := List.inj_on_of_nodup_map distinct (mem_of_hashAt found) h rfl
      rw [(BlockInfo.mk.inj same).2]

namespace View

variable {v : View} {p : UInt64}

theorem mem_of_infoAt {i : BlockInfo} (h : v.infoAt p = some i) : i ∈ v.infos ∧ i.position = p :=
  ⟨List.mem_of_find?_eq_some h, by simpa using List.find?_some h⟩

theorem infoAt_eq_none_iff : v.infoAt p = none ↔ ∀ i ∈ v.infos, i.position ≠ p := by
  simp [infoAt]

theorem infoAt_eq_some_iff (distinct : (v.infos.map BlockInfo.position).Nodup) {i : BlockInfo} :
    v.infoAt p = some i ↔ i ∈ v.infos ∧ i.position = p := by
  constructor
  · exact mem_of_infoAt
  · rintro ⟨hi, rfl⟩
    cases found : v.infoAt i.position with
    | none => exact absurd rfl (infoAt_eq_none_iff.mp found i hi)
    | some other =>
      obtain ⟨hother, same⟩ := mem_of_infoAt found
      rw [List.inj_on_of_nodup_map distinct hother hi same]

theorem mem_iff_infoAt (distinct : (v.infos.map BlockInfo.position).Nodup) {i : BlockInfo} :
    i ∈ v.infos ↔ v.infoAt i.position = some i := by
  simp [infoAt_eq_some_iff distinct]

end View

end ChainNode
