import Mathlib.Data.List.Nodup
import Mathlib.Data.List.Permutation
import ChainNode.Proofs.View.Ascending
import ChainNode.Proofs.View.Lookup

/-!
# What the chosen view stands for

Reports enter the first camp that none of whose members they contradict. Two facts about the camps
survive every such step: members of one camp agree, and each member of a camp contradicts somebody
in every older camp. Together they keep reports of one and the same list in one camp: if two of
them were apart, the older camp would have had no reason to refuse the second. So the largest camp
is at least as large as the support of any list, and a list that more than half of the reports give
has all of its reporters there.

The view of the largest camp is the list of one of its members, the longest. It contradicts no
member, but it may well tell of positions that no other member has spoken of.

* `isContiguous_iff`, `isPeaceful_iff`: what the two tests on lists decide.
* `FirstFit.place`: one report more.
* `exists_stands`: the view that is chosen, with the camp behind it.
* `choose_stands_for_largest_camp`: when there is one, and which.
-/
namespace ChainNode

/-- The positions form one run, each of them once, in whatever order they are listed. -/
def Contiguous (infos : List BlockInfo) : Prop :=
  ∃ p, (infos.map BlockInfo.height).Perm (List.range' p infos.length)

/-- Where both lists have a position they have one hash for it. -/
def Agree (a b : List BlockInfo) : Prop :=
  ∀ i ∈ a, ∀ j ∈ b, i.position = j.position → i.hash = j.hash

/-! ## Lists of infos -/

theorem eq_range'_of_consecutive : ∀ {l : List Nat}, consecutive l = true →
    ∃ p, l = List.range' p l.length
  | [], _ => ⟨0, rfl⟩
  | [a], _ => ⟨a, rfl⟩
  | a :: b :: rest, h => by
    rw [consecutive, Bool.and_eq_true, beq_iff_eq] at h
    obtain ⟨p, hp⟩ := eq_range'_of_consecutive h.2
    obtain rfl : b = p := by
      rw [List.length_cons, List.range'_succ] at hp
      exact (List.cons.inj hp).1
    exact ⟨a, by rw [List.length_cons, List.range'_succ, ← h.1, ← hp]⟩

theorem isContiguous_iff {infos : List BlockInfo} :
    isContiguous infos = true ↔ Contiguous infos := by
  have sorting := List.mergeSort_perm (infos.map BlockInfo.height) (· ≤ ·)
  constructor
  · intro h
    obtain ⟨p, hp⟩ := eq_range'_of_consecutive h
    rw [List.length_mergeSort, List.length_map] at hp
    exact ⟨p, sorting.symm.trans (.of_eq hp)⟩
  · intro h
    obtain ⟨p, hp⟩ := h
    have ordered : ((infos.map BlockInfo.height).mergeSort (· ≤ ·)).Pairwise
        fun a b => decide (a ≤ b) = true :=
      List.pairwise_mergeSort (by simpa using fun a b c => Nat.le_trans)
        (by simpa using Nat.le_total) _
    have sorted : (infos.map BlockInfo.height).mergeSort (· ≤ ·) =
        List.range' p infos.length :=
      (sorting.trans hp).eq_of_pairwise (fun _ _ _ _ => Nat.le_antisymm)
        (ordered.imp of_decide_eq_true) List.pairwise_le_range'
    rw [isContiguous, sorted]
    exact Consecutive.consecutive_range' _ _

theorem Contiguous.nodup_positions {infos : List BlockInfo} (h : Contiguous infos) :
    (infos.map BlockInfo.position).Nodup := by
  obtain ⟨p, hp⟩ := h
  have heights : (infos.map BlockInfo.height).Nodup := hp.nodup_iff.mpr List.nodup_range'
  have same : infos.map BlockInfo.height = (infos.map BlockInfo.position).map UInt64.toNat := by
    rw [List.map_map]
    rfl
  rw [same] at heights
  exact heights.of_map _

theorem Contiguous.consecutive_sort {infos : List BlockInfo} (h : Contiguous infos) :
    ∃ p, Consecutive p (BlockInfo.sort infos) := by
  obtain ⟨p, hp⟩ := h
  have sorting : (BlockInfo.sort infos).Perm infos := List.mergeSort_perm _ _
  have ordered : ((BlockInfo.sort infos).map BlockInfo.height).Pairwise (· < ·) :=
    List.pairwise_map.mpr (increasing_sort (nodup_positions ⟨p, hp⟩))
  refine ⟨p, ?_⟩
  rw [Consecutive, sorting.length_eq]
  exact ((sorting.map _).trans hp).eq_of_pairwise
    (fun _ _ _ _ lt gt => absurd lt (Nat.lt_asymm gt)) ordered List.pairwise_lt_range'

namespace Agree

variable {a b c : List BlockInfo}

theorem symm (h : Agree a b) : Agree b a := fun i hi j hj e => (h j hj i hi e.symm).symm

theorem of_perm_right (h : Agree a b) (p : c.Perm b) : Agree a c :=
  fun i hi j hj => h i hi j (p.mem_iff.mp hj)

theorem self (distinct : (a.map BlockInfo.position).Nodup) : Agree a a := fun _ hi _ hj e =>
  congrArg BlockInfo.hash (List.inj_on_of_nodup_map distinct hi hj e)

end Agree

namespace Report

theorem isUsable_iff {r : Report} : r.isUsable = true ↔ r.infos ≠ [] ∧ Contiguous r.infos := by
  rw [isUsable, Bool.and_eq_true, isContiguous_iff, Bool.not_eq_true', List.isEmpty_eq_false_iff]

theorem nodup_of_isUsable {r : Report} (h : r.isUsable = true) :
    (r.infos.map BlockInfo.position).Nodup :=
  (isUsable_iff.mp h).2.nodup_positions

/-- `b` is asked about the positions of `a`, each of which `a` has once. -/
theorem isPeaceful_iff {a b : Report} (distinct : (a.infos.map BlockInfo.position).Nodup) :
    a.isPeaceful b = true ↔ Agree a.infos b.infos := by
  rw [isPeaceful, List.all_eq_true]
  constructor
  · intro h i hi j hj e
    have known : hashAt a.infos j.position = some i.hash :=
      (hashAt_eq_some_iff distinct).mpr (e ▸ hi)
    have said := h j hj
    rw [known] at said
    exact eq_of_beq said
  · intro h j hj
    cases known : hashAt a.infos j.position with
    | none => rfl
    | some hash => exact beq_iff_eq.mpr (h _ (mem_of_hashAt known) j hj rfl)

end Report

/-! ## Camps -/

namespace Camp

theorem accepts_iff {c : Camp} {r : Report}
    (distinct : ∀ a ∈ c, (a.infos.map BlockInfo.position).Nodup) :
    c.accepts r = true ↔ ∀ a ∈ c, Agree a.infos r.infos := by
  rw [accepts, List.all_eq_true]
  exact forall₂_congr fun a ha => Report.isPeaceful_iff (distinct a ha)

/-- A report goes into the first camp that accepts it, or behind all of them. -/
theorem place_cases (r : Report) (cs : List Camp) :
    (place r cs = cs ++ [[r]] ∧ ∀ c ∈ cs, accepts c r = false) ∨
      ∃ older c newer, cs = older ++ c :: newer ∧ place r cs = older ++ (c ++ [r]) :: newer ∧
        accepts c r = true ∧ ∀ d ∈ older, accepts d r = false := by
  induction cs with
  | nil => exact .inl ⟨rfl, nofun⟩
  | cons d cs ih =>
    unfold place
    cases accepted : accepts d r with
    | true => exact .inr ⟨[], d, cs, rfl, rfl, accepted, nofun⟩
    | false =>
      rcases ih with ⟨placed, refused⟩ | ⟨older, c, newer, rfl, placed, here, refused⟩
      · refine .inl ⟨by simp [placed], ?_⟩
        exact List.forall_mem_cons.mpr ⟨accepted, refused⟩
      · refine .inr ⟨d :: older, c, newer, rfl, by simp [placed], here, ?_⟩
        exact List.forall_mem_cons.mpr ⟨accepted, refused⟩

end Camp

/-- How camps and the reports that entered them are related: nobody is lost, members stand in the
order in which they came and agree, and whoever is in a camp was refused by each older one. -/
structure FirstFit (reports : List Report) (cs : List Camp) : Prop where
  counted : ∀ r ∈ reports, r.isUsable = true
  everybody : cs.flatten.Perm reports
  arrival : ∀ c ∈ cs, c.Sublist reports
  nonempty : ∀ c ∈ cs, c ≠ []
  agree : ∀ c ∈ cs, ∀ a ∈ c, ∀ b ∈ c, Agree a.infos b.infos
  refused : cs.Pairwise fun c d => ∀ r ∈ d, ∃ a ∈ c, ¬ Agree a.infos r.infos

namespace FirstFit

variable {reports : List Report} {cs : List Camp}

theorem nil : FirstFit [] [] := ⟨nofun, .nil, nofun, nofun, nofun, .nil⟩

theorem accepts_iff (h : FirstFit reports cs) {c : Camp} (hc : c ∈ cs) {r : Report} :
    c.accepts r = true ↔ ∀ a ∈ c, Agree a.infos r.infos :=
  Camp.accepts_iff fun a ha =>
    Report.nodup_of_isUsable (h.counted a ((h.arrival c hc).subset ha))

/-- The report joins a camp or founds one; either way it agrees with those who are there, and the
older camps have refused it. -/
theorem place (h : FirstFit reports cs) {r : Report} (hr : r.isUsable = true) :
    FirstFit (reports ++ [r]) (Camp.place r cs) := by
  have self := Agree.self (Report.nodup_of_isUsable hr)
  have counted : ∀ a ∈ reports ++ [r], a.isUsable = true := by
    simp only [List.forall_mem_append, List.forall_mem_singleton]
    exact ⟨h.counted, hr⟩
  have disputes : ∀ c ∈ cs, c.accepts r = false → ∃ a ∈ c, ¬ Agree a.infos r.infos := by
    intro c hc refused
    have := (h.accepts_iff hc (r := r)).not.mp (by simp [refused])
    push Not at this
    exact this
  rcases Camp.place_cases r cs with ⟨placed, refused⟩ |
    ⟨older, c, newer, rfl, placed, accepted, refused⟩
  · rw [placed]
    refine ⟨counted, ?_, ?_, ?_, ?_, ?_⟩
    · simpa using h.everybody.append_right [r]
    · simp only [List.forall_mem_append, List.forall_mem_singleton]
      exact ⟨fun c hc => (h.arrival c hc).trans (List.sublist_append_left ..),
        List.sublist_append_right ..⟩
    · simp only [List.forall_mem_append, List.forall_mem_singleton]
      exact ⟨h.nonempty, List.cons_ne_nil _ _⟩
    · simp only [List.forall_mem_append, List.forall_mem_singleton]
      exact ⟨h.agree, self⟩
    · refine List.pairwise_append.mpr ⟨h.refused, List.pairwise_singleton _ _, ?_⟩
      simp only [List.forall_mem_singleton]
      exact fun c hc => disputes c hc (refused c hc)
  · rw [placed]
    have hc : c ∈ older ++ c :: newer := List.mem_append_right _ List.mem_cons_self
    have welcome := (h.accepts_iff hc).mp accepted
    -- all but the camp that was joined are as before
    have others : ∀ {P : Camp → Prop}, (∀ d ∈ older ++ c :: newer, P d) → P (c ++ [r]) →
        ∀ d ∈ older ++ (c ++ [r]) :: newer, P d := by
      intro P all joined d hd
      rcases List.mem_append.mp hd with hd | hd
      · exact all d (List.mem_append_left _ hd)
      · rcases List.mem_cons.mp hd with rfl | hd
        · exact joined
        · exact all d (List.mem_append_right _ (List.mem_cons_of_mem _ hd))
    refine ⟨counted, ?_, ?_, ?_, ?_, ?_⟩
    · have moved : (older ++ (c ++ [r]) :: newer).flatten.Perm
          ((older ++ c :: newer).flatten ++ [r]) := by
        simp only [List.flatten_append, List.flatten_cons, List.append_assoc]
        have swap : ([r] ++ newer.flatten).Perm (newer.flatten ++ [r]) := List.perm_append_comm
        exact (swap.append_left c).append_left older.flatten
      exact moved.trans (h.everybody.append_right [r])
    · exact others (fun d hd => (h.arrival d hd).trans (List.sublist_append_left ..))
        ((h.arrival c hc).append (List.Sublist.refl [r]))
    · exact others h.nonempty (by simp)
    · refine others h.agree ?_
      simp only [List.forall_mem_append, List.forall_mem_singleton]
      exact ⟨fun a ha => ⟨h.agree c hc a ha, welcome a ha⟩, fun b hb => (welcome b hb).symm, self⟩
    · have before := h.refused
      rw [List.pairwise_append, List.pairwise_cons] at before ⊢
      obtain ⟨old, ⟨below, new⟩, across⟩ := before
      refine ⟨old, ⟨?_, new⟩, ?_⟩
      · intro d hd s hs
        obtain ⟨a, ha, dispute⟩ := below d hd s hs
        exact ⟨a, List.mem_append_left _ ha, dispute⟩
      · intro d hd e he
        rcases List.mem_cons.mp he with rfl | he
        · simp only [List.forall_mem_append, List.forall_mem_singleton]
          exact ⟨across d hd c List.mem_cons_self,
            disputes d (List.mem_append_left _ hd) (refused d hd)⟩
        · exact across d hd e (List.mem_cons_of_mem _ he)

/-- By induction on the reports that are still to come. -/
theorem foldl (h : FirstFit reports cs) {rs : List Report} (counted : ∀ r ∈ rs, r.isUsable = true) :
    FirstFit (reports ++ rs) (rs.foldl (fun cs r => Camp.place r cs) cs) := by
  induction rs generalizing reports cs with
  | nil => simpa using h
  | cons r rs ih =>
    obtain ⟨hr, hrs⟩ := List.forall_mem_cons.mp counted
    simpa using ih (h.place hr) hrs

end FirstFit

/-- The reports that count. -/
def usable (reports : List Report) : List Report := reports.filter Report.isUsable

/-- The reports that count and list these infos, in whatever order. -/
def reporters (reports : List Report) (infos : List BlockInfo) : List Report :=
  (usable reports).filter (·.infos.Perm infos)

variable {reports : List Report} {infos : List BlockInfo}

theorem firstFit_camps (reports : List Report) : FirstFit (usable reports) (camps reports) := by
  have counted : ∀ r ∈ usable reports, r.isUsable = true := fun r hr => (List.mem_filter.mp hr).2
  exact FirstFit.nil.foldl counted

theorem mem_reporters {r : Report} :
    r ∈ reporters reports infos ↔ r ∈ usable reports ∧ r.infos.Perm infos := by
  simp [reporters]

namespace FirstFit

variable {cs older newer : List Camp} {c : Camp}

/-- No two camps have reporters of one list: whichever of them is older, all of its members agree
with its own reporter and so had no reason to refuse the other. -/
theorem alone (h : FirstFit reports (older ++ c :: newer)) {r : Report} (hr : r ∈ c) :
    ∀ d ∈ older ++ newer, ∀ s ∈ d, ¬ s.infos.Perm r.infos := by
  intro d hd s hs same
  have refused := h.refused
  rw [List.pairwise_append, List.pairwise_cons] at refused
  obtain ⟨-, ⟨below, -⟩, across⟩ := refused
  rcases List.mem_append.mp hd with hd | hd
  · obtain ⟨a, ha, dispute⟩ := across d hd c List.mem_cons_self r hr
    have mates := h.agree d (List.mem_append_left _ hd) a ha s hs
    exact dispute (mates.of_perm_right same.symm)
  · obtain ⟨a, ha, dispute⟩ := below d hd s hs
    have mates := h.agree c (List.mem_append_right _ List.mem_cons_self) a ha r hr
    exact dispute (mates.of_perm_right same)

/-- All reporters of one list are in one camp. -/
theorem reporters_eq_filter (h : FirstFit (usable reports) (older ++ c :: newer)) {r : Report}
    (hr : r ∈ c) (lists : r.infos.Perm infos) :
    c.filter (·.infos.Perm infos) = reporters reports infos := by
  have nobody : ∀ ds : List Camp, (∀ d ∈ ds, d ∈ older ++ newer) →
      ds.flatten.filter (·.infos.Perm infos) = [] := by
    intro ds others
    rw [List.filter_eq_nil_iff]
    intro s hs
    obtain ⟨d, hd, member⟩ := List.mem_flatten.mp hs
    rw [decide_eq_true_eq]
    exact fun same => h.alone hr d (others d hd) s member (same.trans lists.symm)
  have total := h.everybody.filter (·.infos.Perm infos)
  rw [List.flatten_append, List.flatten_cons, List.filter_append, List.filter_append,
    nobody older fun d hd => List.mem_append_left _ hd,
    nobody newer fun d hd => List.mem_append_right _ hd, List.nil_append, List.append_nil] at total
  have within := h.arrival c (List.mem_append_right _ List.mem_cons_self)
  exact (within.filter _).eq_of_length total.length_eq

end FirstFit

theorem exists_camp (some_reporter : reporters reports infos ≠ []) :
    ∃ older c newer, camps reports = older ++ c :: newer ∧
      (reporters reports infos).Sublist c := by
  obtain ⟨r, hr⟩ := List.exists_mem_of_ne_nil _ some_reporter
  obtain ⟨counts, lists⟩ := mem_reporters.mp hr
  have fit := firstFit_camps reports
  obtain ⟨c, hc, member⟩ := List.mem_flatten.mp (fit.everybody.mem_iff.mpr counts)
  obtain ⟨older, newer, split⟩ := List.append_of_mem hc
  rw [split] at fit
  refine ⟨older, c, newer, split, ?_⟩
  rw [← fit.reporters_eq_filter member lists]
  exact List.filter_sublist

/-! ## The largest camp and its longest report -/

/-- A fold that keeps the better of what it has and what it meets ends with one of them, and with
none that is smaller than another, if better means larger or equally large. -/
theorem foldl_better {α : Type} (better : α → α → Prop) [DecidableRel better] {size : α → Nat}
    (larger : ∀ a b, better a b → size b ≤ size a) (total : ∀ a b, ¬ better a b → size a ≤ size b) :
    ∀ (l : List α) (best : α),
      l.foldl (fun best a => if better a best then a else best) best ∈ best :: l ∧
        ∀ a ∈ best :: l,
          size a ≤ size (l.foldl (fun best a => if better a best then a else best) best)
  | [], best => by simp
  | b :: l, best => by
    rw [List.foldl_cons, List.forall_mem_cons]
    split
    · rename_i improved
      obtain ⟨member, largest⟩ := foldl_better better larger total l b
      exact ⟨List.mem_cons_of_mem _ member,
        Nat.le_trans (larger b best improved) (largest b List.mem_cons_self), largest⟩
    · rename_i kept
      obtain ⟨member, largest⟩ := foldl_better better larger total l best
      obtain ⟨least, rest⟩ := List.forall_mem_cons.mp largest
      refine ⟨?_, least, List.forall_mem_cons.mpr ⟨Nat.le_trans (total b best kept) least, rest⟩⟩
      rcases List.mem_cons.mp member with same | member
      · rw [same]
        exact List.mem_cons_self
      · exact List.mem_cons_of_mem _ (List.mem_cons_of_mem _ member)

theorem Camp.beats_iff {c d : Camp} : c.beats d = true ↔
    d.length < c.length ∨ c.length = d.length ∧ d.strength < c.strength := by
  simp [Camp.beats]

theorem winner_largest {cs : List Camp} {m : Camp} (h : winner cs = some m) :
    m ∈ cs ∧ ∀ c ∈ cs, c.length ≤ m.length := by
  cases cs with
  | nil => cases h
  | cons c cs =>
    cases h
    refine foldl_better (fun d best : Camp => d.beats best = true) ?_ ?_ cs c
    · intro d best beaten
      rw [Camp.beats_iff] at beaten
      omega
    · intro d best unbeaten
      rw [Camp.beats_iff] at unbeaten
      omega

theorem Camp.longest_spec {c : Camp} {r : Report} (h : c.longest = some r) :
    r ∈ c ∧ ∀ a ∈ c, a.infos.length ≤ r.infos.length := by
  cases c with
  | nil => cases h
  | cons a rs =>
    cases h
    exact foldl_better (fun m best : Report => best.infos.length ≤ m.infos.length)
      (fun _ _ => id) (fun _ _ => Nat.le_of_not_le) rs a

theorem Camp.longest_isSome {c : Camp} (h : c ≠ []) : ∃ r, c.longest = some r := by
  cases c with
  | nil => exact absurd rfl h
  | cons a rs => exact ⟨_, rfl⟩

/-! ## The chosen view -/

/-- The camp behind a view that was chosen. -/
structure Stands (reports : List Report) (m : Camp) (view : View) : Prop where
  member : m ∈ camps reports
  arrival : m.Sublist (usable reports)
  agree : ∀ a ∈ m, ∀ b ∈ m, Agree a.infos b.infos
  nodes : view.nodes = m.map Report.node
  infos : ∃ r ∈ m, view.infos = BlockInfo.sort r.infos ∧ ∀ a ∈ m, a.infos.length ≤ r.infos.length
  /-- No list has more reporters than the camp has members. -/
  support : ∀ infos, (reporters reports infos).length ≤ m.length
  /-- If most of the reports that count give one list, those who do are in the camp. -/
  majority : ∀ infos, (usable reports).length < 2 * (reporters reports infos).length →
    (reporters reports infos).Sublist m

theorem exists_stands {view : View} (h : choose reports = some view) :
    ∃ m, Stands reports m view := by
  obtain ⟨m, hm, rfl⟩ := Option.map_eq_some_iff.mp h
  have fit := firstFit_camps reports
  obtain ⟨member, largest⟩ := winner_largest hm
  obtain ⟨r, hr⟩ := Camp.longest_isSome (fit.nonempty m member)
  obtain ⟨hr', longest⟩ := Camp.longest_spec hr
  refine ⟨m, member, fit.arrival m member, fit.agree m member, rfl, ⟨r, hr', ?_, longest⟩, ?_, ?_⟩
  · simp [Camp.view, View.ofInfos, hr]
  · intro infos
    by_cases nobody : reporters reports infos = []
    · simp [nobody]
    · obtain ⟨older, c, newer, split, within⟩ := exists_camp nobody
      have hc : c ∈ camps reports := by simp [split]
      exact Nat.le_trans within.length_le (largest c hc)
  · intro infos most
    have some_reporter : reporters reports infos ≠ [] := List.ne_nil_of_length_pos (by omega)
    obtain ⟨older, c, newer, split, within⟩ := exists_camp some_reporter
    -- two camps of that size would hold more reports than there are
    have total := fit.everybody.length_eq
    rw [split, List.flatten_append, List.flatten_cons, List.length_append, List.length_append]
      at total
    have size := largest c (by simp [split])
    have enough := within.length_le
    rw [split] at member
    rcases List.mem_append.mp member with older_camp | member
    · have := (List.sublist_flatten_of_mem older_camp).length_le
      omega
    · rcases List.mem_cons.mp member with rfl | newer_camp
      · exact within
      · have := (List.sublist_flatten_of_mem newer_camp).length_le
        omega

theorem mem_of_choose {reports : List Report} {view : View} (h : choose reports = some view)
    {i : BlockInfo} (hi : i ∈ view.infos) : ∃ report ∈ reports, i ∈ report.infos := by
  obtain ⟨m, stands⟩ := exists_stands h
  obtain ⟨report, hreport, sorted, -⟩ := stands.infos
  rw [sorted] at hi
  exact ⟨report, List.mem_of_mem_filter (stands.arrival.subset hreport), List.mem_mergeSort.mp hi⟩

/-- A chosen view counts positions up. -/
theorem consecutive_of_choose {view : View} (h : choose reports = some view) :
    view.infos ≠ [] ∧ ∃ p, Consecutive p view.infos := by
  obtain ⟨m, stands⟩ := exists_stands h
  obtain ⟨r, hr, sorted, -⟩ := stands.infos
  have counted := (List.mem_filter.mp (stands.arrival.subset hr)).2
  obtain ⟨some_info, contiguous⟩ := Report.isUsable_iff.mp counted
  have sorting : (BlockInfo.sort r.infos).Perm r.infos := List.mergeSort_perm _ _
  rw [sorted]
  exact ⟨fun none => some_info (List.nil_perm.mp (none ▸ sorting)), contiguous.consecutive_sort⟩

theorem choose_eq_none_iff :
    choose reports = none ↔ ∀ r ∈ reports, r.infos = [] ∨ ¬ Contiguous r.infos := by
  have fit := firstFit_camps reports
  have nobody : camps reports = [] ↔ usable reports = [] := by
    constructor
    · intro none
      simpa [none] using fit.everybody
    · intro none
      rw [camps, ← usable, none]
      rfl
  have unchosen : choose reports = none ↔ camps reports = [] := by
    rw [choose, Option.map_eq_none_iff]
    cases camps reports with
    | nil => simp [winner]
    | cons c cs => simp [winner]
  rw [unchosen, nobody, usable, List.filter_eq_nil_iff]
  refine forall₂_congr fun r _ => ?_
  rw [Report.isUsable_iff, not_and_or, not_not]

/-- **Majority selection.** There is no view exactly if every report is empty or not one run of
positions. Otherwise it stands for a camp of usable reports that agree: its nodes are their senders
in order of arrival, its infos those of a longest of them, which contradict none of them. Reporters
of one list are always in one camp, the camp that was chosen is at least as large as the number of
reporters of any list, and it holds the reporters of a list that most usable reports give. -/
theorem choose_stands_for_largest_camp (reports : List Report) :
    (choose reports = none ↔ ∀ r ∈ reports, r.infos = [] ∨ ¬ Contiguous r.infos) ∧
    (∀ view, choose reports = some view →
      ∃ m, Stands reports m view ∧ ∀ a ∈ m, Agree a.infos view.infos) ∧
    ∀ infos, reporters reports infos ≠ [] →
      ∃ c ∈ camps reports, (reporters reports infos).Sublist c := by
  refine ⟨choose_eq_none_iff, ?_, ?_⟩
  · intro view chosen
    obtain ⟨m, stands⟩ := exists_stands chosen
    obtain ⟨r, hr, sorted, -⟩ := stands.infos
    refine ⟨m, stands, fun a ha => ?_⟩
    rw [sorted]
    exact (stands.agree a ha r hr).of_perm_right (List.mergeSort_perm _ _)
  · intro infos some_reporter
    obtain ⟨older, c, newer, split, within⟩ := exists_camp some_reporter
    exact ⟨c, by simp [split], within⟩

/-- Two peers report one position, a third a longer list of others: the view is the third's. -/
theorem choose_stands_for_largest_camp_disjoint :
    let x : Label := ⟨"x", by decide⟩
    let y : Label := ⟨"y", by decide⟩
    let z : Label := ⟨"z", by decide⟩
    let reports : List Report := [⟨"a", [⟨5, x⟩]⟩, ⟨"b", [⟨5, x⟩]⟩, ⟨"c", [⟨8, z⟩, ⟨7, y⟩]⟩]
    let view : View := ⟨["a", "b", "c"], [⟨7, y⟩, ⟨8, z⟩]⟩
    choose reports = some view ∧
      ∃ m, Stands reports m view ∧ ∀ a ∈ m, Agree a.infos view.infos := by
  intro x y z reports view
  have chosen : choose reports = some view := by cbv
  exact ⟨chosen, (choose_stands_for_largest_camp reports).2.1 view chosen⟩

end ChainNode
