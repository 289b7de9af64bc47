import ChainNode.Proofs.Fanout
import ChainNode.Proofs.Node.Run
import ChainNode.Proofs.Reconcile.Windows
import ChainNode.Proofs.View.Unanimous

/-!
# When a scan reports divergence

A scan that finds no agreement goes down to the first position. What it reports then depends on all
its windows together: whether there was a view in any of them. So divergence means that somewhere
there was a view to compare with, which need not have been in the lowest window, where peers may
have said nothing.

* `Verdict`: what a scan ends with, told from its windows; `Walk.verdict`: and it does.
* `scan_verdict`: the errors of a scan, against any network.
* `telling`, `fetchInfos_telling`: a peer whose answers are given by a table, to write a run out.
* `scan_divergence_unseen`: divergence without a view of the first position.
-/
namespace ChainNode.Reconcile

open Program

variable {σ : Type} {net : Network σ} {settings : SyncSettings} {c : Chain} {origin cursor : Nat}
  {before : Scanned} {windows : List Window} {r : Except SyncError ScanResult}

/-- There is a view to compare the chain with, in one of the windows or from before. -/
def SomeView (before : Scanned) (windows : List Window) : Prop :=
  before.sawView = true ∨ ∃ v ∈ windows, v.view ≠ none

/-- No window shows an agreement. -/
def AllApart (c : Chain) (windows : List Window) : Prop := ∀ v ∈ windows, v.fork c = none

/-- What a scan of these windows ends with. -/
inductive Verdict (c : Chain) (origin : Nat) (before : Scanned) (windows : List Window) :
    Except SyncError ScanResult → Prop where
  | nobody : Verdict c origin before windows (.error .noActivePeers)
  | refused {cause : StoreError} (seen : SomeView before windows) :
      Verdict c origin before windows (.error (.store cause))
  | found {result : ScanResult} (agrees : ∃ v ∈ windows, v.fork c = some result.fork) :
      Verdict c origin before windows (.ok result)
  | diverged (seen : SomeView before windows) (apart : AllApart c windows)
      (bottom : ∃ v ∈ windows, v.low = 1) : Verdict c origin before windows (.error .divergence)
  | unseen (unseen : ¬ SomeView before windows) (bottom : ∃ v ∈ windows, v.low = 1) :
      Verdict c origin before windows (.error (.noPeerView origin))

theorem Window.fork_eq_none {v : Window} (unseen : v.view = none) : v.fork c = none := by
  rw [Window.fork, unseen, Option.bind_none]

theorem Window.fork_eq {v : Window} {view : View} (seen : v.view = some view) :
    v.fork c = forkPoint (c.span v.low v.length) view.infos := by
  rw [Window.fork, seen, Option.bind_some]

theorem Window.At.low_pos {v : Window} (here : v.At settings cursor) : 1 ≤ v.low := by
  rw [here.low]
  exact Nat.le_max_right ..

theorem someView_singleton {v : Window} :
    SomeView before [v] ↔ before.sawView = true ∨ v.view ≠ none := by
  simp [SomeView]

/-- A window from which a scan goes on shows no agreement, and what was seen is remembered. -/
theorem Window.Shows.on {v : Window} {after : Scanned}
    (shows : v.Shows c before (.ok (.inr after))) :
    v.fork c = none ∧ (after.sawView = true ↔ before.sawView = true ∨ v.view ≠ none) := by
  cases shows with
  | apart seen apart => exact ⟨by rw [fork_eq seen, apart], by simp [seen]⟩
  | unseen asked unseen => exact ⟨fork_eq_none unseen, by simp [unseen]⟩

theorem someView_cons {v : Window} {after : Scanned} (shows : v.Shows c before (.ok (.inr after))) :
    SomeView before (v :: windows) ↔ SomeView after windows := by
  simp [SomeView, shows.on.2, or_assoc]

/-- By induction on the windows: the verdict on those below is the verdict on all. -/
theorem Walk.verdict (walk : Walk settings c origin cursor before windows r) :
    Verdict c origin before windows r := by
  induction walk with
  | failed here shows =>
    cases shows with
    | nobody => exact .nobody
    | refused seen => exact .refused (someView_singleton.mpr (.inr (by simp [seen])))
  | @found cursor before v result here shows =>
    cases shows with
    | found seen agrees =>
      exact .found ⟨v, List.mem_singleton_self v, by rw [Window.fork_eq seen, agrees]⟩
  | @bottom cursor before after v here shows lowest =>
    obtain ⟨apart, remembered⟩ := shows.on
    have bottom : ∃ v' ∈ [v], v'.low = 1 :=
      ⟨v, List.mem_singleton_self v, Nat.le_antisymm lowest here.low_pos⟩
    split
    · rename_i seen
      exact .diverged (someView_singleton.mpr (remembered.mp seen))
        (List.forall_mem_singleton.mpr apart) bottom
    · rename_i unseen
      exact .unseen (fun seen => unseen (remembered.mpr (someView_singleton.mp seen))) bottom
  | @further cursor before after v windows r here shows higher rest ih =>
    have below : ∀ {P : Window → Prop}, (∃ v' ∈ windows, P v') → ∃ v' ∈ v :: windows, P v' :=
      fun ⟨v', member, holds⟩ => ⟨v', List.mem_cons_of_mem _ member, holds⟩
    cases ih with
    | nobody => exact .nobody
    | refused seen => exact .refused ((someView_cons shows).mpr seen)
    | found agrees => exact .found (below agrees)
    | diverged seen apart bottom =>
      exact .diverged ((someView_cons shows).mpr seen)
        (List.forall_mem_cons.mpr ⟨shows.on.1, apart⟩) (below bottom)
    | unseen unseen bottom => exact .unseen (mt (someView_cons shows).mp unseen) (below bottom)

/-- **Divergence of a scan.** Against any network a scan ends, and unless nobody is there to ask or
the store cannot be read, its windows decide how. It reports divergence only if they come down to
the first position, there was a view in one of them, and in none of them did the view agree anywhere
with the chain; and it reports that there is no view, naming where it began, if and only if there
was a view in none of them. -/
theorem scan_verdict (net : Network σ) (self : NodeId) (settings : SyncSettings) (origin : UInt64)
    (w : World σ) :
    ∃ r w' windows, (scan self settings origin).run net w = (some r, w') ∧
      Descent settings (max origin.toNat 1) w windows r w' ∧
      (r = .error .divergence → (∃ v ∈ windows, v.low = 1) ∧ (∃ v ∈ windows, v.view ≠ none) ∧
        ∀ v ∈ windows, v.fork w.chain = none) ∧
      (r ≠ .error .noActivePeers → (∀ cause, r ≠ .error (.store cause)) →
        ((∃ position, r = .error (.noPeerView position)) ↔ ∀ v ∈ windows, v.view = none)) ∧
      ∀ position, r = .error (.noPeerView position) → position = origin.toNat := by
  obtain ⟨r, w', windows, ran, descent, walk⟩ := scan_descends net self settings origin w
  have some_view : SomeView ⟨false, .empty⟩ windows ↔ ∃ v ∈ windows, v.view ≠ none := by
    simp [SomeView]
  refine ⟨r, w', windows, ran, descent, ?_⟩
  cases walk.verdict with
  | nobody => exact ⟨nofun, fun other => absurd rfl other, nofun⟩
  | refused => exact ⟨nofun, fun _ other => absurd rfl (other _), nofun⟩
  | found agrees =>
    obtain ⟨v, member, agrees⟩ := agrees
    refine ⟨nofun, fun _ _ => ⟨nofun, fun none_seen => ?_⟩, nofun⟩
    rw [Window.fork_eq_none (none_seen v member)] at agrees
    cases agrees
  | diverged seen apart bottom =>
    obtain ⟨v, member, seen⟩ := some_view.mp seen
    refine ⟨fun _ => ⟨bottom, ⟨v, member, seen⟩, apart⟩,
      fun _ _ => ⟨nofun, fun none_seen => ?_⟩, nofun⟩
    exact absurd (none_seen v member) seen
  | unseen unseen =>
    refine ⟨nofun, fun _ _ => ⟨fun _ => ?_, fun _ => ⟨_, rfl⟩⟩, ?_⟩
    · intro v member
      by_contra seen
      exact unseen (some_view.mpr ⟨v, member, seen⟩)
    · intro position same
      cases same
      rfl

/-! ## Silence below a view -/

/-- A single peer that answers requests for infos by a table, and fails where it has no entry. -/
def telling (peer : NodeId) (tell : UInt64 → Option (List BlockInfo)) : Network Unit where
  members _ := [peer]
  shuffle ids s := (ids, s)
  newId s := (.numbered 0, s)
  latency _ _ _ := 0
  handle
    | id, .infoRequest q, s =>
      match tell q.start with
      | some infos => (.ok (.infos ⟨q.start, infos, q.start, true, peer⟩), s)
      | none => (.error (.peerRequest id "no answer"), s)
    | id, _, s => (.error (.peerRequest id "no answer"), s)
  broadcast _ _ s := (.ok (), s)
  meanwhile n s := (n, s)

/-- One position after the other, and nothing is asked twice. -/
def stepwise : SyncSettings := { SyncSettings.testing with scanWindow := 1, maxFetchRetries := 0 }

/-- The round in which the peer tells. -/
def told (tell : UInt64 → Option (List BlockInfo)) (start : UInt64) (size : UInt32) : Event :=
  .asked [("peer", .infoRequest (infoRequest stepwise (.numbered 0) start size))]
    ((tell start).toList.map fun infos => ("peer", .infos ⟨start, infos, start, true, "peer"⟩)) 0

theorem roundOn_told (tell : UInt64 → Option (List BlockInfo)) (start : UInt64) (size : UInt32) :
    RoundOn start size (told tell start size) :=
  @RoundOn.asked _ _ (infoRequest stepwise (.numbered 0) start size) ["peer"] _ _ rfl rfl
    (List.cons_ne_nil _ _)

theorem fetchInfos_telling (tell : UInt64 → Option (List BlockInfo)) (start : UInt64)
    (size : UInt32) (w : World Unit) :
    (fetchInfos "self" stepwise start size).run (telling "peer" tell) w =
      (some (.ok ((tell start).toList.map fun infos => ⟨"peer", infos⟩)),
        w.note (told tell start size)) := by
  let q := infoRequest stepwise (.numbered 0) start size
  have round : w.round (telling "peer" tell) ⟨500, [("peer", .infoRequest q)], readInfos⟩ =
      ((tell start).toList.map fun infos => ⟨"peer", infos⟩, w.note (told tell start size)) := by
    unfold World.round
    simp only [List.map_cons, List.map_nil, Fanout.fetch_singleton, told]
    cases h : tell start with
    | none => simp [Fanout.gather, telling, World.serve, q, infoRequest, h]
    | some infos => simp [Fanout.gather, telling, World.serve, q, infoRequest, readInfos, h]
  have chosen : (askers "self" q).run (telling "peer" tell) w = (some (.ok ["peer"]), w) := rfl
  have once : (askInfos "self" stepwise 0 q).run (telling "peer" tell) w =
      (some (.ok ((tell start).toList.map fun infos => ⟨"peer", infos⟩)),
        w.note (told tell start size)) := by
    rw [askInfos, bind_eq, run_bind, chosen]
    simp only [List.isEmpty_cons, Bool.false_eq_true, if_false, bind_eq, run_bind, run_command]
    split <;> exact congrArg (fun ended => (some (Except.ok ended.1), ended.2)) round
  exact once

-- A scan recurses on a cursor, not on data, so a run is not unfolded by computing. It is taken
-- apart window by window.
section

variable {w w' : World σ} {self : NodeId} {after : Scanned} (cursor : Nat)
  (ran : (scanWindow self settings (windowStart settings cursor)
    (cursor + 1 - windowStart settings cursor) before).run net w = (some (.ok (.inr after)), w'))

include ran

theorem run_scanFrom_on (higher : ¬ windowStart settings cursor ≤ 1) :
    (scanFrom self settings origin cursor before).run net w =
      (scanFrom self settings origin (windowStart settings cursor - 1) after).run net w' := by
  rw [scanFrom, bind_eq, run_bind, ran]
  simp only
  rw [dif_neg higher]

theorem run_scanFrom_bottom (lowest : windowStart settings cursor ≤ 1) :
    (scanFrom self settings origin cursor before).run net w =
      (some (.error (if after.sawView then .divergence else .noPeerView origin)), w') := by
  rw [scanFrom, bind_eq, run_bind, ran]
  simp only
  rw [dif_pos lowest]
  rfl

end

/-- A peer of which little is left: it reports on position 2, and on nothing else. -/
def scrap (start : UInt64) : Option (List BlockInfo) :=
  if start = 2 then some [⟨2, .ofString "x"⟩] else none

/-- The window of a single position. -/
def single (position : Nat) : Window :=
  ⟨position, position, [told scrap (.ofNat position) (word32 (1 + stepwise.batchSize.toNat))]⟩

/-- Divergence although the window that starts at position 1 has no view: the view was that of the
window above, and the chain has nothing there to compare it with. -/
theorem scan_divergence_unseen :
    let net := telling "peer" scrap
    let w : World Unit := ⟨Node.new "self" .testing stepwise 50 (.ofChain .new) 0, (), []⟩
    ∃ w' upper lower, (scan "self" stepwise 2).run net w = (some (.error .divergence), w') ∧
      Descent stepwise 2 w [upper, lower] (.error .divergence) w' ∧ lower.low = 1 ∧
        lower.view = none := by
  intro net w
  let size := windowRequest stepwise 1
  let w₁ := w.note (told scrap (.ofNat 2) size)
  let w₂ := w₁.note (told scrap (.ofNat 1) size)
  let seen : Scanned := ⟨true, View.empty.absorb ⟨["peer"], [⟨2, .ofString "x"⟩]⟩⟩
  have first : (scanWindow "self" stepwise 2 1 ⟨false, .empty⟩).run net w =
      (some (.ok (.inr seen)), w₁) := by
    have alone : Unanimous ["peer"] [⟨2, .ofString "x"⟩] [⟨"peer", [⟨2, .ofString "x"⟩]⟩] :=
      ⟨by simp, by simp, by simp⟩
    have chosen : choose [⟨"peer", [⟨2, .ofString "x"⟩]⟩] = some ⟨["peer"], [⟨2, .ofString "x"⟩]⟩ :=
      alone.choose_eq (p := 2) rfl (List.cons_ne_nil _ _)
    have apart : forkPoint (Chain.new.span 2 1) [⟨2, .ofString "x"⟩] = none := by
      unfold forkPoint BlockInfo.sort
      rw [List.mergeSort_singleton]
      rfl
    have asked : (fetchInfos "self" stepwise (.ofNat 2) size).run net w =
        (some (.ok [⟨"peer", [⟨2, .ofString "x"⟩]⟩]), w₁) :=
      fetchInfos_telling scrap (.ofNat 2) size w
    rw [scanWindow, bind_eq, run_bind, asked]
    simp only [chosen]
    rw [bind_eq, run_bind, run_infosInRange rfl]
    simp only [apart]
    rfl
  have second : (scanWindow "self" stepwise 1 1 seen).run net w₁ =
      (some (.ok (.inr seen)), w₂) := by
    have asked : (fetchInfos "self" stepwise (.ofNat 1) size).run net w₁ = (some (.ok []), w₂) :=
      fetchInfos_telling scrap (.ofNat 1) size w₁
    rw [scanWindow, bind_eq, run_bind, asked]
    rfl
  have down : (scanFrom "self" stepwise 2 2 ⟨false, .empty⟩).run net w =
      (scanFrom "self" stepwise 2 1 seen).run net w₁ := run_scanFrom_on 2 first (by decide)
  have bottom : (scanFrom "self" stepwise 2 1 seen).run net w₁ = (some (.error .divergence), w₂) :=
    run_scanFrom_bottom 1 second (by decide)
  have here : ∀ v ∈ [single 2, single 1], v.At stepwise v.high := by
    refine List.forall_mem_cons.mpr ⟨?_, List.forall_mem_singleton.mpr ?_⟩
    · exact ⟨rfl, rfl, List.forall_mem_singleton.mpr (roundOn_told ..), by decide⟩
    · exact ⟨rfl, rfl, List.forall_mem_singleton.mpr (roundOn_told ..), by decide⟩
  have heard : ∀ v ∈ [single 2, single 1], v.rounds ≠ [] :=
    List.forall_mem_cons.mpr ⟨List.cons_ne_nil _ _,
      List.forall_mem_singleton.mpr (List.cons_ne_nil _ _)⟩
  exact ⟨w₂, single 2, single 1, down.trans bottom,
    ⟨⟨rfl, rfl, rfl⟩, here, fun _ => heard, ⟨1, by decide, by decide, by decide⟩, by decide⟩,
    rfl, rfl⟩

end ChainNode.Reconcile
