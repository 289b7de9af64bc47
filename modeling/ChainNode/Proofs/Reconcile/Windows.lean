import ChainNode.Proofs.Node.Keeps
import ChainNode.Proofs.Reconcile.Ask
import ChainNode.Reconcile.Scan

/-!
# The windows of a scan

A scan is told as the list of windows at which it looks, from the highest one downwards. Nothing is
assumed about peers or about the faults of the store. A window brings its rounds with it, as they
were noted, and what counts of them is what the last one has collected. So the windows say all that
was asked for, and what the scan makes of it is determined by them and by the chain.

* `Window.Shows`: what one window may come to; `scanWindow_shows`: and it does.
* `Walk`: what a scan makes of its windows; `scanFrom_walks`: every run is such a walk.
* `Walk.tiles`, `Walk.length_le`: the windows tile a range without gap, and they are few.
* `scan_descends`: the whole scan.
-/
namespace ChainNode

variable {σ ε α : Type}

/-- The node has looked at the network and at its store, and these events were noted. -/
structure World.Looked (w : World σ) (new : List Event) (w' : World σ) : Prop where
  node : w'.node = { w.node with store := w'.node.store }
  chain : w'.chain = w.chain
  events : w'.events = new ++ w.events

theorem World.Looked.trans {w w' w'' : World σ} {new new' : List Event} (h : w.Looked new w')
    (h' : w'.Looked new' w'') : w.Looked (new' ++ new) w'' where
  node := by rw [h'.node, h.node]
  chain := h'.chain.trans h.chain
  events := by rw [h'.events, h.events, List.append_assoc]

/-- A store that refuses to be read ends the program. -/
theorem Program.Ensures.read (net : Network σ) (wrap : StoreError → ε) {op : Store.Op α}
    {view : Chain → α} (reads : Store.Reads view op) (w : World σ) :
    Ensures net (fun r w' => w.Looked [] w' ∧
        (r = .ok (view w.chain) ∨ ∃ cause, r = .error (wrap cause)))
      (Program.store wrap op) w := by
  obtain ⟨same, result⟩ := reads w.node.store
  refine ⟨⟨rfl, same, rfl⟩, ?_⟩
  show (op w.node.store).1.mapError wrap = _ ∨ ∃ cause, (op w.node.store).1.mapError wrap = _
  cases r : (op w.node.store).1 with
  | ok a => exact .inl (congrArg Except.ok (result a r))
  | error cause => exact .inr ⟨cause, rfl⟩

namespace Reconcile

open Program

/-! ## One window -/

/-- A window of positions, and the rounds in which it was asked for, newest first. -/
structure Window where
  low : Nat
  high : Nat
  rounds : List Event

namespace Window

def length (v : Window) : Nat := v.high + 1 - v.low

/-- From the highest one downwards. -/
def positions (v : Window) : List Nat := (List.range' v.low v.length).reverse

/-- What was collected in the last round. -/
def reports (v : Window) : List Report := (v.rounds.head?.map reportsOf).getD []

def view (v : Window) : Option View := choose v.reports

/-- Where the window's view, if there is one, and a chain last agree. -/
def fork (c : Chain) (v : Window) : Option UInt64 :=
  v.view.bind fun view => forkPoint (c.span v.low v.length) view.infos

/-- It is the window that ends at `cursor`, and it was asked for together with a batch above it. -/
structure At (settings : SyncSettings) (cursor : Nat) (v : Window) : Prop where
  high : v.high = cursor
  low : v.low = windowStart settings cursor
  asked : ∀ e ∈ v.rounds, RoundOn (UInt64.ofNat v.low)
    (windowRequest settings v.length) e
  few : v.rounds.length ≤ settings.maxFetchRetries.toNat + 1

/-- What looking at a window comes to, for a node that has the chain `c` and has seen some windows
before. -/
inductive Shows (c : Chain) (before : Scanned) (v : Window) :
    Except SyncError (ScanResult ⊕ Scanned) → Prop where
  | nobody : Shows c before v (.error .noActivePeers)
  /-- There is a view, but the store cannot be read. -/
  | refused {cause : StoreError} {view : View} (seen : v.view = some view) :
      Shows c before v (.error (.store cause))
  | found {view : View} {fork : UInt64} (seen : v.view = some view)
      (agrees : forkPoint (c.span v.low v.length) view.infos = some fork) :
      Shows c before v
        (.ok (.inl ⟨fork, (view.absorb before.views).retainFrom (fork.toNat + 1)⟩))
  | apart {view : View} (seen : v.view = some view)
      (apart : forkPoint (c.span v.low v.length) view.infos = none) :
      Shows c before v (.ok (.inr ⟨true, before.views.absorb view⟩))
  | unseen (asked : v.rounds ≠ []) (unseen : v.view = none) : Shows c before v (.ok (.inr before))

/-- Nothing comes of a window that nobody was asked for. -/
theorem rounds_ne_nil_of_view {v : Window} {view : View} (seen : v.view = some view) :
    v.rounds ≠ [] := by
  intro nobody
  have none_seen : v.view = none := by
    rw [Window.view, reports, nobody]
    rfl
  rw [none_seen] at seen
  cases seen

theorem Shows.heard {c : Chain} {before : Scanned} {v : Window}
    {found : Except SyncError (ScanResult ⊕ Scanned)} (shows : v.Shows c before found)
    (somebody : found ≠ .error .noActivePeers) : v.rounds ≠ [] := by
  cases shows with
  | nobody => exact absurd rfl somebody
  | refused seen | found seen | apart seen => exact rounds_ne_nil_of_view seen
  | unseen asked => exact asked

end Window

variable {net : Network σ} {self : NodeId} {settings : SyncSettings}

theorem scanWindow_shows (low high : Nat) (before : Scanned) (w : World σ) :
    Ensures net (fun r w' => ∃ v : Window, v.low = low ∧ v.high = high ∧
        w.Looked v.rounds w' ∧
        (∀ e ∈ v.rounds, RoundOn (UInt64.ofNat v.low)
          (windowRequest settings v.length) e) ∧
        v.rounds.length ≤ settings.maxFetchRetries.toNat + 1 ∧ v.Shows w.chain before r)
      (scanWindow self settings low (high + 1 - low) before) w := by
  unfold scanWindow
  refine (fetchInfos_inquired _ _ w).bind ?_ ?_
  · intro reports w₁ ended
    obtain ⟨rounds, inquired⟩ := ended
    have looked : w.Looked rounds w₁ :=
      ⟨by rw [inquired.node], by rw [World.chain, inquired.node], inquired.events⟩
    have collected : (⟨low, high, rounds⟩ : Window).reports = reports := by
      obtain ⟨last, earlier, rfl, rfl⟩ := inquired.collected
      rfl
    cases chosen : choose reports with
    | none =>
      refine ⟨⟨low, high, rounds⟩, rfl, rfl, looked, inquired.asked, inquired.few, .unseen ?_ ?_⟩
      · obtain ⟨last, earlier, rfl, -⟩ := inquired.collected
        exact List.cons_ne_nil _ _
      · rw [Window.view, collected, chosen]
    | some view =>
      have seen : (⟨low, high, rounds⟩ : Window).view = some view := by
        rw [Window.view, collected, chosen]
      refine (Ensures.read net _ (Store.reads_infosInRange _ _) w₁).bind ?_ ?_
      · intro stored w₂ ended
        obtain ⟨looked₂, same | ⟨_, failed⟩⟩ := ended
        · cases same
          rw [looked.chain, ← Chain.span]
          have looked' : w.Looked rounds w₂ := looked.trans looked₂
          cases agrees : forkPoint (w.chain.span low (high + 1 - low)) view.infos with
          | none =>
            exact ⟨_, rfl, rfl, looked', inquired.asked, inquired.few, .apart seen agrees⟩
          | some fork =>
            exact ⟨_, rfl, rfl, looked', inquired.asked, inquired.few, .found seen agrees⟩
        · cases failed
      · intro e w₂ ended
        obtain ⟨looked₂, same | ⟨cause, failed⟩⟩ := ended
        · cases same
        · cases failed
          exact ⟨_, rfl, rfl, looked.trans looked₂, inquired.asked, inquired.few, .refused seen⟩
  · intro e w₁ ended
    obtain ⟨rounds, inquired⟩ := ended
    cases inquired.collected
    refine ⟨⟨low, high, rounds⟩, rfl, rfl, ⟨?_, ?_, inquired.events⟩, inquired.asked,
      inquired.few, .nobody⟩
    · rw [inquired.node]
    · rw [World.chain, inquired.node]

/-! ## All windows -/

/-- Where a window begins, which is full unless it begins at position 1. -/
theorem windowStart_bounds (settings : SyncSettings) {cursor : Nat} (h : 1 ≤ cursor) :
    1 ≤ windowStart settings cursor ∧ windowStart settings cursor ≤ cursor ∧
      cursor + 1 - windowStart settings cursor ≤ max settings.scanWindow 1 ∧
      (1 < windowStart settings cursor →
        windowStart settings cursor = cursor + 1 - max settings.scanWindow 1) := by
  unfold windowStart
  omega

/-- How a scan goes on from a cursor when it has seen some windows before: the windows at which it
looks, and what it ends with. -/
inductive Walk (settings : SyncSettings) (c : Chain) (origin : Nat) :
    Nat → Scanned → List Window → Except SyncError ScanResult → Prop where
  | failed {cursor : Nat} {before : Scanned} {v : Window} {e : SyncError}
      (here : v.At settings cursor) (shows : v.Shows c before (.error e)) :
      Walk settings c origin cursor before [v] (.error e)
  | found {cursor : Nat} {before : Scanned} {v : Window} {result : ScanResult}
      (here : v.At settings cursor) (shows : v.Shows c before (.ok (.inl result))) :
      Walk settings c origin cursor before [v] (.ok result)
  /-- There is no window below this one. -/
  | bottom {cursor : Nat} {before after : Scanned} {v : Window} (here : v.At settings cursor)
      (shows : v.Shows c before (.ok (.inr after))) (lowest : v.low ≤ 1) :
      Walk settings c origin cursor before [v]
        (.error (if after.sawView then .divergence else .noPeerView origin))
  | further {cursor : Nat} {before after : Scanned} {v : Window} {windows : List Window}
      {r : Except SyncError ScanResult} (here : v.At settings cursor)
      (shows : v.Shows c before (.ok (.inr after))) (higher : 1 < v.low)
      (rest : Walk settings c origin (v.low - 1) after windows r) :
      Walk settings c origin cursor before (v :: windows) r

/-- What was noted while one window after the other was looked at. -/
def noted (windows : List Window) : List Event := windows.reverse.flatMap Window.rounds

theorem noted_cons (v : Window) (windows : List Window) :
    noted (v :: windows) = noted windows ++ v.rounds := by
  simp [noted]

theorem noted_singleton (v : Window) : noted [v] = v.rounds := by simp [noted]

theorem scanFrom_walks (origin cursor : Nat) (before : Scanned) (w : World σ) :
    Ensures net (fun r w' => ∃ windows, w.Looked (noted windows) w' ∧
        Walk settings w.chain origin cursor before windows r)
      (scanFrom self settings origin cursor before) w := by
  rw [scanFrom]
  refine (scanWindow_shows (windowStart settings cursor) cursor before w).bind ?_ ?_
  · intro found w₁ ended
    obtain ⟨v, low, high, looked, asked, few, shows⟩ := ended
    have here : v.At settings cursor := ⟨high, low, asked, few⟩
    cases found with
    | inl result =>
      exact ⟨[v], by rwa [noted_singleton], .found here shows⟩
    | inr after =>
      simp only
      split
      · rename_i lowest
        exact ⟨[v], by rwa [noted_singleton], .bottom here shows (low ▸ lowest)⟩
      · rename_i higher
        refine Ensures.mono ?_
          (scanFrom_walks origin (windowStart settings cursor - 1) after w₁)
        intro r w₂ rest
        obtain ⟨windows, looked', walk⟩ := rest
        rw [looked.chain, ← low] at walk
        refine ⟨v :: windows, ?_, .further here shows (by omega) walk⟩
        rw [noted_cons]
        exact looked.trans looked'
  · intro e w₁ ended
    obtain ⟨v, low, high, looked, asked, few, shows⟩ := ended
    exact ⟨[v], by rwa [noted_singleton], .failed ⟨high, low, asked, few⟩ shows⟩
termination_by cursor
decreasing_by exact windowStart_le settings (by assumption)

namespace Walk

variable {c : Chain} {origin cursor : Nat} {before : Scanned} {windows : List Window}
  {r : Except SyncError ScanResult}

theorem at_high (walk : Walk settings c origin cursor before windows r) :
    ∀ v ∈ windows, v.At settings v.high := by
  induction walk with
  | failed here | found here | bottom here => simpa using here.high ▸ here
  | further here _ _ _ ih => exact List.forall_mem_cons.mpr ⟨here.high ▸ here, ih⟩

/-- Somebody was asked for every window, or the scan has ended with there being nobody. -/
theorem heard (walk : Walk settings c origin cursor before windows r)
    (somebody : r ≠ .error .noActivePeers) : ∀ v ∈ windows, v.rounds ≠ [] := by
  induction walk with
  | failed here shows =>
    exact List.forall_mem_singleton.mpr (shows.heard fun same => somebody (by cases same; rfl))
  | found here shows | bottom here shows =>
    exact List.forall_mem_singleton.mpr (shows.heard (by simp))
  | further here shows higher rest ih =>
    exact List.forall_mem_cons.mpr ⟨shows.heard (by simp), ih somebody⟩

/-- The windows, one after the other, are a range of positions read downwards. -/
theorem tiles (walk : Walk settings c origin cursor before windows r) (h : 1 ≤ cursor) :
    ∃ bottom, 1 ≤ bottom ∧ bottom ≤ cursor ∧
      windows.flatMap Window.positions = (List.range' bottom (cursor + 1 - bottom)).reverse := by
  have single : ∀ {cursor : Nat} {v : Window}, v.At settings cursor → 1 ≤ cursor →
      ∃ bottom, 1 ≤ bottom ∧ bottom ≤ cursor ∧
        [v].flatMap Window.positions = (List.range' bottom (cursor + 1 - bottom)).reverse := by
    intro cursor v here h
    obtain ⟨low, le, -, -⟩ := windowStart_bounds settings h
    refine ⟨v.low, by rwa [here.low], by rwa [here.low], ?_⟩
    simp [Window.positions, Window.length, here.high]
  induction walk with
  | failed here | found here | bottom here => exact single here h
  | @further cursor before after v windows r here shows higher rest ih =>
    obtain ⟨-, le, -, -⟩ := windowStart_bounds settings h
    rw [← here.low] at le
    obtain ⟨bottom, positive, below, positions⟩ := ih (by omega)
    refine ⟨bottom, positive, by omega, ?_⟩
    have lower : bottom + (v.low - bottom) = v.low := by omega
    rw [List.flatMap_cons, positions, Window.positions, Window.length, here.high,
      Nat.sub_add_cancel (by omega : 1 ≤ v.low), ← List.reverse_append,
      show cursor + 1 - bottom = (v.low - bottom) + (cursor + 1 - v.low) by omega,
      ← List.range'_append_1, lower]

/-- All windows but the last one are full. -/
theorem length_lt (walk : Walk settings c origin cursor before windows r) (h : 1 ≤ cursor) :
    (windows.length - 1) * max settings.scanWindow 1 < cursor ∧ 1 ≤ windows.length := by
  induction walk with
  | failed | found | bottom =>
    simp only [List.length_singleton, Nat.sub_self, Nat.zero_mul]
    omega
  | @further cursor before after v windows r here shows higher rest ih =>
    obtain ⟨-, le, -, full⟩ := windowStart_bounds settings h
    rw [← here.low] at le full
    -- there is a window below, so this one is full
    have next := full higher
    obtain ⟨fewer, some_window⟩ := ih (by omega)
    have one_more : windows.length = windows.length - 1 + 1 := by omega
    rw [List.length_cons, Nat.add_sub_cancel, one_more, Nat.succ_mul]
    omega

theorem length_le (walk : Walk settings c origin cursor before windows r) (h : 1 ≤ cursor) :
    windows.length ≤ (cursor + (max settings.scanWindow 1 - 1)) / max settings.scanWindow 1 := by
  obtain ⟨fewer, some_window⟩ := walk.length_lt h
  have one_more : windows.length = windows.length - 1 + 1 := by omega
  rw [Nat.le_div_iff_mul_le (by omega), one_more, Nat.succ_mul]
  omega

end Walk

/-- The windows at which a scan has looked that began at a position. They are asked for as settings
say, each of them unless nobody was there, they tile a range of positions that ends there, and there
are no more of them than fit. -/
structure Descent (settings : SyncSettings) (top : Nat) (w : World σ) (windows : List Window)
    (r : Except SyncError ScanResult) (w' : World σ) : Prop where
  looked : w.Looked (noted windows) w'
  asked : ∀ v ∈ windows, v.At settings v.high
  heard : r ≠ .error .noActivePeers → ∀ v ∈ windows, v.rounds ≠ []
  tiles : ∃ bottom, 1 ≤ bottom ∧ bottom ≤ top ∧
    windows.flatMap Window.positions = (List.range' bottom (top + 1 - bottom)).reverse
  few : windows.length ≤ (top + (max settings.scanWindow 1 - 1)) / max settings.scanWindow 1

theorem scan_descends (net : Network σ) (self : NodeId) (settings : SyncSettings)
    (origin : UInt64) (w : World σ) :
    ∃ r w' windows, (scan self settings origin).run net w = (some r, w') ∧
      Descent settings (max origin.toNat 1) w windows r w' ∧
      Walk settings w.chain origin.toNat (max origin.toNat 1) ⟨false, .empty⟩ windows r := by
  have positive : 1 ≤ max origin.toNat 1 := Nat.le_max_right ..
  have walks : Ensures net (fun r w' => ∃ windows, w.Looked (noted windows) w' ∧
      Walk settings w.chain origin.toNat (max origin.toNat 1) ⟨false, .empty⟩ windows r)
      (scan self settings origin) w := scanFrom_walks ..
  obtain ⟨r, w', ran, windows, looked, walk⟩ := walks.run
  exact ⟨r, w', windows, ran,
    ⟨looked, walk.at_high, walk.heard, walk.tiles positive, walk.length_le positive⟩, walk⟩

end Reconcile

end ChainNode
