import ChainNode.Proofs.Reconcile.Commands
import ChainNode.Proofs.Reconcile.Convergence
import ChainNode.Proofs.Reconcile.Windows
import ChainNode.Proofs.View.Absorb
import ChainNode.Proofs.View.ForkPoint
import ChainNode.Proofs.View.Majority

/-!
# What a scan finds is grounded

Whatever peers report, what a scan makes of it was reported and fits together: the fork is a stored
block whose info came with some report, every missing info came with some report, and the missing
infos stand above the fork, each position once and in order. The views of different windows may
contradict each other: for a position in several of them, the window with the fork decides, and
after it the highest one.

* `Reported`: where infos come from; `Walk.grounded`: by induction on the windows.
* `scan_grounded`: the whole scan, which never touches the chain.
-/
namespace ChainNode.Reconcile

open Program

variable {σ : Type} {net : Network σ} {settings : SyncSettings} {c : Chain} {origin cursor : Nat}
  {before : Scanned} {windows : List Window}

/-- The info is in a report that was collected in one of the windows. -/
def Reported (windows : List Window) (i : BlockInfo) : Prop :=
  ∃ v ∈ windows, ∃ report ∈ v.reports, i ∈ report.infos

theorem Reported.further {i : BlockInfo} {v : Window} (h : Reported windows i) :
    Reported (v :: windows) i := by
  obtain ⟨v', member, reported⟩ := h
  exact ⟨v', List.mem_cons_of_mem _ member, reported⟩

theorem Window.reported {v : Window} {view : View} (seen : v.view = some view) {i : BlockInfo}
    (hi : i ∈ view.infos) : Reported (v :: windows) i := by
  obtain ⟨report, collected, given⟩ := mem_of_choose seen hi
  exact ⟨v, List.mem_cons_self, report, collected, given⟩

/-- What was seen in a window or before it. -/
theorem Window.Shows.views {v : Window} {after : Scanned}
    (shows : v.Shows c before (.ok (.inr after)))
    {i : BlockInfo} (hi : i ∈ after.views.infos) :
    i ∈ before.views.infos ∨ Reported (v :: windows) i := by
  cases shows with
  | apart seen => exact (View.mem_of_mem_absorb hi).imp_right fun hi => Window.reported seen hi
  | unseen => exact .inl hi

/-- A result that rests on stored blocks and on reports, or on what was seen before. -/
structure Grounded (c : Chain) (before : Scanned) (windows : List Window) (result : ScanResult) :
    Prop where
  fork : ∃ b, c.at? result.fork.toNat = some b ∧ b.position = result.fork ∧
    Reported windows b.info
  missing : ∀ i ∈ result.missing.infos, i ∈ before.views.infos ∨ Reported windows i
  above : ∀ i ∈ result.missing.infos, result.fork.toNat < i.height
  increasing : Increasing result.missing.infos

theorem Window.Shows.grounded {v : Window} {result : ScanResult} (valid : c.Valid)
    (genesis : c.first.height = 1) (shows : v.Shows c before (.ok (.inl result))) :
    Grounded c before [v] result := by
  cases shows with
  | @found view fork seen agrees =>
    obtain ⟨-, start, ordered⟩ := consecutive_of_choose seen
    -- what was seen before may contradict the view; the view goes first
    have union := View.increasing_absorb ordered.increasing.nodup_positions before.views
    refine ⟨?_, ?_, ?_, union.filter _⟩
    · have distinct := (valid.consecutive_span v.low v.length).increasing.nodup_positions
      obtain ⟨⟨i, rfl, both⟩, -⟩ := (forkPoint_eq_some_iff distinct).mp agrees
      obtain ⟨b, hb, rfl⟩ := List.mem_map.mp both.known
      exact ⟨b, valid.at?_of_mem genesis (Chain.mem_of_mem_range hb), rfl,
        Window.reported seen both.told⟩
    · intro i hi
      rcases View.mem_of_mem_absorb (List.mem_filter.mp hi).1 with hi | hi
      · exact .inr (Window.reported seen hi)
      · exact .inl hi
    · intro i hi
      have kept := (List.mem_filter.mp hi).2
      exact Nat.lt_of_succ_le (of_decide_eq_true kept)

/-- By induction on the windows. -/
theorem Walk.grounded {r : Except SyncError ScanResult} (valid : c.Valid)
    (genesis : c.first.height = 1) (walk : Walk settings c origin cursor before windows r) :
    ∀ result, r = .ok result → Grounded c before windows result := by
  induction walk with
  | failed | bottom => exact nofun
  | found here shows =>
    intro result same
    cases same
    exact shows.grounded valid genesis
  | further here shows higher rest ih =>
    intro result same
    obtain ⟨⟨b, stored, position, reported⟩, missing, above, increasing⟩ := ih result same
    refine ⟨⟨b, stored, position, reported.further⟩, fun i hi => ?_, above, increasing⟩
    rcases missing i hi with seen | reported
    · exact shows.views seen
    · exact .inr reported.further

/-! ## The chain is not touched -/

theorem looking_keeps_chain (net : Network σ) :
    Looking fun c => ∀ w : World σ, (c.exec net w).2.chain = w.chain where
  asks c asks w := by rw [World.chain, asks.exec net w]
  latestBlock w := (Store.reads_latestBlock w.node.store).1
  infosInRange position limit w := (Store.reads_infosInRange position limit w.node.store).1
  blockAt position w := (Store.reads_blockAt position w.node.store).1

theorem scan_keeps_chain (net : Network σ) (self : NodeId) (settings : SyncSettings)
    (origin : UInt64) (w : World σ) :
    Always net (fun w' => w'.chain = w.chain) (scan self settings origin) w :=
  .of_uses (fun _ w' keeps same => (keeps w').trans same)
    (scan_uses self settings (looking_keeps_chain net) origin) rfl

/-- **Soundness of a scan.** Against any network, on a valid chain that starts at position 1: a scan
never changes the chain, and it ends. The windows at which it has looked tile a range of positions
that ends where it began, and there are no more of them than it takes to cover all positions from
there downwards. If it finds something, the fork is the position of a stored block whose info was
reported, and the missing infos were reported, stand above the fork and strictly increase. -/
theorem scan_grounded (net : Network σ) (self : NodeId) (settings : SyncSettings) (origin : UInt64)
    {w : World σ} (valid : w.chain.Valid) (genesis : w.chain.first.height = 1) :
    Always net (fun w' => w'.chain = w.chain) (scan self settings origin) w ∧
      ∃ r w' windows, (scan self settings origin).run net w = (some r, w') ∧
        Descent settings (max origin.toNat 1) w windows r w' ∧
        ∀ found, r = .ok found →
          (∃ b, w.chain.at? found.fork.toNat = some b ∧ b.position = found.fork ∧
            Reported windows b.info) ∧
          (∀ i ∈ found.missing.infos, Reported windows i ∧ found.fork.toNat < i.height) ∧
          Increasing found.missing.infos := by
  refine ⟨scan_keeps_chain net self settings origin w, ?_⟩
  obtain ⟨r, w', windows, ran, descent, walk⟩ := scan_descends net self settings origin w
  refine ⟨r, w', windows, ran, descent, fun found is_found => ?_⟩
  have grounded := walk.grounded valid genesis found is_found
  refine ⟨grounded.fork, fun i hi => ⟨?_, grounded.above i hi⟩, grounded.increasing⟩
  rcases grounded.missing i hi with before | reported
  · cases before
  · exact reported

/-- A node with the genesis block only looks from position 5 downwards. The peer has a second block,
whose info is found missing above the genesis block. -/
theorem scan_grounded_second :
    let net := Solo.network "peer" .testing (by decide) (Chain.new.push Sample.second)
    let w : World Solo.Memory := ⟨.new "self" .testing .testing 50 (.ofChain .new) 0, .empty, []⟩
    w.chain.Valid ∧ w.chain.first.height = 1 ∧
      Always net (fun w' => w'.chain = w.chain) (scan "self" .testing 5) w ∧
      ∃ found w' windows, (scan "self" .testing 5).run net w = (some (.ok found), w') ∧
        Descent .testing 5 w windows (.ok found) w' ∧
        (∃ b, w.chain.at? 1 = some b ∧ b.position = found.fork ∧ Reported windows b.info) ∧
        ∃ i, found.missing.infos = [i] ∧ Reported windows i := by
  intro net w
  have peers := Solo.honest "peer" .testing (by decide) (Chain.new.push Sample.second)
    (show "peer" ≠ "self" by decide)
  have valid : w.chain.Valid := Chain.valid_start _
  obtain ⟨found, w₁, ran₁, hfound, -⟩ :=
    (scan_succeeds peers (by decide) (by decide) (by decide) forks_second
      (by decide : 1 ≤ (5 : UInt64).toNat) (w := w) rfl).run
  obtain ⟨kept, r, w', windows, ran, descent, grounded⟩ :=
    scan_grounded net "self" .testing 5 valid rfl
  cases ran₁.symm.trans ran
  obtain ⟨fork, missing, -⟩ := grounded found rfl
  have infos := (hfound.missing_eq forks_second.valid_right rfl (by decide) (by decide)).1
  rw [hfound.fork] at fork
  refine ⟨valid, rfl, kept, found, _, windows, ran, descent, fork, Sample.second.info, infos, ?_⟩
  exact (missing _ (by rw [infos]; exact List.mem_cons_self)).1

end ChainNode.Reconcile
