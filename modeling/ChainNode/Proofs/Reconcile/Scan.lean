import ChainNode.Proofs.Chain.Fork
import ChainNode.Proofs.Node.Run
import ChainNode.Proofs.Reconcile.AskHonest
import ChainNode.Proofs.Reconcile.Windows
import ChainNode.Proofs.View.Absorb
import ChainNode.Proofs.View.ForkPoint

/-!
# Scanning against honest peers

`x` is the node's chain, `h` that of the peers, and they fork at `n`. A window that lies above `n`
has no info that is on both chains; the window that holds `n` shows agreement up to `n` and no
further. A scan that begins at a position `top` below `n` stays in its first window, which shows
agreement up to `top`. What the windows above have shown is always one range of `h` that begins just
above the cursor and ends a batch above `top`; so what is found missing is the range of `h` from
just above the fork to there.

* `forkPoint_within`, `forkPoint_above`: what one window shows.
* `absorb_span`, `retainFrom_span`: how ranges of `h` are put together.
* `SeenAbove.absorb`, `SeenAbove.found`: what a window adds to those above it.
* `scanFrom_succeeds`, `scan_succeeds`: a scan from any position.
-/
namespace ChainNode.Reconcile

open Program

variable {σ : Type} {x h : Chain} {n : Nat}

/-! ## One window -/

section

variable (fork : Chain.Forks x h n) {s len : Nat} (hs : 1 ≤ s)

include fork hs

theorem height_le_of_agreesOn {len size : Nat} {i : BlockInfo}
    (agrees : AgreesOn (x.span s len) (h.span s size) i) : i.height ≤ n ∧ i.height < s + len := by
  obtain ⟨stored, -, high⟩ := (fork.valid_left.mem_span fork.genesis_left hs len).mp agrees.known
  obtain ⟨told, -, -⟩ := (fork.valid_right.mem_span fork.genesis hs size).mp agrees.told
  by_cases above : n < i.height
  · exact absurd stored (fork.not_mem told above)
  · exact ⟨by omega, high⟩

/-- What the peers' chain has up to the fork is stored, and so it is agreed on. -/
theorem agreesOn_span {len size : Nat} {i : BlockInfo} (hi : i ∈ h.infos) (low : s ≤ i.height)
    (below : i.height ≤ n) (high : i.height < s + len) (wide : len ≤ size) :
    AgreesOn (x.span s len) (h.span s size) i := by
  have stored : ∀ j ∈ h.infos, s ≤ j.height → j.height ≤ i.height → j ∈ x.span s len :=
    fun j hj low' upTo => (fork.valid_left.mem_span fork.genesis_left hs len).mpr
      ⟨fork.mem hj (by omega), low', by omega⟩
  have distinct := (fork.valid_left.consecutive_span s len).increasing.nodup_positions
  refine ⟨stored i hi low (Nat.le_refl _), ?_, fun j hj upTo => ?_⟩
  · exact (fork.valid_right.mem_span fork.genesis hs size).mpr ⟨hi, low, by omega⟩
  · obtain ⟨known, low', -⟩ := (fork.valid_right.mem_span fork.genesis hs size).mp hj
    exact not_contradicts_of_mem distinct
      (stored j known low' (BlockInfo.height_le_of_le upTo))

/-- The window that holds the fork, or lies below it: agreement up to the fork or the window's end.
-/
theorem forkPoint_within {m : Nat} (last : m = min n (s + len - 1)) (low : s ≤ m) {size : Nat}
    (wide : len ≤ size) (hm : m - 1 < h.infos.length) :
    forkPoint (x.span s len) (h.span s size) = some h.infos[m - 1].position := by
  have distinct := (fork.valid_left.consecutive_span s len).increasing.nodup_positions
  have height : h.infos[m - 1].height = m := by
    rw [fork.valid_right.height_getElem_infos hm, fork.genesis]
    omega
  rw [forkPoint_eq_some_iff distinct]
  constructor
  · have shared := List.getElem_mem hm
    exact ⟨_, rfl, agreesOn_span fork hs shared (by omega) (by omega) (by omega) wide⟩
  · rintro p ⟨i, rfl, agrees⟩
    obtain ⟨below, high⟩ := height_le_of_agreesOn fork hs agrees
    have upTo : i.height ≤ h.infos[m - 1].height := by omega
    exact UInt64.le_iff_toNat_le.mpr upTo

/-- A window above the fork: nothing in it is on both chains. -/
theorem forkPoint_above (low : n < s) (size : Nat) :
    forkPoint (x.span s len) (h.span s size) = none := by
  have distinct := (fork.valid_left.consecutive_span s len).increasing.nodup_positions
  rw [forkPoint_eq_none_iff distinct]
  rintro p ⟨i, -, agrees⟩
  obtain ⟨below, -⟩ := height_le_of_agreesOn fork hs agrees
  obtain ⟨-, low', -⟩ := (fork.valid_right.mem_span fork.genesis hs size).mp agrees.told
  omega

end

/-! ## Windows put together -/

/-- Two ranges that touch or overlap. -/
theorem absorb_span (hh : h.Valid) (genesis : h.first.height = 1) {a b : View} {s m q k : Nat}
    (hs : 1 ≤ s) (hq : 1 ≤ q) (touch : q ≤ s + m) (touch' : s ≤ q + k)
    (ha : a.infos = h.span s m) (hb : b.infos = h.span q k) :
    (a.absorb b).infos = h.span (min s q) (max (s + m) (q + k) - min s q) := by
  have left : ∀ i, i ∈ a.infos ↔ i ∈ h.infos ∧ s ≤ i.height ∧ i.height < s + m := by
    rw [ha]
    exact fun i => hh.mem_span genesis hs m
  have right : ∀ i, i ∈ b.infos ↔ i ∈ h.infos ∧ q ≤ i.height ∧ i.height < q + k := by
    rw [hb]
    exact fun i => hh.mem_span genesis hq k
  have lowest : 1 ≤ min s q := by omega
  have union := (hh.consecutive_span (min s q) (max (s + m) (q + k) - min s q)).increasing
  apply View.absorb_infos (hh.increasing_infos genesis) _ _ _ union
  · intro i
    rw [hh.mem_span genesis lowest, left, right]
    constructor
    · intro member
      obtain ⟨known, low, high⟩ := member
      by_cases within : s ≤ i.height ∧ i.height < s + m
      · exact .inl ⟨known, within⟩
      · exact .inr ⟨known, by omega, by omega⟩
    · intro member
      rcases member with ⟨known, low, high⟩ | ⟨known, low, high⟩
      · exact ⟨known, by omega, by omega⟩
      · exact ⟨known, by omega, by omega⟩
  · exact fun i hi => ((left i).mp hi).1
  · exact fun i hi => ((right i).mp hi).1
  · rw [ha]
    exact (hh.consecutive_span s m).increasing.nodup_positions

theorem retainFrom_span (hh : h.Valid) (genesis : h.first.height = 1) {v : View} {s m q : Nat}
    (hs : 1 ≤ s) (le : s ≤ q) (infos : v.infos = h.span s m) :
    (v.retainFrom q).infos = h.span q (s + m - q) := by
  have ordered := (hh.consecutive_span s m).increasing
  change v.infos.filter (q ≤ ·.height) = _
  rw [infos]
  apply Increasing.eq_of_mem_iff (ordered.filter _)
    (hh.consecutive_span _ _).increasing
  intro i
  rw [List.mem_filter, hh.mem_span genesis hs, hh.mem_span genesis (by omega)]
  simp only [decide_eq_true_eq]
  constructor
  · intro kept
    obtain ⟨⟨known, -, high⟩, low⟩ := kept
    exact ⟨known, low, by omega⟩
  · intro member
    obtain ⟨known, h1, h2⟩ := member
    exact ⟨⟨known, by omega, by omega⟩, h1⟩

/-! ## What was seen -/

/-- What the windows above a cursor have shown: from the cursor to a batch above `top`, where they
began, if that is a size that can be asked for. -/
structure SeenAbove (ids : List NodeId) (h : Chain) (batch top cursor : Nat) (seen : Scanned) :
    Prop where
  peers : ∀ id ∈ seen.views.nodes, id ∈ ids
  views : ∃ k, seen.views.infos = h.span (cursor + 1) k ∧ top ≤ cursor + k ∧
    (top + batch ≤ maxWord32 → (cursor = top ∧ k = 0) ∨ cursor + k = top + batch)

/-- What a scan from `top` finds: the fork, and the range of `h` from there to a batch above `top`.
-/
structure FoundFork (ids : List NodeId) (h : Chain) (batch top n : Nat) (found : ScanResult) :
    Prop where
  fork : found.fork.toNat = n
  some_node : found.missing.nodes ≠ []
  peers : ∀ id ∈ found.missing.nodes, id ∈ ids
  missing : ∃ k, found.missing.infos = h.span (n + 1) k ∧ top ≤ n + k ∧
    (top + batch ≤ maxWord32 → n + k = top + batch)

namespace SeenAbove

variable {ids : List NodeId} {batch top start cursor m : Nat} {before : Scanned}

/-- A window above all of `h` shows nothing. -/
theorem silence (seen : SeenAbove ids h batch top cursor before) (genesis : h.first.height = 1)
    (hstart : 1 ≤ start) (le : start ≤ cursor + 1) (within : cursor ≤ top)
    (off_chain : h.blocks.length < start) : SeenAbove ids h batch top (start - 1) before := by
  obtain ⟨k, views, -⟩ := seen.views
  refine ⟨seen.peers, top + batch - (start - 1), ?_, by omega, by omega⟩
  rw [views, h.span_eq_nil genesis (by omega) (by omega),
    h.span_eq_nil genesis (by omega) (by omega)]

section

variable (seen : SeenAbove ids h batch top cursor before) (hh : h.Valid)
  (genesis : h.first.height = 1) (hstart : 1 ≤ start) (touch : cursor + 1 ≤ start + m)
  (exact : top + batch ≤ maxWord32 → start + m = cursor + 1 + batch) {nodes : List NodeId}
  (peers : ∀ id ∈ nodes, id ∈ ids)

include seen hh genesis hstart touch exact peers

/-- A window above the fork is kept together with those above it. -/
theorem absorb (below : start ≤ cursor) (within : cursor ≤ top) :
    SeenAbove ids h batch top (start - 1) ⟨true, before.views.absorb ⟨nodes, h.span start m⟩⟩ := by
  obtain ⟨k, views, reach, total⟩ := seen.views
  have union := absorb_span hh genesis (a := before.views) (b := ⟨nodes, h.span start m⟩)
    (by omega) hstart (by omega) touch views rfl
  have lowest : min (cursor + 1) start = start := by omega
  rw [lowest] at union
  refine ⟨?_, max (cursor + 1 + k) (start + m) - start, ?_, by omega, ?_⟩
  · intro id hid
    rcases View.mem_addNodes.mp hid with hid | hid
    · exact seen.peers id hid
    · exact peers id hid
  · rw [Nat.sub_add_cancel hstart]
    exact union
  · intro small
    have end_of_window := exact small
    have end_of_views := total small
    omega

/-- The window that holds the fork completes what is missing above it. -/
theorem found (some_node : nodes ≠ []) {position : UInt64} (hposition : position.toNat = n)
    (low : start ≤ n) (high : n ≤ cursor) (within : cursor ≤ top) :
    FoundFork ids h batch top n ⟨position,
      (View.absorb ⟨nodes, h.span start m⟩ before.views).retainFrom (position.toNat + 1)⟩ := by
  obtain ⟨k, views, reach, total⟩ := seen.views
  have union := absorb_span hh genesis (a := ⟨nodes, h.span start m⟩) (b := before.views) hstart
    (by omega) touch (by omega) rfl views
  have lowest : min start (cursor + 1) = start := by omega
  rw [lowest] at union
  have above := retainFrom_span hh genesis hstart (by omega : start ≤ n + 1) union
  rw [hposition]
  refine ⟨hposition, ?_, ?_, _, above, by omega, ?_⟩
  · obtain ⟨id, hid⟩ := List.exists_mem_of_ne_nil _ some_node
    exact List.ne_nil_of_mem (View.mem_addNodes.mpr (.inl hid))
  · intro id hid
    rcases View.mem_addNodes.mp hid with hid | hid
    · exact peers id hid
    · exact seen.peers id hid
  · intro small
    have end_of_window := exact small
    have end_of_views := total small
    omega

end

end SeenAbove

/-! ## The scan -/

section

variable {net : Network σ} {node : NodeId} {settings : SyncSettings}
  (p : HonestPeers net node settings h)

/-- A responder gives at least the window that was asked for, and all that was asked for if that is
a size that can be. -/
theorem served_window (batch : 1 ≤ settings.batchSize.toNat)
    (window : settings.scanWindow < UInt32.size) {len : Nat}
    (fits : len ≤ max settings.scanWindow 1) :
    len ≤ settings.served (windowRequest settings len) ∧
      (len + settings.batchSize.toNat ≤ maxWord32 →
        settings.served (windowRequest settings len) = len + settings.batchSize.toNat) := by
  have size : UInt32.size = 4294967296 := rfl
  have size64 : UInt64.size = 18446744073709551616 := rfl
  have largest : maxWord32 = 4294967295 := rfl
  have small := settings.batchSize.toNat_lt
  have sum : (UInt64.ofNat len + settings.batchSize.toUInt64).toNat =
      len + settings.batchSize.toNat := by
    rw [UInt64.toNat_add, UInt64.toNat_ofNat_of_lt' (by omega), UInt32.toNat_toUInt64]
    omega
  rw [SyncSettings.served, windowRequest, toNat_word32, sum, Nat.mod_eq_of_lt window]
  omega

theorem scanWindow_succeeds (width : 1 ≤ settings.fanoutWidth.toNat)
    (batch : 1 ≤ settings.batchSize.toNat) (window : settings.scanWindow < UInt32.size)
    (fork : Chain.Forks x h n) {start len cursor top : Nat} (hstart : 1 ≤ start) (hlen : 1 ≤ len)
    (hcursor : start + len = cursor + 1) (fits : len ≤ max settings.scanWindow 1)
    (below : cursor ≤ top) (small : top < UInt64.size) (above : min n top ≤ cursor)
    {before : Scanned} (seen : SeenAbove p.ids h settings.batchSize.toNat top cursor before)
    {w : World σ} (stored : w.node.store = .ofChain x) :
    Succeeds net (fun shown w' => w'.node = w.node ∧
        ((start ≤ n ∧ ∃ found, shown = .inl found ∧
            FoundFork p.ids h settings.batchSize.toNat top (min n top) found) ∨
          (n < start ∧ ∃ after, shown = .inr after ∧
            SeenAbove p.ids h settings.batchSize.toNat top (start - 1) after)))
      (scanWindow node settings start len before) w := by
  have hh := fork.valid_right
  have genesis := fork.genesis
  have position : (UInt64.ofNat start).toNat = start := UInt64.toNat_ofNat_of_lt' (by omega)
  obtain ⟨m, hm⟩ : ∃ m, m = settings.served (windowRequest settings len) := ⟨_, rfl⟩
  obtain ⟨wide, all⟩ := served_window batch window fits
  rw [← hm] at wide all
  unfold scanWindow
  refine (fetchInfos_succeeds p width _ _ w).bind ?_
  intro reports w₁ ended
  obtain ⟨unanimous, same⟩ := ended
  rw [position, ← hm] at unanimous
  by_cases off_chain : h.blocks.length < start
  · rw [h.span_eq_nil genesis hstart off_chain] at unanimous
    rw [unanimous.choose_nil]
    have := fork.right
    exact ⟨_, rfl, same, .inr ⟨by omega, before, rfl,
      seen.silence genesis hstart (by omega) below off_chain⟩⟩
  · have ordered := hh.consecutive_span start m
    have some_info : h.span start m ≠ [] := by
      have long := h.length_span genesis hstart m
      rw [← List.length_pos_iff]
      omega
    rw [unanimous.choose_eq ordered some_info]
    refine Ensures.of_run_bind (run_infosInRange (by rw [same, stored]) _ _) ?_
    simp only
    by_cases low : start ≤ n
    · have hn : min n top - 1 < h.infos.length := by
        have := fork.right
        rw [Chain.length_infos]
        omega
      have height : h.infos[min n top - 1].height = min n top := by
        rw [hh.height_getElem_infos hn, genesis]
        omega
      rw [forkPoint_within fork hstart (by omega : min n top = _) (by omega) wide hn]
      exact ⟨_, rfl, same, .inl ⟨low, _, rfl, seen.found hh genesis hstart (by omega) (by omega)
        unanimous.mem_nodes unanimous.nodes_ne_nil height (by omega) above below⟩⟩
    · rw [forkPoint_above fork hstart (by omega) m]
      exact ⟨_, rfl, same, .inr ⟨by omega, _, rfl, seen.absorb hh genesis hstart (by omega)
        (by omega) unanimous.mem_nodes (by omega) below⟩⟩

/-- By induction on the cursor, which a window above the fork moves to just below itself. -/
theorem scanFrom_succeeds (width : 1 ≤ settings.fanoutWidth.toNat)
    (batch : 1 ≤ settings.batchSize.toNat) (window : settings.scanWindow < UInt32.size)
    (fork : Chain.Forks x h n) {top : Nat} (positive : 1 ≤ top) (small : top < UInt64.size)
    (origin : Nat) (cursor : Nat) (before : Scanned) (w : World σ) (below : cursor ≤ top)
    (above : min n top ≤ cursor)
    (seen : SeenAbove p.ids h settings.batchSize.toNat top cursor before)
    (stored : w.node.store = .ofChain x) :
    Succeeds net (fun found w' =>
        FoundFork p.ids h settings.batchSize.toNat top (min n top) found ∧ w'.node = w.node)
      (scanFrom node settings origin cursor before) w := by
  have some_shared := fork.positive
  obtain ⟨low, high, fits, -⟩ := windowStart_bounds settings (by omega : 1 ≤ cursor)
  rw [scanFrom]
  refine (scanWindow_succeeds p width batch window fork low (by omega) (by omega) fits below small
    above seen stored).bind ?_
  intro shown w₁ ended
  obtain ⟨same, ⟨-, found, rfl, ok⟩ | ⟨higher, after, rfl, seen'⟩⟩ := ended
  · exact ⟨found, rfl, ok, same⟩
  · have further : ¬ windowStart settings cursor ≤ 1 := by omega
    simp only [further, dif_neg, not_false_eq_true]
    refine (scanFrom_succeeds width batch window fork positive small origin _ after w₁ (by omega)
      (by omega) seen' (by rw [same, stored])).mono ?_
    intro found w' ended
    obtain ⟨ok, same'⟩ := ended
    exact ⟨ok, same'.trans same⟩
termination_by cursor
decreasing_by exact windowStart_le settings further

/-- A scan finds the fork, or the position where it began if that is below the fork. -/
theorem scan_succeeds (width : 1 ≤ settings.fanoutWidth.toNat)
    (batch : 1 ≤ settings.batchSize.toNat) (window : settings.scanWindow < UInt32.size)
    (fork : Chain.Forks x h n) {origin : UInt64} (positive : 1 ≤ origin.toNat) {w : World σ}
    (stored : w.node.store = .ofChain x) :
    Succeeds net (fun found w' =>
        FoundFork p.ids h settings.batchSize.toNat origin.toNat (min n origin.toNat) found ∧
        w'.node = w.node)
      (scan node settings origin) w := by
  have nothing : h.span (origin.toNat + 1) 0 = [] := by
    rw [Chain.span_eq fork.genesis (by omega), List.take_zero]
  rw [scan, Nat.max_eq_left positive]
  exact scanFrom_succeeds p width batch window fork positive origin.toNat_lt _ _ _ w (Nat.le_refl _)
    (Nat.min_le_right _ _) ⟨nofun, 0, nothing.symm, Nat.le_refl _, fun _ => .inl ⟨rfl, rfl⟩⟩ stored

end

end ChainNode.Reconcile
