import ChainNode.Proofs.Reconcile.Apply
import ChainNode.Proofs.View.Majority
import ChainNode.Reconcile.CatchUp
import ChainNode.Simulation.Peers

/-!
# Catching up only extends

A view that is taken over while catching up counts up from the head and confirms it, letter case
aside. So at most its first info is found stored, and the chain is replaced from the head itself on,
if the view spells its hash in another way, or else from just above it. What lies below the head is
never touched, in no round; only a hash that is stored further down already can leave the chain
shorter than it was.

* `Overlaps`: how a view stands to the chain that it confirms.
* `Extends`: how the chain stands to what it was.
* `Applied.caught`: one round.
* `catchUp_only_extends`: any number of rounds, against any peers.
-/
namespace ChainNode

namespace Chain

variable {l c d : Chain}

/-- `c` goes on from where `l` stood: nothing has changed below the head of `l`, where it was there
is a block of the same hash, letter case aside, and `c` is not shorter. -/
structure Extends (l c : Chain) : Prop where
  below : ∀ p < l.head.height, c.at? p = l.at? p
  head : ∃ b, c.at? l.head.height = some b ∧ sameHash l.head.hash b.hash = true
  high : l.head.height ≤ c.head.height

namespace Extends

theorem refl (valid : c.Valid) (genesis : c.first.height = 1) : Extends c c :=
  ⟨fun _ _ => rfl, ⟨_, valid.at?_head genesis, sameHash_self _⟩, Nat.le_refl _⟩

theorem trans (valid : c.Valid) (genesis : c.first.height = 1) (h : Extends l c)
    (h' : Extends c d) : Extends l d := by
  refine ⟨fun p hp => ?_, ?_, Nat.le_trans h.high h'.high⟩
  · rw [h'.below p (Nat.lt_of_lt_of_le hp h.high), h.below p hp]
  · obtain ⟨b, hb, same⟩ := h.head
    rcases Nat.lt_or_eq_of_le h.high with higher | level
    · exact ⟨b, by rw [h'.below _ higher, hb], same⟩
    · -- the chain has not grown, so what the second step confirmed is the block of the first
      obtain ⟨b', hb', same'⟩ := h'.head
      rw [level, valid.at?_head genesis] at hb
      cases hb
      exact ⟨b', by rw [level, hb'], sameHash_trans same same'⟩

end Extends

end Chain

namespace Reconcile

open Program

variable {σ : Type} {net : Network σ} {w : World σ} {c : Chain} {infos : List BlockInfo}

/-- The infos count up from the position of the head, and what is found there has the hash of the
first, letter case aside. -/
structure Overlaps (c : Chain) (infos : List BlockInfo) : Prop where
  consecutive : Consecutive c.head.height infos
  found : ∃ b, c.at? c.head.height = some b ∧
    ∀ first ∈ infos.head?, sameHash b.hash first.hash = true

/-- The infos count up from the head and begin with its hash, letter case aside. -/
structure Confirmed (c : Chain) (infos : List BlockInfo) : Prop where
  consecutive : Consecutive c.head.height infos
  head : ∀ first ∈ infos.head?, sameHash c.head.hash first.hash = true

theorem Overlaps.confirmed (h : Overlaps c infos) (valid : c.Valid) (genesis : c.first.height = 1) :
    Confirmed c infos := by
  obtain ⟨b, found, same⟩ := h.found
  obtain rfl : c.head = b := Option.some.inj ((valid.at?_head genesis).symm.trans found)
  exact ⟨h.consecutive, same⟩

theorem fetchConfident_overlaps (net : Network σ) (self : NodeId) (settings : SyncSettings)
    (size : UInt32) (stored : w.node.store = .ofChain c) :
    ∃ r w', (fetchConfident self settings c.head.position size).run net w = (some r, w') ∧
      w'.node = w.node ∧ ∀ view, r = .ok (some view) → Overlaps c view.infos := by
  obtain ⟨r, w₁, fetch, -, node⟩ := (fetchInfos_asks self settings c.head.position size).run net w
  unfold fetchConfident
  rw [bind_eq, run_bind, fetch]
  cases r with
  | error e => exact ⟨_, w₁, rfl, node, nofun⟩
  | ok reports =>
    simp only
    cases chosen : choose reports with
    | none => exact ⟨_, w₁, rfl, node, nofun⟩
    | some view =>
      obtain ⟨some_info, p, ordered⟩ := consecutive_of_choose chosen
      simp only
      cases hinfos : view.infos with
      | nil => exact absurd hinfos some_info
      | cons first rest =>
        simp only
        by_cases start : first.position = c.head.position
        · have height : first.height = c.head.height := congrArg UInt64.toNat start
          rw [if_neg (not_not.mpr start), bind_eq, run_bind, run_blockAt (node ▸ stored)]
          cases found : c.at? c.head.position.toNat with
          | none => exact ⟨_, w₁, rfl, node, nofun⟩
          | some b =>
            refine ⟨_, w₁, rfl, node, ?_⟩
            intro view' same
            split at same
            · rename_i confirmed
              cases same
              rw [hinfos] at ordered ⊢
              rw [← ordered.height_head, height] at ordered
              exact ⟨ordered, b, found, fun i hi => by cases hi; exact confirmed⟩
            · cases same
        · rw [if_pos start]
          exact ⟨_, w₁, rfl, node, nofun⟩

theorem fetchConfident_run (net : Network σ) (self : NodeId) (settings : SyncSettings)
    (size : UInt32) (stored : w.node.store = .ofChain c) (valid : c.Valid)
    (genesis : c.first.height = 1) :
    ∃ r w', (fetchConfident self settings c.head.position size).run net w = (some r, w') ∧
      w'.node = w.node ∧ ∀ view, r = .ok (some view) → Confirmed c view.infos := by
  obtain ⟨r, w', ran, node, overlaps⟩ :=
    fetchConfident_overlaps net self settings size stored
  exact ⟨r, w', ran, node, fun view same => (overlaps view same).confirmed valid genesis⟩

/-! ## One round -/

/-- What is found stored is the head at most, so the first missing info stands there or next. -/
theorem Confirmed.first_missing (confirmed : Confirmed c infos) (valid : c.Valid)
    (genesis : c.first.height = 1) {skipped : List BlockInfo} {first : BlockInfo}
    {rest : List BlockInfo} (missing : FirstMissing c infos skipped first rest) :
    (skipped = [] ∧ first.height = c.blocks.length) ∨ first.height = c.blocks.length + 1 := by
  have ordered := confirmed.consecutive
  rw [valid.height_head_eq genesis, missing.split] at ordered
  have first_height := ordered.height_getElem (i := skipped.length) (by simp)
  simp only [List.getElem_append_right (Nat.le_refl _), Nat.sub_self, List.getElem_cons_zero]
    at first_height
  cases skipped with
  | nil => exact .inl ⟨rfl, by simpa using first_height⟩
  | cons i others =>
    cases others with
    | nil => exact .inr (by simpa using first_height)
    | cons j others =>
      have stored := (missing.skipped j (by simp)).1
      obtain ⟨k, hk, rfl⟩ := List.mem_iff_getElem.mp stored
      have height := ordered.height_getElem (i := 1) (by simp)
      simp [valid.height_getElem_infos hk, genesis] at height hk
      omega

/-- A chain that was kept up to its head, the head itself aside perhaps, and goes on as a confirmed
view does from the first missing info on. -/
theorem Confirmed.extends (confirmed : Confirmed c infos) (valid : c.Valid)
    (genesis : c.first.height = 1) {skipped : List BlockInfo} {first : BlockInfo}
    {rest : List BlockInfo} (missing : FirstMissing c infos skipped first rest) {new : List Block}
    (nonempty : new ≠ []) (listed : new.map Block.info <+: first :: rest) {c' : Chain}
    (valid' : c'.Valid) (genesis' : c'.first.height = 1)
    (blocks : c'.blocks = c.blocks.take (first.height - 1) ++ new) : c.Extends c' := by
  have top := valid.height_head_eq genesis
  have size : 0 < c.blocks.length := List.length_pos_of_ne_nil c.blocks_ne_nil
  have position := confirmed.first_missing valid genesis missing
  have kept : c'.blocks.take (first.height - 1) = c.blocks.take (first.height - 1) := by
    rw [blocks, List.take_left' (by simp; omega)]
  refine ⟨fun p hp => ?_, ?_, ?_⟩
  · exact Chain.at?_eq_of_take_eq genesis genesis' kept (by omega)
  · rcases position with ⟨rfl, here⟩ | above
    · -- the head is replaced by the block whose info confirms it
      cases new with
      | nil => exact absurd rfl nonempty
      | cons b others =>
        refine ⟨b, ?_, ?_⟩
        · rw [Chain.at?_eq genesis' (by omega), blocks, here, top,
            List.getElem?_append_right (by simp), List.length_take]
          simp
        · have info : b.info = first := (List.cons_prefix_cons.mp listed).1
          have same := confirmed.head first (by simp [missing.split])
          rwa [← info] at same
    · refine ⟨c.head, ?_, sameHash_self _⟩
      rw [Chain.at?_eq_of_take_eq genesis genesis' kept (by omega), valid.at?_head genesis]
  · have length := congrArg List.length blocks
    have more := List.length_pos_of_ne_nil nonempty
    rw [List.length_append, List.length_take] at length
    rw [top, valid'.height_head_eq genesis']
    omega

/-- How a node that had the chain `l` may stand after some rounds: with the result that ended them,
if one did, and the chain it has then. -/
inductive Caught (l : Chain) : Option (Except SyncError Nat) → Chain → Prop where
  | extended {r : Option (Except SyncError Nat)} {c : Chain} (goes_on : l.Extends c)
      (nothing : r = some (.ok 0) → c = l) : Caught l r c
  /-- A block was refused because a lower one has its hash. -/
  | refused {c : Chain} {a : Block} (stored : a ∈ c.blocks)
      (below : ∀ p < l.head.height, c.at? p = l.at? p) :
      Caught l (some (.error (.store (.invalid (.alreadyKnown a.hash))))) c

theorem Applied.first_eq {r : Except SyncError Nat} {c' : Chain} (h : Applied c infos r c')
    (valid : c.Valid) (genesis : c.first.height = 1) : c'.first = c.first := by
  have kept : ∀ {first : BlockInfo} {new : List Block}, 2 ≤ first.height →
      c'.blocks = c.blocks.filter (·.height < first.height) ++ new → c'.first = c.first := by
    intro first new above blocks
    rw [valid.filter_height_lt genesis] at blocks
    obtain ⟨k, hk⟩ : ∃ k, first.height - 1 = k + 1 := ⟨first.height - 2, by omega⟩
    rw [hk] at blocks
    exact (List.cons.inj blocks).1
  cases h with
  | nothing => rfl
  | unchanged => rfl
  | replaced _ above _ _ blocks => exact kept above blocks
  | known _ _ stored below _ blocks =>
    obtain ⟨i, hi, rfl⟩ := List.mem_iff_getElem.mp stored
    rw [valid.height_getElem, genesis] at below
    exact kept (by omega) blocks

theorem Applied.caught {r : Except SyncError Nat} {c' : Chain} (h : Applied c infos r c')
    (confirmed : Confirmed c infos) (valid : c.Valid) (genesis : c.first.height = 1)
    (valid' : c'.Valid) : Caught c (some r) c' := by
  have genesis' : c'.first.height = 1 := by rw [h.first_eq valid genesis, genesis]
  cases h with
  | nothing => exact .extended (.refl valid genesis) fun _ => rfl
  | unchanged e => exact .extended (.refl valid genesis) nofun
  | @replaced skipped first rest missing above new nonempty listed _ blocks =>
    rw [valid.filter_height_lt genesis] at blocks
    refine .extended (confirmed.extends valid genesis missing nonempty listed valid' genesis'
      blocks) fun same => ?_
    cases new with
    | nil => exact absurd rfl nonempty
    | cons b others => cases same
  | @known skipped first rest missing done b listed a stored below hash _ blocks =>
    rw [← hash]
    refine .refused ?_ fun p hp => ?_
    · rw [blocks]
      exact List.mem_append_left _ (List.mem_filter.mpr ⟨stored, by simpa using below⟩)
    · have position := confirmed.first_missing valid genesis missing
      have top := valid.height_head_eq genesis
      rw [valid.filter_height_lt genesis] at blocks
      refine Chain.at?_eq_of_take_eq genesis genesis' (k := first.height - 1) ?_ (by omega)
      rw [blocks, List.take_left' (by simp; omega)]

/-! ## Any number of rounds -/

/-- Rounds that follow one that has taken over something. -/
theorem Caught.after {l : Chain} {r : Option (Except SyncError Nat)} {c' : Chain}
    (valid : c.Valid) (genesis : c.first.height = 1) (goes_on : l.Extends c) {applied : Nat}
    (some_block : applied ≠ 0) (h : Caught c r c') :
    Caught l (r.map fun more => more.map (applied + ·)) c' := by
  cases h with
  | extended goes_on' _ =>
    refine .extended (.trans valid genesis goes_on goes_on') fun same => ?_
    obtain ⟨more, -, total⟩ := Option.map_eq_some_iff.mp same
    cases more with
    | error e => cases total
    | ok n =>
      have sum : applied + n = 0 := Except.ok.inj total
      omega
  | refused stored below =>
    refine .refused stored fun p hp => ?_
    rw [below p (Nat.lt_of_lt_of_le hp goes_on.high), goes_on.below p hp]

/-- **Catching up only extends.** After any number of rounds, whatever peers did in them, and also
when an error ends them, the blocks below the old head are those that were there, the chain is no
shorter, and where the old head was there is a block of its hash, letter case aside. The exception
is a block that is refused because its hash is that of a lower one: that leaves the chain shorter.
When nothing was taken over the chain is what it was. Without a result the bound on the number of
rounds has run out, so what is said holds after each of them. -/
theorem catchUp_only_extends (net : Network σ) (self : NodeId) (settings : SyncSettings)
    (rounds : Nat) {l : Chain} (stored : w.node.store = .ofChain l) (valid : l.Valid)
    (genesis : l.first.height = 1) :
    ∃ r w' c, (catchUp self settings rounds).run net w = (r, w') ∧ w'.node.store = .ofChain c ∧
      c.Valid ∧ Caught l r c := by
  induction rounds generalizing w l with
  | zero => exact ⟨none, w, l, rfl, stored, valid, .extended (.refl valid genesis) nofun⟩
  | succ rounds ih =>
    have stays : ∀ r, Caught l r l := fun r => .extended (.refl valid genesis) fun _ => rfl
    obtain ⟨r, w₁, fetch, node, confirmed⟩ :=
      fetchConfident_run net self settings settings.batchSize stored valid genesis
    have stored₁ : w₁.node.store = .ofChain l := by rw [node, stored]
    unfold catchUp
    rw [bind_eq, run_bind, run_latestBlock stored]
    simp only
    rw [bind_eq, run_bind, fetch]
    cases r with
    | error e => exact ⟨_, w₁, l, rfl, stored₁, valid, stays _⟩
    | ok found =>
      cases found with
      | none => exact ⟨_, w₁, l, rfl, stored₁, valid, stays _⟩
      | some view =>
        simp only
        split
        · obtain ⟨r, w₂, applied_run, c, node₂, applied, -, upwards⟩ :=
            (apply_ensures net self settings view stored₁ valid genesis).run
          have valid₂ := upwards (confirmed view rfl).consecutive.increasing
          have stored₂ : w₂.node.store = .ofChain c := by rw [node₂]
          have genesis₂ : c.first.height = 1 := by rw [applied.first_eq valid genesis, genesis]
          have caught := applied.caught (confirmed view rfl) valid genesis valid₂
          rw [bind_eq, run_bind, applied_run]
          cases r with
          | error e => exact ⟨_, w₂, c, rfl, stored₂, valid₂, caught⟩
          | ok n =>
            simp only
            split
            · rename_i none_applied
              exact ⟨_, w₂, c, rfl, stored₂, valid₂, none_applied ▸ caught⟩
            · rename_i some_applied
              obtain ⟨r, w₃, c', more, stored₃, valid₃, caught'⟩ := ih stored₂ valid₂ genesis₂
              cases caught with
              | extended goes_on _ =>
                refine ⟨_, w₃, c', ?_, stored₃, valid₃,
                  caught'.after valid₂ genesis₂ goes_on some_applied⟩
                rw [bind_eq, run_bind, more]
                rcases r with _ | ⟨_ | _⟩ <;> rfl
        · exact ⟨_, w₁, l, rfl, stored₁, valid, stays _⟩

/-- A peer has a second block, and the node has room for one round: afterwards it has that block. -/
theorem catchUp_only_extends_second :
    let peers : Simulation.Peers :=
      { peers := [⟨"peer", 0, .fixed [Block.genesis.info, Sample.second.info] [Sample.second]⟩]
        failing := []
        members := ["peer"]
        issued := 0
        announced := []
        refusesBroadcasts := false
        now := 0 }
    let w : World Simulation.Peers :=
      ⟨.new "self" .testing .testing 50 (.ofChain .new) 0, peers, []⟩
    w.node.store = .ofChain .new ∧ Chain.new.Valid ∧ Chain.new.first.height = 1 ∧
      ∃ r w' c, (catchUp "self" .testing 1).run Simulation.Peers.network w = (r, w') ∧
        w'.node.store = .ofChain c ∧ c.Valid ∧ Caught .new r c := by
  refine ⟨rfl, Chain.valid_start _, rfl, ?_⟩
  exact catchUp_only_extends _ _ _ _ rfl (Chain.valid_start _) rfl

end Reconcile

end ChainNode
