import Mathlib.Data.List.TakeWhile
import ChainNode.Proofs.Chain.Position
import ChainNode.Proofs.Node.Ensures
import ChainNode.Proofs.Node.Run
import ChainNode.Proofs.Reconcile.Ask
import ChainNode.Proofs.View.Lookup
import ChainNode.Reconcile.Apply
import ChainNode.Simulation.Peers

/-!
# Applying a view is all or nothing

Between the moment the stored suffix is removed and the moment the last new block is saved, a save
that is refused would leave the chain cut off. Each rule that a save checks has been checked
before: the new blocks follow one another and the stored predecessor, and no two of them share a
hash. What is not checked is whether the hash of a new block occurs further down in the chain;
that is the only way in which the chain can end up shorter.

* `saveAll_run`: saving a list of blocks that was checked.
* `apply_attempted`: what applying a view comes to on a chain that may pass the last position.
* `Saved.valid`: where the positions of the infos count upwards, so do those of the chain.
* `apply_outcome`: what applying any view to any chain comes to, against any peers.
-/
namespace ChainNode

namespace Chain

/-- The chain with more blocks, unchecked. -/
def pushAll (bs : List Block) (c : Chain) : Chain := bs.foldl (fun c b => c.push b) c

@[simp] theorem first_pushAll : ∀ (bs : List Block) (c : Chain), (c.pushAll bs).first = c.first
  | [], _ => rfl
  | b :: bs, c => first_pushAll bs (c.push b)

@[simp] theorem blocks_pushAll : ∀ (bs : List Block) (c : Chain),
    (c.pushAll bs).blocks = c.blocks ++ bs
  | [], c => (List.append_nil _).symm
  | b :: bs, c => by
    change ((c.push b).pushAll bs).blocks = _
    rw [blocks_pushAll bs (c.push b), blocks_push, List.append_assoc, List.singleton_append]

/-- What is kept below a position lies below all infos from there on. -/
theorem Valid.below_pending {c : Chain} (h : c.Valid) (genesis : c.first.height = 1) {n : Nat}
    {first : BlockInfo} {rest : List BlockInfo} (height : first.height = n + 2)
    (increasing : Increasing (first :: rest)) :
    ∀ a ∈ (c.cut n).blocks, ∀ i ∈ first :: rest, a.height < i.height := by
  intro a ha i hi
  have low : a.height < n + 2 := h.height_lt_of_mem_take (by rwa [genesis])
  rcases List.mem_cons.mp hi with rfl | later
  · omega
  · have := (List.pairwise_cons.mp increasing).1 i later
    omega

end Chain

namespace Reconcile

open Program

variable {σ : Type} {net : Network σ} {w : World σ} {c : Chain}

/-! ## Checking and saving -/

theorem validChain_isPrefix (parent : Block) (bs : List Block) : validChain parent bs <+: bs := by
  induction bs generalizing parent with
  | nil => exact List.prefix_rfl
  | cons b bs ih =>
    unfold validChain
    split
    · exact List.prefix_cons_inj b |>.mpr (ih b)
    · exact List.nil_prefix

theorem isChain_validChain (parent : Block) (bs : List Block) :
    (parent :: validChain parent bs).IsChain Block.Follows := by
  induction bs generalizing parent with
  | nil => exact List.isChain_singleton _
  | cons b bs ih =>
    unfold validChain
    split
    · rename_i ok
      exact List.isChain_cons_cons.mpr
        ⟨Block.checkFollows_eq_ok_iff.mp ok, ih b⟩
    · exact List.isChain_singleton _

/-- How saving a checked list ends: with all of it saved, or at a block whose hash was known before
the first of them was saved. -/
inductive Saved (c : Chain) (bs : List Block) : Except SyncError Unit → Chain → Prop where
  | all : Saved c bs (.ok ()) (c.pushAll bs)
  | known (done : List Block) {b : Block} {rest : List Block} (split : bs = done ++ b :: rest)
      (known : b.hash ∈ c.known) :
      Saved c bs (.error (.store (.invalid (.alreadyKnown b.hash)))) (c.pushAll done)

/-- The positions of the chain afterwards count upwards if those of the infos do, from above the
chain on. -/
theorem Saved.valid {bs : List Block} {r : Except SyncError Unit} {c' : Chain}
    (saved : Saved c bs r c') (valid : c.Valid) (sound : c'.Sound) {pending : List BlockInfo}
    (increasing : Increasing pending) (listed : bs.map Block.info <+: pending)
    (above : ∀ a ∈ c.blocks, ∀ i ∈ pending, a.height < i.height) : c'.Valid := by
  have upwards : (c.blocks ++ bs).Pairwise (·.height < ·.height) := by
    refine List.pairwise_append.mpr ⟨valid.increasing_blocks, ?_, fun a ha b hb => ?_⟩
    · have new : Increasing (bs.map Block.info) := increasing.sublist listed.sublist
      rw [Increasing, List.pairwise_map] at new
      exact new
    · exact above a ha b.info (listed.subset (List.mem_map_of_mem hb))
  refine ⟨sound, sound.unwrapped_of_increasing ?_⟩
  cases saved with
  | all => rwa [Chain.blocks_pushAll]
  | known done split known =>
    rw [Chain.blocks_pushAll]
    rw [split, ← List.append_assoc] at upwards
    exact (List.pairwise_append.mp upwards).1

/-- By induction on the list. A hash that is known when its block is reached is that of no block
of the list, so it was known at the start. -/
theorem saveAll_run (net : Network σ) {bs : List Block} {w : World σ} {c : Chain}
    (stored : w.node.store = .ofChain c) (sound : c.Sound)
    (linked : (c.head :: bs).IsChain Block.Follows) (distinct : (bs.map Block.hash).Nodup) :
    ∃ r w' c', (saveAll bs).run net w = (some r, w') ∧ World.Rewritten c' w w' ∧ Saved c bs r c' ∧
      c'.Sound := by
  induction bs generalizing w c with
  | nil => exact ⟨.ok (), w, c, rfl, .refl stored, .all, sound⟩
  | cons b bs ih =>
    unfold saveAll
    rw [bind_eq, run_bind, run_command]
    by_cases known : b.hash ∈ c.known
    · obtain ⟨w', hexec, hw⟩ := Command.exec_save_known net stored known
      rw [hexec]
      exact ⟨_, w', c, rfl, hw, .known [] rfl known, sound⟩
    · obtain ⟨follows, linked⟩ := List.isChain_cons_cons.mp linked
      obtain ⟨fresh, distinct⟩ := List.nodup_cons.mp distinct
      obtain ⟨w₁, hexec, hw⟩ := Command.exec_save net stored known follows
      rw [hexec]
      obtain ⟨r, w', c', hrest, hw', saved, sound'⟩ :=
        ih hw.store (sound.push known follows) (by rwa [Chain.head_push]) distinct
      refine ⟨r, w', c', hrest, hw.trans hw', ?_, sound'⟩
      cases saved with
      | all => exact .all
      | known done split hk =>
        rcases List.mem_cons.mp hk with same | hk
        · exact absurd (List.mem_map.mpr ⟨_, by simp [split], same⟩) fresh
        · exact .known (b :: done) (by rw [split]; rfl) hk

/-- The suffix above block `n` is replaced by those of the downloaded blocks that form a chain. -/
theorem takeOver_run (net : Network σ) {fetched : List Block} {n : Nat}
    (stored : w.node.store = .ofChain c) (sound : c.Sound) (hn : n < c.blocks.length)
    {position : Nat} (next : position = c.first.height + n + 1)
    (distinct : (fetched.map Block.hash).Nodup)
    (nonempty : validChain c.blocks[n] fetched ≠ []) :
    ∃ r w' c', (takeOver position c.blocks[n] fetched).run net w =
        (some (r.map fun _ => (validChain c.blocks[n] fetched).length), w') ∧
      World.Rewritten c' w w' ∧ Saved (c.cut n) (validChain c.blocks[n] fetched) r c' ∧
      c'.Sound := by
  unfold takeOver
  simp only [List.isEmpty_iff, nonempty, if_false, bind_eq, run_bind]
  have above : c.first.height ≤ position - 1 := by omega
  obtain ⟨_, w₁, hremove, hw₁⟩ := run_removeAfter net SyncError.store stored above
  rw [show position - 1 - c.first.height = n by omega] at hw₁
  have linked : ((c.cut n).head :: validChain c.blocks[n] fetched).IsChain Block.Follows := by
    rw [Chain.head_cut hn]
    exact isChain_validChain _ _
  obtain ⟨r, w', c', hsave, hw', saved, sound'⟩ := saveAll_run net hw₁.store (sound.cut n) linked
    (distinct.sublist ((validChain_isPrefix _ _).sublist.map _))
  refine ⟨r, w', c', ?_, hw₁.trans hw', saved, sound'⟩
  rw [hremove]
  simp only [hsave]
  cases r with
  | ok _ => rfl
  | error _ => rfl

/-! ## What is found stored -/

/-- The positions that are read before a view is applied: from its first info on, as many as the
view has infos. -/
def InWindow (infos : List BlockInfo) (i : BlockInfo) : Prop :=
  ∃ lowest ∈ infos.head?, lowest.height ≤ i.height ∧ i.height < lowest.height + infos.length

/-- An info that is found stored: it is, and its position is among those that are read. -/
def Found (c : Chain) (infos : List BlockInfo) (i : BlockInfo) : Prop :=
  i ∈ c.infos ∧ InWindow infos i

/-- The first info of a list that is not found stored. -/
structure FirstMissing (c : Chain) (infos skipped : List BlockInfo) (first : BlockInfo)
    (rest : List BlockInfo) : Prop where
  split : infos = skipped ++ first :: rest
  skipped : ∀ i ∈ skipped, Found c infos i
  missing : ¬ Found c infos first

theorem found_iff (valid : c.Valid) (genesis : c.first.height = 1) {infos : List BlockInfo}
    {lowest : BlockInfo} (hl : infos.head? = some lowest) (hp : 1 ≤ lowest.height)
    (i : BlockInfo) :
    (hashAt (c.span lowest.height infos.length) i.position == some i.hash) = true ↔
      Found c infos i := by
  have distinct : ((c.span lowest.height infos.length).map BlockInfo.position).Nodup :=
    (valid.consecutive_span _ _).increasing.nodup_positions
  rw [beq_iff_eq, hashAt_eq_some_iff distinct, valid.mem_span genesis hp]
  simp [Found, InWindow, hl]

theorem pendingInfos_nothing_stored (infos : List BlockInfo) : pendingInfos [] infos = infos := by
  cases infos with
  | nil => rfl
  | cons i is => rfl

theorem pendingInfos_nil (valid : c.Valid) (genesis : c.first.height = 1) {infos : List BlockInfo}
    {lowest : BlockInfo} (hl : infos.head? = some lowest) (hp : 1 ≤ lowest.height)
    (h : pendingInfos (c.span lowest.height infos.length) infos = []) :
    ∀ i ∈ infos, Found c infos i := by
  intro i hi
  rw [pendingInfos, List.dropWhile_eq_nil_iff] at h
  exact (found_iff valid genesis hl hp i).mp (h i hi)

theorem pendingInfos_cons (valid : c.Valid) (genesis : c.first.height = 1)
    {infos : List BlockInfo} {lowest : BlockInfo} (hl : infos.head? = some lowest)
    (hp : 1 ≤ lowest.height) {first : BlockInfo} {rest : List BlockInfo}
    (h : pendingInfos (c.span lowest.height infos.length) infos = first :: rest) :
    ∃ skipped, FirstMissing c infos skipped first rest := by
  unfold pendingInfos at h
  refine ⟨infos.takeWhile fun i =>
    hashAt (c.span lowest.height infos.length) i.position == some i.hash,
    ⟨?_, ?_, ?_⟩⟩
  · rw [← h]
    exact (List.takeWhile_append_dropWhile ..).symm
  · intro i hi
    have kept := List.mem_takeWhile_imp hi
    exact (found_iff valid genesis hl hp i).mp kept
  · intro found
    have failed := List.head?_dropWhile_not
      (fun i => hashAt (c.span lowest.height infos.length) i.position == some i.hash)
      infos
    rw [h] at failed
    simp [(found_iff valid genesis hl hp first).mpr found] at failed

theorem pendingInfos_of_missing (valid : c.Valid) (genesis : c.first.height = 1)
    {infos skipped : List BlockInfo} {lowest : BlockInfo} (hl : infos.head? = some lowest)
    (hp : 1 ≤ lowest.height) {first : BlockInfo} {rest : List BlockInfo}
    (missing : FirstMissing c infos skipped first rest) :
    pendingInfos (c.span lowest.height infos.length) infos = first :: rest := by
  have kept : ∀ i ∈ skipped,
      (hashAt (c.span lowest.height infos.length) i.position == some i.hash) = true :=
    fun i hi => (found_iff valid genesis hl hp i).mpr (missing.skipped i hi)
  have stop : ¬ (hashAt (c.span lowest.height infos.length) first.position == some first.hash) =
      true := fun h => missing.missing ((found_iff valid genesis hl hp first).mp h)
  have split : pendingInfos (c.span lowest.height infos.length) infos =
      (skipped ++ first :: rest).dropWhile fun i =>
        hashAt (c.span lowest.height infos.length) i.position == some i.hash := by
    rw [← missing.split]
    rfl
  rw [split, List.dropWhile_append_of_pos kept]
  exact List.dropWhile_cons_of_neg stop

/-! ## Outcomes -/

/-- What applying a view to the chain `c` may come to: the result and the chain afterwards. -/
inductive Applied (c : Chain) (infos : List BlockInfo) : Except SyncError Nat → Chain → Prop where
  /-- Nothing was missing, and nothing changed. -/
  | nothing (found : ∀ i ∈ infos, Found c infos i) : Applied c infos (.ok 0) c
  /-- From the first missing info on, the chain is now that of the view, as far as the blocks were
  to be had. -/
  | replaced {skipped : List BlockInfo} {first : BlockInfo} {rest : List BlockInfo}
      (missing : FirstMissing c infos skipped first rest) (above : 2 ≤ first.height)
      {new : List Block} (nonempty : new ≠ []) (listed : new.map Block.info <+: first :: rest)
      {c' : Chain} (blocks : c'.blocks = c.blocks.filter (·.height < first.height) ++ new) :
      Applied c infos (.ok new.length) c'
  /-- It failed, and nothing changed. -/
  | unchanged (e : SyncError) : Applied c infos (.error e) c
  /-- A new block was refused because a block below the first missing info has its hash; the new
  blocks before it were saved. -/
  | known {skipped : List BlockInfo} {first : BlockInfo} {rest : List BlockInfo}
      (missing : FirstMissing c infos skipped first rest) {done : List Block} {b : Block}
      (listed : (done ++ [b]).map Block.info <+: first :: rest)
      {a : Block} (stored : a ∈ c.blocks) (below : a.height < first.height) (hash : a.hash = b.hash)
      {c' : Chain} (blocks : c'.blocks = c.blocks.filter (·.height < first.height) ++ done) :
      Applied c infos (.error (.store (.invalid (.alreadyKnown b.hash)))) c'

theorem applied_of_saved (valid : c.Valid) (genesis : c.first.height = 1)
    {infos skipped : List BlockInfo} {first : BlockInfo} {rest : List BlockInfo}
    (missing : FirstMissing c infos skipped first rest) (above : 2 ≤ first.height)
    {new : List Block} (nonempty : new ≠ []) (listed : new.map Block.info <+: first :: rest)
    {r : Except SyncError Unit} {c' : Chain} (saved : Saved (c.cut (first.height - 2)) new r c') :
    Applied c infos (r.map fun _ => new.length) c' := by
  have below : (c.cut (first.height - 2)).blocks = c.blocks.filter (·.height < first.height) := by
    rw [Chain.blocks_cut, valid.filter_height_lt genesis]
    congr 1
    omega
  cases saved with
  | all => exact .replaced missing above nonempty listed (by rw [Chain.blocks_pushAll, below])
  | @known done b later split known =>
    rw [(valid.cut _).known, below] at known
    obtain ⟨a, ha, hash⟩ := List.mem_map.mp known
    obtain ⟨stored, lower⟩ := List.mem_filter.mp ha
    have first_part : done ++ [b] <+: new := ⟨later, by rw [split, List.append_assoc]; rfl⟩
    exact .known missing ((first_part.map _).trans listed) stored (by simpa using lower) hash
      (by rw [Chain.blocks_pushAll, below])

/-- What comes of replacing everything above block `n`. -/
inductive Replaced (c : Chain) (n : Nat) (pending : List BlockInfo) :
    Except SyncError Nat → Chain → Prop where
  /-- Nothing that goes on from there was to be had. -/
  | unchanged (e : SyncError) : Replaced c n pending (.error e) c
  | saved {new : List Block} (nonempty : new ≠ []) (listed : new.map Block.info <+: pending)
      {r : Except SyncError Unit} {c' : Chain} (saved : Saved (c.cut n) new r c') :
      Replaced c n pending (r.map fun _ => new.length) c'

theorem replaceFrom_run (net : Network σ) (self : NodeId) (settings : SyncSettings)
    (pending : List BlockInfo) (nodes : List NodeId) (stored : w.node.store = .ofChain c)
    (sound : c.Sound) {n : Nat} (hn : n < c.blocks.length) {position : Nat}
    (next : position = c.first.height + n + 1) :
    ∃ r w' c', (replaceFrom self settings position c.blocks[n] pending nodes).run net w =
        (some r, w') ∧
      w'.node = { w.node with store := .ofChain c' } ∧ c'.Sound ∧ Replaced c n pending r c' := by
  have same : w.node = { w.node with store := .ofChain c } := by rw [← stored]
  obtain ⟨r, w₁, fetch, picked, node⟩ := (fetchBlocks_asks self settings pending nodes).run net w
  have stored₁ : w₁.node.store = .ofChain c := by rw [node, stored]
  unfold replaceFrom
  rw [bind_eq, run_bind, fetch]
  cases r with
  | error e => exact ⟨.error e, w₁, c, rfl, node.trans same, sound, .unchanged e⟩
  | ok fetched =>
    have picked := picked fetched rfl
    simp only
    by_cases nonempty : validChain c.blocks[n] fetched = []
    · refine ⟨.error (.blocksUnavailable position), w₁, c, ?_, node.trans same, sound, .unchanged _⟩
      simp only [takeOver, nonempty]
      rfl
    · obtain ⟨r, w', c', hrun, hw, saved, sound'⟩ :=
        takeOver_run net stored₁ sound hn next picked.distinct nonempty
      have listed := ((validChain_isPrefix c.blocks[n] fetched).map Block.info).trans picked.listed
      exact ⟨_, w', c', hrun, by rw [hw.node, node], sound', .saved nonempty listed saved⟩

/-- What comes of applying a view, with the infos that are pending as they are computed. -/
inductive Attempted (c : Chain) (infos : List BlockInfo) : Except SyncError Nat → Chain → Prop where
  | nothing (none : ∀ lowest ∈ infos.head?,
      pendingInfos (c.span lowest.height infos.length) infos = []) : Attempted c infos (.ok 0) c
  | unchanged (e : SyncError) : Attempted c infos (.error e) c
  | replaced {lowest first : BlockInfo} {rest : List BlockInfo} (hl : infos.head? = some lowest)
      (pending : pendingInfos (c.span lowest.height infos.length) infos = first :: rest) {n : Nat}
      (next : first.height = c.first.height + n + 1) (above : 2 ≤ first.height)
      {r : Except SyncError Nat} {c' : Chain} (replaced : Replaced c n (first :: rest) r c') :
      Attempted c infos r c'

/-- Wherever the chain begins. -/
theorem apply_attempted (net : Network σ) (self : NodeId) (settings : SyncSettings) (view : View)
    (stored : w.node.store = .ofChain c) (sound : c.Sound) :
    Ensures net (fun r w' => ∃ c', w'.node = { w.node with store := .ofChain c' } ∧ c'.Sound ∧
        Attempted c view.infos r c')
      (apply self settings view) w := by
  have same : w.node = { w.node with store := .ofChain c } := by rw [← stored]
  unfold apply
  split
  · rename_i empty
    exact ⟨c, same, sound, .nothing (by rw [empty]; nofun)⟩
  · rename_i lowest others hinfos
    have hl : view.infos.head? = some lowest := by rw [hinfos]; rfl
    refine .of_run_bind (run_infosInRange stored _ _) ?_
    split
    · rename_i none
      refine ⟨c, same, sound, .nothing fun i hi => ?_⟩
      rw [hl] at hi
      cases hi
      exact none
    · rename_i first rest pending
      by_cases above : 2 ≤ first.height
      · rw [if_neg (by omega)]
        refine .of_run_bind (run_blockAt stored _) ?_
        cases found : c.at? (first.height - 1) with
        | none => exact ⟨c, same, sound, .unchanged _⟩
        | some parent =>
          obtain ⟨low, at_n⟩ := Chain.getElem?_of_at? found
          obtain ⟨hn, rfl⟩ := List.getElem?_eq_some_iff.mp at_n
          have next : first.height = c.first.height + (first.height - 1 - c.first.height) + 1 := by
            omega
          obtain ⟨r, w', c', ran, node, sound', replaced⟩ := replaceFrom_run net self settings
            (first :: rest) view.nodes stored sound hn next
          exact .of_run ran ⟨c', node, sound', .replaced hl pending next above replaced⟩
      · rw [if_pos (by omega)]
        exact ⟨c, same, sound, .unchanged _⟩

/-- On a chain that starts at position 1 the pending infos are those from the first missing one on.
-/
theorem Attempted.applied {infos : List BlockInfo} {r : Except SyncError Nat} {c' : Chain}
    (h : Attempted c infos r c') (valid : c.Valid) (genesis : c.first.height = 1)
    (sound' : c'.Sound) : Applied c infos r c' ∧ (Increasing infos → c'.Valid) := by
  -- nothing is read for a view that starts at position 0, so all of it is pending
  have unread : ∀ {lowest : BlockInfo}, ¬ 1 ≤ lowest.height →
      pendingInfos (c.span lowest.height infos.length) infos = infos := by
    intro lowest low
    rw [Chain.span, Chain.range, if_pos (by omega), List.map_nil, pendingInfos_nothing_stored]
  cases h with
  | nothing none =>
    refine ⟨.nothing fun i hi => ?_, fun _ => valid⟩
    cases hl : infos.head? with
    | none =>
      rw [List.head?_eq_none_iff.mp hl] at hi
      cases hi
    | some lowest =>
      have none := none lowest hl
      by_cases hp : 1 ≤ lowest.height
      · exact pendingInfos_nil valid genesis hl hp none i hi
      · rw [unread hp] at none
        rw [none] at hi
        cases hi
  | unchanged e => exact ⟨.unchanged e, fun _ => valid⟩
  | @replaced lowest first rest hl pending n next above _ _ replaced =>
    have hp : 1 ≤ lowest.height := by
      by_contra low
      rw [unread low] at pending
      rw [pending] at hl
      cases hl
      omega
    obtain ⟨skipped, missing⟩ := pendingInfos_cons valid genesis hl hp pending
    obtain rfl : n = first.height - 2 := by omega
    cases replaced with
    | unchanged e => exact ⟨.unchanged e, fun _ => valid⟩
    | saved nonempty listed saved =>
      refine ⟨applied_of_saved valid genesis missing above nonempty listed saved, ?_⟩
      intro increasing
      have pending := increasing.sublist (missing.split ▸ List.sublist_append_right ..)
      refine saved.valid (valid.cut _) sound' pending listed ?_
      exact valid.below_pending genesis (by omega : first.height = _) pending

theorem apply_ensures (net : Network σ) (self : NodeId) (settings : SyncSettings) (view : View)
    (stored : w.node.store = .ofChain c) (valid : c.Valid) (genesis : c.first.height = 1) :
    Ensures net (fun r w' => ∃ c', w'.node = { w.node with store := .ofChain c' } ∧
        Applied c view.infos r c' ∧ c'.Sound ∧ (Increasing view.infos → c'.Valid))
      (apply self settings view) w := by
  refine (apply_attempted net self settings view stored valid.toSound).mono ?_
  intro r w' ended
  obtain ⟨c', node, sound', attempted⟩ := ended
  obtain ⟨applied, upwards⟩ := attempted.applied valid genesis sound'
  exact ⟨c', node, applied, sound', upwards⟩

/-- **All or nothing.** Applying a view ends with one of the outcomes of `Applied`. The first
missing info differs from what is stored, or it is stored but its position was not read because
the view has gaps: then it is downloaded again, and what was above it is gone. The chain can pass
the last position only if the view lists position 0 after it. -/
theorem apply_outcome (net : Network σ) (self : NodeId) (settings : SyncSettings) (view : View)
    (stored : w.node.store = .ofChain c) (valid : c.Valid) (genesis : c.first.height = 1) :
    ∃ r w' c', (apply self settings view).run net w = (some r, w') ∧
      w'.node = { w.node with store := .ofChain c' } ∧ Applied c view.infos r c' ∧ c'.Sound ∧
      (Increasing view.infos → c'.Valid) := by
  obtain ⟨r, w', ran, c', outcome⟩ :=
    (apply_ensures net self settings view stored valid genesis).run
  exact ⟨r, w', c', ran, outcome⟩

/-- A node with the genesis block only, and a peer that has nothing to offer but a second block. -/
theorem apply_outcome_second :
    let peers : Simulation.Peers :=
      { peers := [⟨"peer", 0, .fixed [] [Sample.second]⟩]
        failing := []
        members := ["peer"]
        issued := 0
        announced := []
        refusesBroadcasts := false
        now := 0 }
    let w : World Simulation.Peers :=
      ⟨.new "self" .testing .testing 50 (.ofChain .new) 0, peers, []⟩
    let view : View := ⟨["peer"], [Block.genesis.info, Sample.second.info]⟩
    w.node.store = .ofChain .new ∧ Chain.new.Valid ∧ Chain.new.first.height = 1 ∧
      ∃ r w' c', (apply "self" .testing view).run Simulation.Peers.network w = (some r, w') ∧
        w'.node = { w.node with store := .ofChain c' } ∧ Applied .new view.infos r c' ∧
        c'.Sound ∧ (Increasing view.infos → c'.Valid) := by
  refine ⟨rfl, Chain.valid_start _, rfl, ?_⟩
  exact apply_outcome _ _ _ _ rfl (Chain.valid_start _) rfl

end Reconcile

end ChainNode
