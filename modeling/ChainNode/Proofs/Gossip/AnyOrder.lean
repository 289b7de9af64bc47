import ChainNode.Proofs.Gossip.Delivery
import ChainNode.Proofs.SeenCache.Origin

/-!
# Blocks that come in any order

What was looked at is remembered, whatever came of it. So the order in which blocks come in has one
effect only: a block that came too early is not looked at again before it is forgotten, although it
would follow the head by then.

* `hearAll_spec`: the chain and the cache after any deliveries, the run.
* `Remembered`, `remembered_iff_contains`: which blocks are duplicates, told from the deliveries.
* `accepted_unless_remembered`: what becomes of a block that follows the head.
-/
namespace ChainNode.Gossip

open Program

variable {σ : Type}

section

variable (net : Network σ) (self : NodeId) (settings : SyncSettings) (rounds : Nat)
  {d : Delivery} {w : World σ} {c : Chain} {ds : List Delivery}

/-! ## Any deliveries -/

def hearAll (ds : List Delivery) (w : World σ) : World σ :=
  ds.foldl (fun w d => (hear net self settings rounds d w).2) w

/-- The hashes of the blocks that were looked at, all but the duplicates. -/
def looked : List Delivery → World σ → List Label
  | [], _ => []
  | d :: ds, w =>
    (if isDuplicate (hear net self settings rounds d w).1 then [] else [d.block.hash]) ++
      looked ds (hear net self settings rounds d w).2

/-- What the deliveries ask of the cache. -/
def offers (ds : List Delivery) : List (Nat × SeenCache.Call Label) :=
  ds.map fun d => (d.now, .offer d.block.hash)

/-- **Run.** Whatever is delivered and whatever peers do meanwhile, the chain is sound, and the
cache was offered what was delivered. -/
theorem hearAll_spec (stored : w.node.store = .ofChain c) (sound : c.Sound) (ds : List Delivery) :
    (∃ c', (hearAll net self settings rounds ds w).node.store = .ofChain c' ∧ c'.Sound) ∧
      (hearAll net self settings rounds ds w).node.seen =
        SeenCache.runAll (offers ds) w.node.seen ∧
      looked net self settings rounds ds w = SeenCache.admitted (offers ds) w.node.seen := by
  induction ds generalizing w c with
  | nil => exact ⟨⟨c, stored, sound⟩, rfl, rfl⟩
  | cons d ds ih =>
    obtain ⟨⟨c', stored', sound'⟩, seen, duplicate⟩ :=
      hear_spec net self settings rounds stored sound d
    obtain ⟨chain, seen', admits⟩ := ih stored' sound'
    refine ⟨chain, seen'.trans (by rw [seen]; rfl), ?_⟩
    have here : (if isDuplicate (hear net self settings rounds d w).1 then [] else [d.block.hash]) =
        (SeenCache.Call.offer d.block.hash).admits d.now w.node.seen := by
      rw [duplicate, SeenCache.Call.admits]
      cases (w.node.seen.insertIfAbsent d.now d.block.hash).1 <;> rfl
    rw [looked, here, admits, seen]
    rfl

/-! ## Which blocks are duplicates -/

/-- Among the deliveries `ds` to the world `w` the block of `d` was looked at, less than the time
to live before `d`, and fewer other blocks than the cache has room for have been looked at since. -/
def Remembered (ds : List Delivery) (w : World σ) (d : Delivery) : Prop :=
  ∃ before e after, ds = before ++ e :: after ∧ e.block.hash = d.block.hash ∧
    d.now - e.now < settings.cacheTtlMs ∧
    let first := hear net self settings rounds e (hearAll net self settings rounds before w)
    isDuplicate first.1 = false ∧
      ((looked net self settings rounds after first.2).toFinset.erase d.block.hash).card <
        max settings.cacheCapacity 1

/-- A delivery among others, told of the calls to the cache. -/
theorem looked_after (stored : w.node.store = .ofChain c) (sound : c.Sound)
    (before after : List Delivery) (e : Delivery) :
    let first := hear net self settings rounds e (hearAll net self settings rounds before w)
    let cache := SeenCache.runAll (offers before) w.node.seen
    isDuplicate first.1 = cache.contains e.now e.block.hash ∧
      (cache.contains e.now e.block.hash = false →
        looked net self settings rounds after first.2 =
          SeenCache.admitted (offers after) (cache.put e.now e.block.hash)) := by
  intro first cache
  obtain ⟨⟨c', stored', sound'⟩, seen, -⟩ :=
    hearAll_spec net self settings rounds stored sound before
  obtain ⟨⟨c'', stored'', sound''⟩, seen', duplicate⟩ :=
    hear_spec net self settings rounds stored' sound' e
  obtain ⟨-, -, admits⟩ := hearAll_spec net self settings rounds stored'' sound'' after
  rw [seen] at seen' duplicate
  constructor
  · rw [duplicate, SeenCache.insertIfAbsent]
    cases cache.contains e.now e.block.hash <;> rfl
  · intro unseen
    rw [admits, seen', SeenCache.insertIfAbsent_of_not_contains unseen]

/-- A listener that starts with an empty cache remembers what the calls to the cache say. -/
theorem remembered_iff_admittedLately (stored : w.node.store = .ofChain c) (sound : c.Sound)
    (start : w.node.seen = .empty settings.cacheCapacity settings.cacheTtlMs) :
    Remembered net self settings rounds ds w d ↔
      SeenCache.AdmittedLately settings.cacheCapacity settings.cacheTtlMs d.now d.block.hash
        (offers ds) := by
  have moment := looked_after net self settings rounds stored sound
  rw [start] at moment
  constructor
  · rintro ⟨before, e, after, rfl, same, young, first, few⟩
    obtain ⟨duplicate, later⟩ := moment before after e
    have unseen := duplicate.symm.trans first
    rw [later unseen, same] at few
    refine ⟨offers before, offers after, e.now, ?_, young, same ▸ unseen, few⟩
    rw [offers, List.map_append, List.map_cons, same]
    rfl
  · rintro ⟨_, _, t, split, young, unseen, few⟩
    obtain ⟨before, rest, rfl, rfl, others⟩ := List.map_eq_append_iff.mp split
    obtain ⟨e, after, rfl, this_delivery, rfl⟩ := List.map_eq_cons_iff.mp others
    obtain ⟨rfl, offered⟩ := Prod.mk.inj this_delivery
    have same : e.block.hash = d.block.hash := SeenCache.Call.offer.inj offered
    rw [← same] at unseen few
    obtain ⟨duplicate, later⟩ := moment before after e
    refine ⟨before, e, after, rfl, same, young, duplicate.trans unseen, ?_⟩
    rw [later unseen, ← same]
    exact few

/-- It takes a block for a duplicate exactly if it remembers it. -/
theorem remembered_iff_contains (stored : w.node.store = .ofChain c) (sound : c.Sound)
    (start : w.node.seen = .empty settings.cacheCapacity settings.cacheTtlMs)
    (past : ∀ e ∈ ds, e.now ≤ d.now) : Remembered net self settings rounds ds w d ↔
      (hearAll net self settings rounds ds w).node.seen.contains d.now d.block.hash = true := by
  obtain ⟨-, seen, -⟩ := hearAll_spec net self settings rounds stored sound ds
  rw [remembered_iff_admittedLately net self settings rounds stored sound start, seen, start]
  refine ⟨SeenCache.contains_of_admittedLately ?_, SeenCache.admittedLately_of_contains⟩
  intro call offered
  obtain ⟨e, delivered, rfl⟩ := List.mem_map.mp offered
  exact past e delivered

/-! ## Blocks that follow the head -/

/-- **A block that follows the head is lost only while it is remembered.** Whatever was delivered
before, in any order and as often as may be, and whatever peers answered meanwhile: a block that
follows the head and is not stored becomes the head, unless it was looked at lately; then it is a
duplicate, and the chain stays as it is. -/
theorem accepted_unless_remembered (stored : w.node.store = .ofChain c) (sound : c.Sound)
    (start : w.node.seen = .empty settings.cacheCapacity settings.cacheTtlMs)
    (past : ∀ e ∈ ds, e.now ≤ d.now) :
    let before := hearAll net self settings rounds ds w
    let after := hear net self settings rounds d before
    Block.Follows before.chain.head d.block → d.block.hash ∉ before.chain.blocks.map Block.hash →
      (Remembered net self settings rounds ds w d →
        after.1 = some (.ok .duplicate) ∧ after.2.chain = before.chain) ∧
      (¬ Remembered net self settings rounds ds w d →
        after.1 = some (.ok .accepted) ∧ after.2.chain = before.chain.push d.block ∧
          after.2.chain.head = d.block) := by
  intro before after follows new
  obtain ⟨⟨c', stored', sound'⟩, -, -⟩ := hearAll_spec net self settings rounds stored sound ds
  have chain : before.chain = c' := congrArg Store.chain stored'
  rw [chain] at follows new ⊢
  have saved : c'.save d.block = .ok (c'.push d.block) :=
    Chain.save_eq_ok_iff.mpr ⟨fun known => new ((sound'.known _).mp known), follows, rfl⟩
  rw [remembered_iff_contains net self settings rounds stored sound start past]
  rcases hear_cases net self settings rounds stored' sound' with
    ⟨seen, again, node⟩ | ⟨unseen, -, d', node, -, accepts⟩
  · refine ⟨fun _ => ⟨again, ?_⟩, fun unseen => absurd seen unseen⟩
    rw [World.chain, node]
    exact chain
  · refine ⟨fun seen => by simp [unseen] at seen, fun _ => ?_⟩
    obtain ⟨accepted, rfl⟩ := accepts _ saved
    have written : after.2.chain = c'.push d.block := congrArg (·.store.chain) node
    exact ⟨accepted, written, by rw [written, Chain.head_push]⟩

end

/-! ## A block that comes too early -/

/-- There is nobody else. -/
def deserted : Network Unit where
  members _ := []
  shuffle ids peers := (ids, peers)
  newId peers := (.numbered 0, peers)
  latency _ _ _ := 0
  handle _ _ peers := (.error .noActivePeers, peers)
  broadcast _ _ peers := (.ok (), peers)
  meanwhile n peers := (n, peers)

theorem askers_deserted (self : NodeId) {request : BatchRequest} (all : request.selected = none)
    (w : World Unit) : (Reconcile.askers self request).run deserted w = (some (.ok []), w) := by
  simp [Reconcile.askers, all, run_bind, run_command, Command.exec, deserted, run]

theorem fetchInfos_deserted (self : NodeId) (settings : SyncSettings) (start : UInt64)
    (size : UInt32) (w : World Unit) :
    (Reconcile.fetchInfos self settings start size).run deserted w =
      (some (.error .noActivePeers), w) := by
  have nobody : (Reconcile.askers self
      (Reconcile.infoRequest settings (.numbered 0) start size)).run deserted w =
        (some (.ok []), w) := askers_deserted self rfl w
  have id : Command.newId.exec deserted w = (.numbered 0, w) := rfl
  unfold Reconcile.fetchInfos
  rw [bind_eq, run_bind, run_command, id]
  simp only
  rw [Reconcile.askInfos, bind_eq, run_bind, nobody]
  rfl

/-- Catching up comes to nothing. -/
theorem hear_ahead_deserted (self : NodeId) (settings : SyncSettings) (rounds : Nat) {d : Delivery}
    {w : World Unit} {c : Chain} (stored : w.node.store = .ofChain c)
    (unseen : w.node.seen.contains d.now d.block.hash = false)
    (ahead : c.head.nextPosition < d.block.position) :
    hear deserted self settings (rounds + 1) d w =
      (some (.error .noActivePeers), { w with node := noted d w.node }) := by
  let w₁ : World Unit := { w with node := noted d w.node }
  have head : (Program.store SyncError.store Store.latestBlock).run deserted w₁ =
      (some (.ok c.head), w₁) := run_latestBlock (w := w₁) stored
  have nobody := fetchInfos_deserted self settings c.head.position settings.batchSize w₁
  rw [hear_of_not_contains _ _ _ _ unseen, lookAt, bind_eq, run_bind, head]
  simp only
  rw [if_neg (UInt64.ne_of_lt ahead).symm, if_pos ahead, bind_eq, run_bind, Reconcile.catchUp,
    bind_eq, run_bind, head]
  simp only [bind_eq, run_bind, Reconcile.fetchConfident, nobody]
  rfl

/-- A node alone, with the genesis block. -/
def alone : World Unit := ⟨Node.new "self" .testing .testing 50 (.ofChain .new) 0, (), []⟩

/-- The third block comes, then the second. -/
def tooEarly : List Delivery := [⟨0, Sample.third⟩, ⟨0, Sample.second⟩]

def behind : World Unit := hearAll deserted "self" .testing 1 tooEarly alone

/-- The third block is looked at too early, the second is saved. -/
theorem chain_tooEarly :
    behind.chain = Chain.new.push Sample.second := by
  have ahead : Chain.new.head.nextPosition < Sample.third.position := by decide
  let w : World Unit := { alone with node := noted ⟨0, Sample.third⟩ alone.node }
  have first : hear deserted "self" .testing 1 ⟨0, Sample.third⟩ alone =
      (some (.error .noActivePeers), w) :=
    hear_ahead_deserted "self" .testing 0 (c := Chain.new) rfl
      (Solo.contains_eq_false List.not_mem_nil) ahead
  have unseen : w.node.seen.contains 0 Sample.second.hash = false := by
    refine Solo.contains_eq_false ?_
    have differ : Sample.second.hash ≠ Sample.third.hash := fun same =>
      Sample.hash_third_notMem (by simp [same])
    simpa [w, noted, alone, Node.new, SeenCache.put, SeenCache.empty, SyncSettings.testing]
      using differ
  have both : behind = (hear deserted "self" .testing 1 ⟨0, Sample.second⟩ w).2 := by
    rw [behind, hearAll, tooEarly, List.foldl_cons, first, List.foldl_cons, List.foldl_nil]
  rw [both, World.chain]
  rcases hear_cases deserted "self" .testing 1 (d := ⟨0, Sample.second⟩) (w := w) rfl
    (Chain.sound_start .genesis) with ⟨seen, -⟩ | ⟨-, -, c', node, -, accepts⟩
  · simp [unseen] at seen
  · obtain ⟨-, same⟩ := accepts _ Chain.save_second
    exact (congrArg (·.store.chain) node).trans same

/-- The third block follows the head by now. -/
theorem follows_tooEarly :
    Block.Follows behind.chain.head Sample.third ∧
      Sample.third.hash ∉ behind.chain.blocks.map Block.hash := by
  rw [chain_tooEarly]
  exact ⟨Sample.follows_third, Sample.hash_third_notMem⟩

theorem remembered_tooEarly :
    Remembered deserted "self" .testing 1 tooEarly alone ⟨0, Sample.third⟩ := by
  refine (remembered_iff_admittedLately deserted "self" .testing 1 (c := Chain.new) rfl
    (Chain.sound_start .genesis) rfl).mpr ?_
  refine ⟨[], offers [⟨0, Sample.second⟩], 0, rfl, by decide,
    Solo.contains_eq_false List.not_mem_nil, ?_⟩
  have one := SeenCache.length_admitted_le (offers [⟨0, Sample.second⟩])
    ((SeenCache.empty SyncSettings.testing.cacheCapacity SyncSettings.testing.cacheTtlMs).put 0
      Sample.third.hash)
  refine Nat.lt_of_le_of_lt ?_ (show 1 < max SyncSettings.testing.cacheCapacity 1 by decide)
  exact (Finset.card_erase_le.trans (List.toFinset_card_le _)).trans one

/-- **A block that came too early is lost.** The third block is not looked at again at that time,
although it follows the head and is not stored. -/
theorem third_lost :
    Block.Follows behind.chain.head Sample.third ∧
      Sample.third.hash ∉ behind.chain.blocks.map Block.hash ∧
      (hear deserted "self" .testing 1 ⟨0, Sample.third⟩ behind).1 = some (.ok .duplicate) ∧
      (hear deserted "self" .testing 1 ⟨0, Sample.third⟩ behind).2.chain.head = Sample.second := by
  obtain ⟨follows, new⟩ := follows_tooEarly
  have chain := chain_tooEarly
  unfold behind at follows new chain ⊢
  have past : ∀ e ∈ tooEarly, e.now ≤ 0 := by simp [tooEarly]
  have seen := (remembered_iff_contains deserted "self" .testing 1 (d := ⟨0, Sample.third⟩)
    (w := alone) (c := Chain.new) rfl (Chain.sound_start .genesis) rfl past).mp remembered_tooEarly
  obtain ⟨duplicate, same⟩ := hear_again deserted "self" .testing 1 seen
  exact ⟨follows, new, duplicate, by rw [same, chain, Chain.head_push]⟩

/-- When its time to live is over the third block is looked at once more, and becomes the head. -/
theorem third_accepted :
    (∀ e ∈ tooEarly, e.now ≤ 60000) ∧
      Block.Follows behind.chain.head Sample.third ∧
      Sample.third.hash ∉ behind.chain.blocks.map Block.hash ∧
      ¬ Remembered deserted "self" .testing 1 tooEarly alone ⟨60000, Sample.third⟩ ∧
      (hear deserted "self" .testing 1 ⟨60000, Sample.third⟩ behind).1 = some (.ok .accepted) ∧
      (hear deserted "self" .testing 1 ⟨60000, Sample.third⟩ behind).2.chain.head =
        Sample.third := by
  obtain ⟨follows, new⟩ := follows_tooEarly
  unfold behind at follows new ⊢
  have past : ∀ e ∈ tooEarly, e.now ≤ 60000 := by simp [tooEarly]
  have forgotten : ¬ Remembered deserted "self" .testing 1 tooEarly alone
      ⟨60000, Sample.third⟩ := by
    rintro ⟨before, e, after, split, -, young, -⟩
    have times : ∀ e ∈ tooEarly, e.now = 0 := by simp [tooEarly]
    rw [times e (by simp [split])] at young
    exact absurd young (by decide)
  have outcome := accepted_unless_remembered deserted "self" .testing 1
    (d := ⟨60000, Sample.third⟩) (w := alone) (c := Chain.new) rfl (Chain.sound_start .genesis) rfl
    past follows new
  obtain ⟨accepted, -, head⟩ := outcome.2 forgotten
  exact ⟨past, follows, new, forgotten, accepted, head⟩

end ChainNode.Gossip
