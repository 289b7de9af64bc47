import Mathlib.Logic.Relation
import ChainNode.Proofs.Chain.Position
import ChainNode.Proofs.Forge.Acceptance

/-!
# Difficulty follows the last mined block

A forger looks for the highest mined block and leaves the genesis block out afterwards. On a chain
that starts there this comes to one thing however voted and mined blocks are mixed: `works`, the
list of what was mined above genesis, and its last entry. Every block that is saved adds what was
mined for it at the end of that list, so a run of forging and saving is a walk of difficulties.

A forged block may be saved long after it was forged, or never. `Bench` keeps those that are around;
one that is accepted was forged on the very blocks that it is saved on, because positions count
them.

* `nextDifficulty_latestOfType`: what a forger reads, in terms of `works`.
* `due_nextDifficulty`: which difficulty is due, in terms of the blocks.
* `Bench.Sound.step`, `Bench.Sound.run`: what a step and a run of steps do to `works`.
* `forge_declares_due`: what a forged block declares, and the walk.
-/
namespace ChainNode

/-- The difficulties of two mined blocks differ by one at most. -/
def ProofOfWork.Near (v w : ProofOfWork) : Prop :=
  w.difficulty.toNat ≤ v.difficulty.toNat + 1 ∧ v.difficulty.toNat ≤ w.difficulty.toNat + 1

namespace Chain

/-- What was mined above the first block, in ascending order. -/
def works (c : Chain) : List ProofOfWork := c.later.filterMap Block.work?

/-- The block `b` is mined and above genesis, and no block above it is mined. -/
structure LastMined (c : Chain) (b : Block) (work : ProofOfWork) : Prop where
  mem : b ∈ c.blocks
  above : 1 < b.height
  mined : b.consent = .proofOfWork work
  highest : ∀ a ∈ c.blocks, b.height < a.height → a.consent = .proofOfMajority

theorem works_push (c : Chain) (b : Block) : (c.push b).works = c.works ++ b.work?.toList := by
  rw [works, push, List.filterMap_append, works]
  cases h : b.work? <;> simp [h]

end Chain

namespace Block

theorem work?_eq_some_iff {b : Block} {work : ProofOfWork} :
    b.work? = some work ↔ b.consent = .proofOfWork work := by
  rw [work?]
  cases b.consent <;> simp [Consent.work?]

theorem work?_eq_none_iff {b : Block} : b.work? = none ↔ b.consent = .proofOfMajority := by
  rw [work?]
  cases b.consent <;> simp [Consent.work?]

/-- The first mined block of a list, and what was mined first in it. -/
theorem bind_work?_find? (bs : List Block) :
    (bs.find? (·.consent.type = .proofOfWork)).bind work? = bs.findSome? work? := by
  induction bs with
  | nil => rfl
  | cons b bs ih =>
    rw [List.find?_cons, List.findSome?_cons]
    cases mined : b.consent with
    | proofOfWork work => simp [Consent.type, work?_eq_some_iff.mpr mined]
    | proofOfMajority => simpa [Consent.type, work?_eq_none_iff.mpr mined] using ih

/-- A hash that names its block has 128 digits, so it starts with no more zeros than that. -/
theorem difficulty_le_of_checkContents {b : Block} {work : ProofOfWork}
    (checked : b.checkContents = .ok ()) (mined : b.consent = .proofOfWork work) :
    work.difficulty.toNat ≤ 128 := by
  have correct := isCorrect_of_checkContents checked
  have digits : b.hash.chars.toList.length = 128 := by
    have same := congrArg List.length (sameHash_iff.mp correct)
    rw [List.length_map, List.length_map, computedHash, String.length_toList,
      length_fingerprint] at same
    exact same.symm
  have zeros : leadingZeros b.hash ≤ 128 :=
    digits ▸ (List.takeWhile_sublist _).length_le
  have difficult : work.difficulty.toNat ≤ leadingZeros b.hash := by
    unfold checkContents checkWork at checked
    rw [if_pos correct, work?_eq_some_iff.mpr mined] at checked
    by_cases meets : meetsDifficulty b.hash work.difficulty = true
    · exact meetsDifficulty_iff.mp meets
    · simp [meets] at checked
  omega

end Block

namespace Chain.Valid

variable {c : Chain} {b : Block}

theorem height_of_mem_later (valid : c.Valid) (hb : b ∈ c.later) : c.first.height < b.height := by
  obtain ⟨i, hi, rfl⟩ := List.mem_iff_getElem.mp hb
  have hi' : i + 1 < c.blocks.length := by
    rw [length_blocks]
    omega
  have height := valid.height_getElem hi'
  have same : c.blocks[i + 1] = c.later[i] := rfl
  rw [same] at height
  omega

theorem checkContents_of_mem_later (valid : c.Valid) (hb : b ∈ c.later) :
    b.checkContents = .ok () := by
  obtain ⟨i, hi, rfl⟩ := List.mem_iff_getElem.mp hb
  have hi' : i + 1 < c.blocks.length := by
    rw [length_blocks]
    omega
  exact (valid.follows_getElem hi').contents

variable (genesis : c.first.height = 1)

include genesis

theorem isGenesis_of_mem_later (valid : c.Valid) (hb : b ∈ c.later) : b.isGenesis = false := by
  have above := valid.height_of_mem_later hb
  rw [Block.isGenesis, beq_eq_false_iff_ne]
  intro one
  have height : b.height = 1 := congrArg UInt64.toNat one
  omega

/-- The highest mined block above genesis is the one that was mined last. -/
theorem last_work (valid : c.Valid) :
    ((c.latestOfType .proofOfWork).filter fun b => !b.isGenesis).bind Block.work? =
      c.works.getLast? := by
  have last : c.works.getLast? = c.later.reverse.findSome? Block.work? := List.getLast?_filterMap
  rw [last, ← Block.bind_work?_find?, latestOfType, blocks, List.reverse_cons, List.find?_append]
  cases found : c.later.reverse.find? (·.consent.type = .proofOfWork) with
  | some b =>
    have later : b ∈ c.later := List.mem_reverse.mp (List.mem_of_find?_eq_some found)
    have above := valid.isGenesis_of_mem_later genesis later
    simp [Option.filter, above]
  | none =>
    have first : c.first.isGenesis = true := beq_iff_eq.mpr (UInt64.toNat_inj.mp genesis)
    rw [Option.none_or]
    cases held : [c.first].find? (·.consent.type = .proofOfWork) with
    | none => rfl
    | some b =>
      obtain rfl : b = c.first := List.mem_singleton.mp (List.mem_of_find?_eq_some held)
      simp [Option.filter, first]

/-- What was mined last was mined for a block with nothing mined above it. -/
theorem lastMined_of_getLast? (valid : c.Valid) {work : ProofOfWork}
    (last : c.works.getLast? = some work) : ∃ b ∈ c.later, c.LastMined b work := by
  rw [works, List.getLast?_filterMap] at last
  obtain ⟨upper, b, lower, split, mined, voted⟩ := List.findSome?_eq_some_iff.mp last
  have later : c.later = lower.reverse ++ b :: upper.reverse := by
    have reversed := congrArg List.reverse split
    simpa using reversed
  have hb : b ∈ c.later := by simp [later]
  have above := valid.height_of_mem_later hb
  refine ⟨b, hb, List.mem_cons_of_mem _ hb, by omega, Block.work?_eq_some_iff.mp mined, ?_⟩
  intro a ha higher
  have order := valid.increasing_blocks
  have blocks : c.blocks = (c.first :: lower.reverse) ++ b :: upper.reverse := by
    rw [Chain.blocks, later, List.cons_append]
  rw [blocks, List.pairwise_append] at order
  rw [blocks] at ha
  rcases List.mem_append.mp ha with below | ha
  · have lower := order.2.2 a below b List.mem_cons_self
    omega
  · rcases List.mem_cons.mp ha with rfl | ha
    · omega
    · exact Block.work?_eq_none_iff.mp (voted a (List.mem_reverse.mp ha))

end Chain.Valid

/-! ## What is due -/

namespace Forge

variable {settings : ForgeSettings} {c : Chain}

/-- The difficulty that the block after a chain has to declare. -/
inductive Due (settings : ForgeSettings) (c : Chain) : Nat → Prop where
  | initial (none : ∀ b ∈ c.blocks, 1 < b.height → b.consent = .proofOfMajority) :
      Due settings c settings.initialDifficulty.toNat
  | faster {b : Block} {work : ProofOfWork} (last : c.LastMined b work)
      (fast : work.spent.toNat < settings.targetRateMs) :
      Due settings c (work.difficulty.toNat + 1)
  | slower {b : Block} {work : ProofOfWork} (last : c.LastMined b work)
      (slow : settings.targetRateMs < work.spent.toNat) :
      Due settings c (work.difficulty.toNat - 1)
  | onTarget {b : Block} {work : ProofOfWork} (last : c.LastMined b work)
      (even : work.spent.toNat = settings.targetRateMs) : Due settings c work.difficulty.toNat

theorem toNat_retarget (previous : ProofOfWork) (target : Nat) :
    (retarget previous target).toNat =
      if target < previous.spent.toNat then previous.difficulty.toNat - 1
      else if previous.spent.toNat < target then
        min (previous.difficulty.toNat + 1) (UInt32.size - 1)
      else previous.difficulty.toNat := by
  have small := previous.difficulty.toNat_lt
  have size : UInt32.size = 2 ^ 32 := rfl
  unfold retarget
  split
  · exact UInt32.toNat_ofNat_of_lt' (by omega)
  · split
    · exact UInt32.toNat_ofNat_of_lt' (by omega)
    · rfl

theorem near_retarget {previous work : ProofOfWork} {target : Nat}
    (next : work.difficulty = retarget previous target) : previous.Near work := by
  have small := previous.difficulty.toNat_lt
  have size : UInt32.size = 2 ^ 32 := rfl
  rw [ProofOfWork.Near, next, toNat_retarget]
  split
  · omega
  · split <;> omega

/-- What a forger asks of the next block, in terms of what was mined. -/
theorem nextDifficulty_latestOfType (valid : c.Valid) (genesis : c.first.height = 1)
    (settings : ForgeSettings) :
    nextDifficulty settings (c.latestOfType .proofOfWork) =
      (c.works.getLast?.map (retarget · settings.targetRateMs)).getD
        settings.initialDifficulty := by
  rw [nextDifficulty, valid.last_work genesis]
  cases c.works.getLast? <;> rfl

/-- No difficulty of a valid chain is near the largest number that a word can hold. -/
theorem due_nextDifficulty (valid : c.Valid) (genesis : c.first.height = 1)
    (settings : ForgeSettings) :
    Due settings c (nextDifficulty settings (c.latestOfType .proofOfWork)).toNat := by
  rw [nextDifficulty_latestOfType valid genesis]
  cases last : c.works.getLast? with
  | none =>
    refine .initial fun b hb above => ?_
    have unmined : ∀ b ∈ c.later, b.work? = none := by
      rw [List.getLast?_eq_none_iff, Chain.works, List.filterMap_eq_nil_iff] at last
      exact last
    rcases List.mem_cons.mp hb with rfl | later
    · omega
    · exact Block.work?_eq_none_iff.mp (unmined b later)
  | some work =>
    obtain ⟨b, later, mined⟩ := valid.lastMined_of_getLast? genesis last
    have bounded := Block.difficulty_le_of_checkContents (valid.checkContents_of_mem_later later)
      mined.mined
    have size : UInt32.size = 2 ^ 32 := rfl
    rw [Option.map_some, Option.getD_some, toNat_retarget]
    split
    · rename_i slow
      exact .slower mined slow
    · split
      · rename_i fast
        rw [Nat.min_eq_left (by omega)]
        exact .faster mined fast
      · exact .onTarget mined (by omega)

/-! ## What is declared -/

variable {clock : ForgeClock} {stops : Interruptions} {ts : List Transaction} {b : Block}

theorem sealBlock_declares {head : Block} {last : Option Block}
    (h : sealBlock settings clock stops head last ts = .ok b) :
    ∃ work, b.consent = .proofOfWork work ∧ work.difficulty = nextDifficulty settings last := by
  unfold sealBlock at h
  split at h
  · cases h
  · split at h
    · cases h
    · simp only at h
      split at h
      · rename_i found
        cases h
        obtain ⟨m, rfl, -⟩ := searchNonce_sealed found
        exact ⟨_, rfl, rfl⟩
      · cases h
      · cases h

/-- The block declares what follows from the chain that the store shows, whatever the store refuses
otherwise. -/
theorem forge_declares {s : Store} (forged : (forge settings clock stops ts s).1 = .ok b) :
    ∃ work, b.consent = .proofOfWork work ∧
      work.difficulty = nextDifficulty settings (s.chain.latestOfType .proofOfWork) := by
  unfold forge at forged
  split at forged
  · cases forged
  · have same := (Store.reads_latestBlock s).1
    split at forged
    · cases forged
    · rename_i head t read
      rw [read] at same
      have shown := (Store.reads_latestOfType .proofOfWork t).2
      split at forged
      · cases forged
      · rename_i last u read'
        have latest : last = t.chain.latestOfType .proofOfWork := shown last (by rw [read'])
        have held : t.chain = s.chain := same
        rw [← held, ← latest]
        exact sealBlock_declares forged

/-! ## Runs of forging and saving -/

/-- A store, and the blocks that were forged on it so far. -/
structure Bench where
  store : Store
  forged : List Block

/-- One step: a block is forged on what the store then shows, with any settings, or it is tried to
save a block that was forged before or that was voted for. -/
inductive Bench.Step : Bench → Bench → Prop where
  | forge (s : Store) (forged : List Block) (settings : ForgeSettings) (clock : ForgeClock)
      (stops : Interruptions) (ts : List Transaction) :
      Step ⟨s, forged⟩
        { store := (Forge.forge settings clock stops ts s).2
          forged := (Forge.forge settings clock stops ts s).1.toOption.toList ++ forged }
  | save (s : Store) (forged : List Block) (b : Block)
      (whence : b ∈ forged ∨ b.consent = .proofOfMajority) :
      Step ⟨s, forged⟩ ⟨(Store.save b s).2, forged⟩

/-- The block names the head of the chain `c` and declares what was due there. -/
def DeclaredOn (c : Chain) (b : Block) : Prop :=
  b.lastHash = c.head.hash ∧ ∃ settings work, b.consent = .proofOfWork work ∧
    work.difficulty = nextDifficulty settings (c.latestOfType .proofOfWork)

/-- What holds all along a run that began with the chain `c`: as long as there are positions for the
blocks, the difficulties that came are a walk, and what was forged was forged on a lower part of
what is there now. -/
structure Bench.Sound (c : Chain) (w : Bench) : Prop where
  sound : w.store.chain.Sound
  genesis : w.store.chain.first.height = 1
  walk : w.store.chain.count < UInt64.size → ∃ new, w.store.chain.works = c.works ++ new ∧
    (c.works.getLast?.toList ++ new).IsChain ProofOfWork.Near
  forged : ∀ b ∈ w.forged, ∃ d : Chain, d.blocks <+: w.store.chain.blocks ∧ DeclaredOn d b

/-- A block that was forged on a lower part of a chain and is next on that chain was forged on the
whole of it: the hash that it names stands there only once. -/
theorem DeclaredOn.of_follows {c d : Chain} (declared : DeclaredOn d b) (sound : c.Sound)
    (lower : d.blocks <+: c.blocks) (follows : Block.Follows c.head b) : DeclaredOn c b := by
  have whole : d.blocks = c.blocks := by
    have last := c.length_later_lt
    have top : d.later.length < c.blocks.length :=
      Nat.lt_of_lt_of_le d.length_later_lt lower.length_le
    have named : c.blocks[d.later.length].hash = c.blocks[c.later.length].hash := by
      rw [← lower.getElem d.length_later_lt, d.getElem_length_later, c.getElem_length_later,
        ← follows.lastHash, declared.1]
    have same := sound.index_eq top last named
    exact lower.eq_of_length (by rw [Chain.length_blocks, Chain.length_blocks, same])
  have head : d.head = c.head := by
    have last := congrArg List.getLast? whole
    rw [d.getLast?_blocks, c.getLast?_blocks] at last
    exact Option.some.inj last
  have latest : d.latestOfType .proofOfWork = c.latestOfType .proofOfWork := by
    rw [Chain.latestOfType, whole, Chain.latestOfType]
  rwa [DeclaredOn, head, latest] at declared

namespace Bench.Sound

variable {c : Chain} {w w' : Bench}

/-- The last entry of a list and what comes after it end like the list and that. -/
theorem getLast?_walk (old new : List ProofOfWork) :
    (old.getLast?.toList ++ new).getLast? = (old ++ new).getLast? := by
  rw [List.getLast?_append, List.getLast?_append]
  cases old.getLast? <;> simp

/-- A block that was forged on the whole chain continues the walk. -/
theorem continues (h : Sound c w) (fits : w.store.chain.count < UInt64.size)
    (declared : DeclaredOn w.store.chain b) :
    ∃ new, w.store.chain.works ++ b.work?.toList = c.works ++ new ∧
      (c.works.getLast?.toList ++ new).IsChain ProofOfWork.Near := by
  obtain ⟨new, works, walk⟩ := h.walk fits
  obtain ⟨-, settings, work, mined, difficulty⟩ := declared
  have valid := h.sound.valid_of_genesis h.genesis fits
  rw [nextDifficulty_latestOfType valid h.genesis, works] at difficulty
  refine ⟨new ++ [work], ?_, ?_⟩
  · rw [Block.work?_eq_some_iff.mpr mined, works, List.append_assoc]
    rfl
  · rw [← List.append_assoc, List.isChain_append]
    refine ⟨walk, List.isChain_singleton _, fun last hlast next hnext => ?_⟩
    rw [getLast?_walk] at hlast
    cases hnext
    rw [hlast, Option.map_some, Option.getD_some] at difficulty
    exact near_retarget difficulty

/-- **Step.** What is forged changes no chain; what is saved and mined is due there. -/
theorem step (h : Sound c w) (step : Step w w') : Sound c w' := by
  cases step with
  | forge s forged settings clock stops ts =>
    have same := (forge_seals settings clock stops ts s).1
    refine ⟨same ▸ h.sound, same ▸ h.genesis, same ▸ h.walk, fun b hb => ?_⟩
    rw [same]
    rcases List.mem_append.mp hb with made | before
    · have sealed : (Forge.forge settings clock stops ts s).1 = .ok b := by
        cases outcome : (Forge.forge settings clock stops ts s).1 with
        | error e => simp [outcome, Except.toOption] at made
        | ok a => simp_all [Except.toOption]
      exact ⟨s.chain, List.prefix_rfl, (forge_sealedOn sealed).lastHash, settings,
        forge_declares sealed⟩
    · exact h.forged b before
  | save s forged b whence =>
    rcases Store.run_cases (.save b) s with ⟨e, -, same⟩ | ⟨-, ⟨b', same, saved⟩ | ⟨p, n, no, -⟩⟩
    · replace same : (Store.save b s).2.chain = s.chain := same
      exact ⟨same ▸ h.sound, same ▸ h.genesis, same ▸ h.walk, same ▸ h.forged⟩
    · cases same
      obtain ⟨fresh, follows, pushed⟩ := Chain.save_eq_ok_iff.mp saved
      replace pushed : (Store.save b s).2.chain = s.chain.push b := pushed
      refine ⟨pushed ▸ h.sound.push fresh follows, pushed ▸ h.genesis, fun fits => ?_, ?_⟩
      · have below : s.chain.count < UInt64.size := by
          rw [pushed, Chain.count, Chain.blocks_push, List.length_append] at fits
          exact Nat.lt_of_le_of_lt (Nat.le_add_right _ _) fits
        simp only [pushed, Chain.works_push]
        rcases whence with made | voted
        · obtain ⟨d, lower, declared⟩ := h.forged b made
          exact h.continues below (declared.of_follows h.sound lower follows)
        · simpa only [Block.work?_eq_none_iff.mpr voted, Option.toList_none, List.append_nil]
            using h.walk below
      · simp only [pushed, Chain.blocks_push]
        intro a ha
        obtain ⟨d, lower, declared⟩ := h.forged a ha
        exact ⟨d, lower.trans (List.prefix_append _ _), declared⟩
    · cases no

/-- **Run.** By induction on the steps. -/
theorem run (h : Sound c w) (steps : Relation.ReflTransGen Step w w') : Sound c w' := by
  induction steps with
  | refl => exact h
  | tail _ s ih => exact ih.step s

end Bench.Sound

/-- **Difficulty follows the last mined block.** On a valid chain that starts at position 1, with
mined and voted blocks in any order, a block that is forged declares the initial difficulty if no
mined block lies above genesis, and else that of the highest one plus 1, minus 1 but not below 0, or
unchanged, as that one took less, more or exactly the target time. In any run of forging and saving
from there, with any settings and with voted blocks in between, what is mined comes at the end of
what was mined, and from the last difficulty before the run on each is within 1 of the next, as long
as the chain has fewer blocks than there are positions. -/
theorem forge_declares_due {s : Store} (valid : s.chain.Valid)
    (genesis : s.chain.first.height = 1) :
    (∀ settings clock stops ts b, (forge settings clock stops ts s).1 = .ok b →
      ∃ work, b.consent = .proofOfWork work ∧ Due settings s.chain work.difficulty.toNat) ∧
    ∀ s' forged, Relation.ReflTransGen Bench.Step ⟨s, []⟩ ⟨s', forged⟩ →
      s'.chain.count < UInt64.size →
      ∃ new, s'.chain.works = s.chain.works ++ new ∧
        (s.chain.works.getLast?.toList ++ new).IsChain ProofOfWork.Near := by
  constructor
  · intro settings clock stops ts b forged
    obtain ⟨work, mined, difficulty⟩ := forge_declares forged
    exact ⟨work, mined, difficulty ▸ due_nextDifficulty valid genesis settings⟩
  · intro s' forged steps fits
    have start : Bench.Sound s.chain ⟨s, []⟩ := by
      refine ⟨valid.toSound, genesis, fun _ => ⟨[], (List.append_nil _).symm, ?_⟩, nofun⟩
      rw [List.append_nil]
      cases s.chain.works.getLast? with
      | none => exact List.isChain_nil
      | some work => exact List.isChain_singleton work
    exact (start.run steps).walk fits

/-- The third sample block is forged on a chain whose second block took too long at difficulty 0. It
is saved, and then a voted block. -/
theorem forge_declares_due_third :
    let settings := { ForgeSettings.testing with targetRateMs := 500 }
    let c := Chain.new.push Sample.second
    let ts := [Transaction.create (.ofString "sender") 0 .empty .empty]
    let voted := Block.rehash { Sample.successor Sample.third ts with consent := .proofOfMajority }
    let s := (Store.save voted (Store.save Sample.third (.ofChain c)).2).2
    c.Valid ∧ c.first.height = 1 ∧
      (forge settings (sampleClock Sample.second) .none ts (.ofChain c)).1 = .ok Sample.third ∧
      (∃ work, Sample.third.consent = .proofOfWork work ∧ Due settings c work.difficulty.toNat) ∧
      Relation.ReflTransGen Bench.Step ⟨.ofChain c, []⟩ ⟨s, [Sample.third]⟩ ∧
      s.chain.count < UInt64.size ∧
      ∃ new, s.chain.works = c.works ++ new ∧
        (c.works.getLast?.toList ++ new).IsChain ProofOfWork.Near := by
  intro settings c ts voted s
  have valid : c.Valid := Chain.valid_second
  have genesis : c.first.height = 1 := rfl
  have head : c.head = Sample.second := Chain.head_push _ _
  have easy : nextDifficulty settings (c.latestOfType .proofOfWork) = 0 := by
    rw [nextDifficulty_latestOfType valid genesis]
    rfl
  have version : settings.protocolVersion = 1 := rfl
  have whole := forge_successor (c := c) version
    (List.cons_ne_nil (Transaction.create (.ofString "sender") 0 .empty .empty) []) easy
  rw [head] at whole
  have forged := congrArg Prod.fst whole
  have third : Bench.Step ⟨.ofChain c, []⟩ ⟨.ofChain c, [Sample.third]⟩ := by
    have made := Bench.Step.forge (.ofChain c) [] settings (sampleClock Sample.second) .none ts
    rwa [whole] at made
  have majority : ∀ b : Block,
      (Block.rehash { b with consent := .proofOfMajority }).consent = .proofOfMajority :=
    fun _ => rfl
  have steps : Relation.ReflTransGen Bench.Step ⟨.ofChain c, []⟩ ⟨s, [Sample.third]⟩ :=
    ((Relation.ReflTransGen.single third).tail
      (.save _ _ _ (.inl List.mem_cons_self))).tail (.save _ _ _ (.inr (majority _)))
  have fits : s.chain.count < UInt64.size := by
    have once := Store.count_save_le Sample.third (.ofChain c)
    have twice := Store.count_save_le voted (Store.save Sample.third (.ofChain c)).2
    exact Nat.lt_of_le_of_lt (twice.trans (Nat.succ_le_succ once)) (by decide)
  obtain ⟨declares, walks⟩ := forge_declares_due (s := .ofChain c) valid genesis
  exact ⟨valid, genesis, forged, declares settings _ .none ts _ forged, steps, fits,
    walks s _ steps fits⟩

end Forge

end ChainNode
