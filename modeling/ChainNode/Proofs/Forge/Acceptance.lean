import ChainNode.Proofs.Chain.Valid
import ChainNode.Proofs.Forge

/-!
# Forged blocks are acceptable

A forger puts position, link, Merkle root, difficulty and seal together by itself; a store checks
them later, by which time the chain may have moved on. `SealedOn` says what the two agree on: the
block names the head that it was forged on, and its contents pass every check. So whether it can be
saved is a matter of the head, and of its hash being new.

* `forge_sealedOn`: what a forged block is like, from the search outwards.
* `SealedOn.save_iff`: where such a block can be saved.
* `save_forged_iff`: the two together.
* `forge_successor`: sample blocks, which claim no difficulty, are what forging at that difficulty
  yields.
-/
namespace ChainNode.Forge

variable {settings : ForgeSettings} {clock : ForgeClock} {stops : Interruptions}
  {ts : List Transaction} {head b : Block}

/-- The block `b` carries `ts`, continues `head`, and is in order by itself. -/
structure SealedOn (head : Block) (ts : List Transaction) (b : Block) : Prop where
  position : b.position = head.position + 1
  lastHash : b.lastHash = head.hash
  transactions : b.transactions = ts
  contents : b.checkContents = .ok ()

/-- A block passes the checks of its contents if it is hashed last, if that hash is difficult enough
for the work in it, and if its Merkle root is that of its transactions. -/
theorem checkContents_rehash {work : ProofOfWork} (consent : b.consent = .proofOfWork work)
    (difficult : meetsDifficulty b.rehash.hash work.difficulty = true)
    (carried : b.transactions ≠ []) (root : transactionRoot b.transactions = .ok b.merkleRoot) :
    b.rehash.checkContents = .ok () := by
  have claimed : b.rehash.work? = some work := congrArg Consent.work? consent
  have checked : b.rehash.checkWork = .ok () := by
    rw [Block.checkWork, claimed]
    exact if_pos difficult
  have nonempty : ¬ b.rehash.transactions.isEmpty := by simpa [Block.rehash] using carried
  have same : b.rehash.transactions = b.transactions := rfl
  have transactions : b.rehash.checkTransactions = .ok () := by
    rw [Block.checkTransactions, if_neg nonempty, same, root]
    exact if_pos rfl
  rw [Block.checkContents, if_pos b.isCorrect_rehash, checked]
  exact transactions

theorem sealBlock_sealedOn {last : Option Block} (carried : ts ≠ [])
    (h : sealBlock settings clock stops head last ts = .ok b) : SealedOn head ts b := by
  unfold sealBlock at h
  split at h
  · cases h
  · rename_i root hroot
    split at h
    · cases h
    · simp only at h
      split at h
      · rename_i found
        cases h
        obtain ⟨m, rfl, difficult⟩ := searchNonce_sealed found
        exact ⟨rfl, rfl, rfl, checkContents_rehash rfl difficult carried hroot⟩
      · cases h
      · cases h

/-- Whatever else the store refuses, a block that is forged was forged on the head it showed. -/
theorem forge_sealedOn {s : Store} (forged : (forge settings clock stops ts s).1 = .ok b) :
    SealedOn s.chain.head ts b := by
  unfold forge at forged
  split at forged
  · cases forged
  · rename_i nonempty
    have carried : ts ≠ [] := by simpa using nonempty
    split at forged
    · cases forged
    · rename_i head t read
      obtain ⟨-, shown⟩ := Store.reads_latestBlock s
      have same : head = s.chain.head := shown head (by rw [read])
      split at forged
      · cases forged
      · exact same ▸ sealBlock_sealedOn carried forged

/-- Such a block can be saved exactly on a head with the position and the hash of the one that it
names, if its hash is new: no two positions are followed by the same one. -/
theorem SealedOn.save_iff {c : Chain} (h : SealedOn head ts b) (sound : c.Sound) :
    (Store.save b (.ofChain c)).1 = .ok () ↔
      c.head.position = head.position ∧ c.head.hash = head.hash ∧
        b.hash ∉ c.blocks.map Block.hash := by
  have accepted : (Store.save b (.ofChain c)).1 = .ok () ↔ ∃ c', c.save b = .ok c' := by
    rw [Store.save_ofChain]
    cases c.save b <;> simp
  rw [accepted, ← sound.known]
  constructor
  · rintro ⟨c', saved⟩
    obtain ⟨fresh, follows, -⟩ := Chain.save_eq_ok_iff.mp saved
    have next : c.head.position + 1 = head.position + 1 := follows.position.symm.trans h.position
    exact ⟨(UInt64.add_left_inj 1).mp next, follows.lastHash ▸ h.lastHash, fresh⟩
  · rintro ⟨position, hash, fresh⟩
    refine ⟨_, Chain.save_eq_ok_iff.mpr ⟨fresh, ⟨?_, ?_, h.contents⟩, rfl⟩⟩
    · rw [h.position, Block.nextPosition, position]
    · rw [h.lastHash, hash]

/-- **Forger and store agree.** A block that is forged while the store shows some head passes the
checks of its contents. Later, on any sound chain, it can be saved exactly if the head is again one
with that position and that hash and no block has its hash; then it is the new head, and otherwise
the store is as it was. On the last position a block is forged for position 0, and there it can be
saved. -/
theorem save_forged_iff {s : Store} (forged : (forge settings clock stops ts s).1 = .ok b) :
    b.checkContents = .ok () ∧ ∀ c : Chain, c.Sound →
      ((Store.save b (.ofChain c)).1 = .ok () ↔
        c.head.position = s.chain.head.position ∧ c.head.hash = s.chain.head.hash ∧
          b.hash ∉ c.blocks.map Block.hash) ∧
      ((Store.save b (.ofChain c)).1 = .ok () →
        (Store.save b (.ofChain c)).2.chain.blocks = c.blocks ++ [b]) ∧
      ∀ e, (Store.save b (.ofChain c)).1 = .error e →
        (Store.save b (.ofChain c)).2 = .ofChain c := by
  have sealedOn := forge_sealedOn forged
  refine ⟨sealedOn.contents, fun c sound => ⟨sealedOn.save_iff sound, ?_, ?_⟩⟩
  · intro accepted
    rw [Store.save_ofChain] at accepted ⊢
    cases saved : c.save b with
    | error e => simp [saved] at accepted
    | ok c' =>
      obtain ⟨-, -, rfl⟩ := Chain.save_eq_ok_iff.mp saved
      rfl
  · intro e refused
    rw [Store.save_ofChain] at refused ⊢
    cases saved : c.save b with
    | error e' => rfl
    | ok c' => simp [saved] at refused

/-! ## Sample blocks come of forging -/

/-- The clock under which a sample block is forged: it takes a second. -/
def sampleClock (head : Block) : ForgeClock :=
  ⟨head.timestamp + 1000, head.timestamp + 1000, fun _ => 1000⟩

theorem searchNonce_easy (candidate : Block) {inputs : SearchInputs}
    (free : inputs.raised 1 = false) :
    searchNonce candidate 0 inputs =
      .sealed (Block.rehash { candidate with consent := attemptConsent 0 inputs 1 }) := by
  have attempts : UInt64.size - 1 = 18446744073709551614 + 1 := rfl
  rw [searchNonce, attempts, searchFrom, free]
  simp only [Bool.false_eq_true, if_false, withConsent_frame]
  exact if_pos (by simp [meetsDifficulty])

theorem sealBlock_successor {last : Option Block} (easy : nextDifficulty settings last = 0)
    (version : settings.protocolVersion = 1) (carried : ts ≠ []) :
    sealBlock settings (sampleClock head) .none head last ts = .ok (Sample.successor head ts) := by
  obtain ⟨root, hroot⟩ := transactionRoot_eq_ok carried
  unfold sealBlock
  simp only [hroot, easy]
  rw [if_neg (by simp [Interruptions.none]), searchNonce_easy _ rfl]
  simp only [Sample.successor, candidate, version, hroot, Except.toOption, Option.getD]
  rfl

theorem forge_successor {c : Chain} (version : settings.protocolVersion = 1) (carried : ts ≠ [])
    (easy : nextDifficulty settings (c.latestOfType .proofOfWork) = 0) :
    forge settings (sampleClock c.head) .none ts (.ofChain c) =
      (.ok (Sample.successor c.head ts), .ofChain c) := by
  unfold forge
  rw [if_neg (by simpa using carried)]
  simp only [Store.latestBlock_ofChain, Store.latestOfType_ofChain,
    sealBlock_successor easy version carried]

/-- Too few nodes for a vote agree on that block. -/
theorem agree_successor {n : Node} {c : Chain} {active : Nat} (stored : n.store = .ofChain c)
    (few : active < n.forgeSettings.minimumQuorum) (version : n.forgeSettings.protocolVersion = 1)
    (carried : ts ≠ [])
    (easy : nextDifficulty n.forgeSettings (c.latestOfType .proofOfWork) = 0) :
    n.agree (sampleClock c.head) .none active ts = (.ok (Sample.successor c.head ts), n) := by
  unfold Node.agree reachConsensus majorityEligible
  simp only [if_pos few, stored, forge_successor version carried easy]
  rw [← stored]

/-- The second sample block is forged on the genesis block. There it can be saved, but no longer
once it is the head. -/
theorem save_forged_iff_second :
    let settings := { ForgeSettings.testing with initialDifficulty := 0 }
    let s := Store.ofChain .new
    let b := Sample.second
    let ts := [Transaction.create (.ofString "sender") 0 .empty .empty]
    (forge settings (sampleClock .genesis) .none ts s).1 = .ok b ∧
      b.checkContents = .ok () ∧
      (Store.save b (.ofChain .new)).1 = .ok () ∧
      (Store.save b (.ofChain (Chain.new.push b))).1 ≠ .ok () := by
  intro settings s b ts
  have forged : (forge settings (sampleClock .genesis) .none ts s).1 = .ok b := by
    have version : settings.protocolVersion = 1 := rfl
    have whole := forge_successor (c := .new) version (List.cons_ne_nil _ _ : ts ≠ []) rfl
    exact congrArg Prod.fst whole
  obtain ⟨contents, saving⟩ := save_forged_iff forged
  refine ⟨forged, contents, ?_, ?_⟩
  · refine (saving .new (Chain.sound_start _)).1.mpr ⟨rfl, rfl, fun known => ?_⟩
    exact Sample.hash_second_ne (List.mem_singleton.mp known)
  · intro accepted
    have sound := (Chain.sound_start Block.genesis).save Chain.save_second
    obtain ⟨-, -, fresh⟩ := (saving _ sound).1.mp accepted
    refine fresh (List.mem_map_of_mem (a := b) ?_)
    exact List.mem_append_right Chain.new.blocks (List.mem_singleton.mpr rfl)

end ChainNode.Forge
