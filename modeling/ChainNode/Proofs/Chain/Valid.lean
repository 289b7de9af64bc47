import Mathlib.Data.List.Chain
import Mathlib.Data.List.Nodup
import ChainNode.Proofs.Sample
import ChainNode.Store

/-!
# What every stored chain satisfies

A chain is stored as a list of blocks and an index of their hashes. `Sound` says that each block
follows the one before it, that no hash occurs twice, and that the index holds exactly the hashes
of the list. The second part is what makes a rollback safe: a hash that leaves the index with a
block belongs to no block that stays.

The first block of a chain is taken as it is, at the last position as well, and position 0 follows
that one. So the positions of a sound chain count upwards only as long as the chain does not pass
the last position; a `Valid` chain does not. From position 1 on that takes more blocks than there
are words, so such a chain is valid whenever its length is a word.

* `save_eq_ok_iff`, `removeAfter_eq_ok_iff`: what the two operations do when they succeed.
* `Sound.save`, `Sound.removeAfter`: they preserve `Sound`.
* `Sound.height_getElem_mod`, `Valid.height_getElem`: where a block stands.
* `Preserved.built`, `Store.runAll_preserves`: what the two operations preserve, all writes
  preserve.
* `write_cases`: what one write does to a store, whatever faults the store has.
* `writes_keep_sound`: what a store holds after any writes.
-/
namespace ChainNode

namespace Chain

structure Sound (c : Chain) : Prop where
  linked : c.blocks.IsChain Block.Follows
  distinct : (c.blocks.map Block.hash).Nodup
  known : ∀ hash, hash ∈ c.known ↔ hash ∈ c.blocks.map Block.hash

/-- No block stands at the last position below another one. -/
def Unwrapped (c : Chain) : Prop := c.first.height + c.later.length < UInt64.size

instance (c : Chain) : Decidable c.Unwrapped :=
  inferInstanceAs (Decidable (c.first.height + c.later.length < UInt64.size))

structure Valid (c : Chain) : Prop extends Sound c where
  unwrapped : c.Unwrapped

/-- A chain as it is before anything is written: with the genesis block only, or from blocks that
were accepted one after the other. They come in a list whose length is a word. -/
inductive Built : Block → Chain → Prop where
  | new : Built Block.genesis Chain.new
  | ofBlocks {b : Block} {bs : List Block} {c : Chain} (h : ofBlocks (b :: bs) = .ok c)
      (fits : (b :: bs).length < UInt64.size) : Built b c

/-- The chain with one more block, unchecked. -/
def push (b : Block) (c : Chain) : Chain :=
  { c with later := c.later ++ [b], known := b.hash :: c.known }

/-- The chain without all but the first `n` blocks after its first one. -/
def cut (n : Nat) (c : Chain) : Chain :=
  { c with
    later := c.later.take n
    known := c.known.filter (· ∉ (c.later.drop n).map Block.hash) }

/-! ## Blocks -/

theorem blocks_ne_nil (c : Chain) : c.blocks ≠ [] := List.cons_ne_nil _ _

@[simp] theorem first_push (b : Block) (c : Chain) : (c.push b).first = c.first := rfl

@[simp] theorem blocks_push (b : Block) (c : Chain) : (c.push b).blocks = c.blocks ++ [b] := rfl

@[simp] theorem first_cut (n : Nat) (c : Chain) : (c.cut n).first = c.first := rfl

@[simp] theorem blocks_cut (n : Nat) (c : Chain) : (c.cut n).blocks = c.blocks.take (n + 1) := rfl

theorem length_blocks (c : Chain) : c.blocks.length = c.later.length + 1 := rfl

theorem getLast?_blocks (c : Chain) : c.blocks.getLast? = some c.head := by
  rw [blocks, List.getLast?_cons, head]

@[simp] theorem head_push (b : Block) (c : Chain) : (c.push b).head = b := by
  simp [head, push]

/-! ## The operations -/

theorem save_eq_ok_iff {b : Block} {c c' : Chain} :
    c.save b = .ok c' ↔ b.hash ∉ c.known ∧ Block.Follows c.head b ∧ c' = c.push b := by
  unfold save
  by_cases hk : b.hash ∈ c.known
  · simp [hk]
  · rw [if_neg hk, ← Block.checkFollows_eq_ok_iff]
    cases h : c.head.checkFollows b with
    | error e => simp
    | ok u => exact ⟨fun e => ⟨hk, rfl, (Except.ok.inj e).symm⟩, fun e => by rw [e.2.2]; rfl⟩

theorem removeAfter_eq_ok_iff {p n : Nat} {c c' : Chain} :
    c.removeAfter p = .ok (n, c') ↔
      c.first.height ≤ p ∧ n = c.later.length - (p - c.first.height) ∧
        c' = c.cut (p - c.first.height) := by
  unfold removeAfter
  by_cases hp : p < c.first.height
  · simp [hp]
  · rw [if_neg hp]
    simp only [List.length_drop, Except.ok.injEq, Prod.mk.injEq]
    exact ⟨fun e => ⟨by omega, e.1.symm, e.2.symm⟩, fun e => ⟨e.2.1.symm, e.2.2.symm⟩⟩

theorem save_second : new.save Sample.second = .ok (new.push Sample.second) := by
  refine save_eq_ok_iff.mpr ⟨?_, Sample.follows_second, rfl⟩
  exact fun known => Sample.hash_second_ne (List.mem_singleton.mp known)

theorem ofBlocks_pair {b b' : Block} {c : Chain} (h : (start b).save b' = .ok c) :
    ofBlocks [b, b'] = .ok c := by
  simp only [ofBlocks, saveAll, h]

theorem ofBlocks_second : ofBlocks [.genesis, Sample.second] = .ok (new.push Sample.second) :=
  ofBlocks_pair save_second

theorem removeAfter_second : (new.push Sample.second).removeAfter 1 = .ok (1, new) := by
  refine removeAfter_eq_ok_iff.mpr ⟨Nat.le_refl _, rfl, ?_⟩
  have above : 1 - (new.push Sample.second).first.height = 0 := rfl
  rw [above]
  simp [cut, push, new, start, Sample.hash_second_ne.symm]

/-- Cutting a chain at its head takes nothing away. -/
theorem cut_of_le {c : Chain} {n : Nat} (all : c.later.length ≤ n) : c.cut n = c := by
  rw [cut, List.take_of_length_le all, List.drop_eq_nil_of_le all]
  simp

/-- What holds of a chain goes on to hold, whatever is saved and removed. -/
structure Preserved (P : Chain → Prop) : Prop where
  save : ∀ {b : Block} {c c' : Chain}, P c → c.save b = .ok c' → P c'
  removeAfter : ∀ {p n : Nat} {c c' : Chain}, P c → c.removeAfter p = .ok (n, c') → P c'

namespace Preserved

variable {P : Chain → Prop} (keeps : Preserved P)

include keeps

theorem saveAll {bs : List Block} {c c' : Chain} (h : P c) (e : Chain.saveAll bs c = .ok c') :
    P c' := by
  induction bs generalizing c with
  | nil =>
    cases e
    exact h
  | cons b bs ih =>
    unfold Chain.saveAll at e
    cases hs : c.save b with
    | error _ =>
      rw [hs] at e
      cases e
    | ok d =>
      rw [hs] at e
      exact ih (keeps.save h hs) e

theorem built {first : Block} {c : Chain} (h : P (start first)) (b : Built first c) : P c := by
  cases b with
  | new => exact h
  | ofBlocks b => exact keeps.saveAll h b

end Preserved

/-! ## Soundness -/

theorem sound_start (b : Block) : (start b).Sound where
  linked := List.isChain_singleton _
  distinct := List.nodup_singleton _
  known hash := by simp [start, blocks]

namespace Sound

variable {c c' : Chain}

theorem push (h : c.Sound) {b : Block} (hk : b.hash ∉ c.known) (hf : Block.Follows c.head b) :
    (c.push b).Sound where
  linked := by
    rw [blocks_push, List.isChain_append]
    refine ⟨h.linked, List.isChain_singleton _, ?_⟩
    intro x hx y hy
    rw [getLast?_blocks] at hx
    cases hx
    cases hy
    exact hf
  distinct := by
    rw [blocks_push, List.map_append, List.nodup_append]
    refine ⟨h.distinct, List.nodup_singleton _, ?_⟩
    intro x hx y hy e
    rw [List.map_singleton, List.mem_singleton] at hy
    exact hk ((h.known _).mpr (by rwa [← hy, ← e]))
  known hash := by
    simp only [Chain.push, List.mem_cons, h.known hash, blocks, List.map_cons, List.map_append,
      List.mem_append, List.map_nil, List.not_mem_nil, or_false]
    tauto

theorem save (h : c.Sound) {b : Block} (hs : c.save b = .ok c') : c'.Sound := by
  obtain ⟨hk, hf, rfl⟩ := save_eq_ok_iff.mp hs
  exact h.push hk hf

/-- No hash is both above and below the cut, so the index loses exactly what the list loses. -/
theorem cut (h : c.Sound) (n : Nat) : (c.cut n).Sound where
  linked := h.linked.take (n + 1)
  distinct := by
    have hs : ((c.cut n).blocks).Sublist c.blocks := List.take_sublist (n + 1) c.blocks
    exact h.distinct.sublist (hs.map _)
  known hash := by
    have split : c.blocks = c.blocks.take (n + 1) ++ c.later.drop n :=
      (List.take_append_drop (n + 1) c.blocks).symm
    have hd := h.distinct
    rw [split, List.map_append, List.nodup_append] at hd
    have hk := h.known hash
    rw [split, List.map_append, List.mem_append] at hk
    rw [blocks_cut]
    simp only [Chain.cut, List.mem_filter, decide_not, Bool.not_eq_true', decide_eq_false_iff_not,
      hk]
    constructor
    · intro kept
      obtain ⟨hkeep | hdrop, hnot⟩ := kept
      · exact hkeep
      · exact absurd hdrop hnot
    · intro hkeep
      exact ⟨.inl hkeep, fun hdrop => hd.2.2 hash hkeep hash hdrop rfl⟩

theorem removeAfter (h : c.Sound) {p n : Nat} (hr : c.removeAfter p = .ok (n, c')) : c'.Sound := by
  obtain ⟨-, -, rfl⟩ := removeAfter_eq_ok_iff.mp hr
  exact h.cut _

theorem preserved (first : Block) : Preserved fun c => c.Sound ∧ c.first = first where
  save h hs := by
    obtain ⟨-, -, hpush⟩ := save_eq_ok_iff.mp hs
    exact ⟨h.1.save hs, by rw [hpush, first_push, h.2]⟩
  removeAfter h hr := by
    obtain ⟨-, -, hcut⟩ := removeAfter_eq_ok_iff.mp hr
    exact ⟨h.1.removeAfter hr, by rw [hcut, first_cut, h.2]⟩

theorem built {first : Block} (h : Built first c) : c.Sound ∧ c.first = first :=
  (preserved first).built ⟨sound_start first, rfl⟩ h

theorem follows_getElem (h : c.Sound) {i : Nat} (hi : i + 1 < c.blocks.length) :
    Block.Follows c.blocks[i] c.blocks[i + 1] :=
  List.isChain_iff_getElem.mp h.linked i hi

/-- A hash stands at one place. -/
theorem index_eq (h : c.Sound) {i j : Nat} (hi : i < c.blocks.length) (hj : j < c.blocks.length)
    (same : c.blocks[i].hash = c.blocks[j].hash) : i = j := by
  have distinct := List.pairwise_map.mp h.distinct
  rcases Nat.lt_trichotomy i j with lt | rfl | gt
  · exact absurd same (List.pairwise_iff_getElem.mp distinct i j hi hj lt)
  · rfl
  · exact absurd same.symm (List.pairwise_iff_getElem.mp distinct j i hj hi gt)

theorem height_getElem_mod (h : c.Sound) {i : Nat} (hi : i < c.blocks.length) :
    c.blocks[i].height = (c.first.height + i) % UInt64.size := by
  induction i with
  | zero => exact (Nat.mod_eq_of_lt c.first.height_lt).symm
  | succ i ih => rw [(h.follows_getElem hi).height_mod, ih, Nat.mod_add_mod, Nat.add_assoc]

end Sound

/-! ## Positions that count upwards -/

theorem valid_start (b : Block) : (start b).Valid where
  toSound := sound_start b
  unwrapped := b.height_lt

namespace Valid

variable {c c' : Chain}

theorem height_getElem (h : c.Valid) {i : Nat} (hi : i < c.blocks.length) :
    c.blocks[i].height = c.first.height + i := by
  have room := h.unwrapped
  rw [Unwrapped] at room
  rw [length_blocks] at hi
  rw [h.height_getElem_mod, Nat.mod_eq_of_lt (by omega)]

theorem cut (h : c.Valid) (n : Nat) : (c.cut n).Valid where
  toSound := h.toSound.cut n
  unwrapped := by
    have room := h.unwrapped
    rw [Unwrapped] at room ⊢
    have shorter : (c.cut n).later.length ≤ c.later.length := List.length_take_le' _ _
    rw [first_cut]
    omega

end Valid

/-- The positions count upwards exactly if they do not run out. -/
theorem Sound.unwrapped_iff {c : Chain} (h : c.Sound) :
    c.Unwrapped ↔ c.blocks.IsChain fun a b => b.height = a.height + 1 := by
  rw [List.isChain_iff_getElem]
  constructor
  · intro room i hi
    have valid : c.Valid := ⟨h, room⟩
    rw [valid.height_getElem hi, valid.height_getElem (Nat.lt_of_succ_lt hi), Nat.add_assoc]
  · intro upwards
    have height : ∀ i (hi : i < c.blocks.length), c.blocks[i].height = c.first.height + i := by
      intro i hi
      induction i with
      | zero => rfl
      | succ i ih => rw [upwards i hi, ih, Nat.add_assoc]
    have top : c.later.length < c.blocks.length := Nat.lt_succ_self _
    rw [Unwrapped, ← height _ top]
    exact c.blocks[c.later.length].height_lt

theorem Sound.unwrapped_of_increasing {c : Chain} (h : c.Sound)
    (increasing : c.blocks.Pairwise (·.height < ·.height)) : c.Unwrapped := by
  rw [h.unwrapped_iff, List.isChain_iff_getElem]
  intro i hi
  have higher := List.pairwise_iff_getElem.mp increasing i (i + 1) (Nat.lt_of_succ_lt hi) hi
    (Nat.lt_succ_self i)
  exact (h.follows_getElem hi).height_of_lt higher

/-- From position 1 on there are as many blocks as the head's position says. -/
theorem Sound.valid_of_genesis {c : Chain} (h : c.Sound) (genesis : c.first.height = 1)
    (fits : c.count < UInt64.size) : c.Valid where
  toSound := h
  unwrapped := by
    rw [count, length_blocks] at fits
    rw [Unwrapped, genesis]
    omega

theorem blocks_saveAll {bs : List Block} {c c' : Chain} (h : saveAll bs c = .ok c') :
    c'.blocks = c.blocks ++ bs := by
  induction bs generalizing c with
  | nil =>
    cases h
    rw [List.append_nil]
  | cons b bs ih =>
    unfold saveAll at h
    cases saved : c.save b with
    | error e =>
      rw [saved] at h
      cases h
    | ok d =>
      rw [saved] at h
      obtain ⟨-, -, rfl⟩ := save_eq_ok_iff.mp saved
      rw [ih h, blocks_push, List.append_assoc, List.singleton_append]

theorem blocks_ofBlocks {bs : List Block} {c : Chain} (h : ofBlocks bs = .ok c) :
    c.blocks = bs := by
  cases bs with
  | nil => cases h
  | cons b bs => exact blocks_saveAll h

theorem Built.count_lt {first : Block} {c : Chain} (h : Built first c) : c.count < UInt64.size := by
  cases h with
  | new => decide
  | ofBlocks h fits =>
    rw [count, blocks_ofBlocks h]
    exact fits

theorem Valid.built {first : Block} {c : Chain} (h : Built first c) (genesis : first.height = 1) :
    c.Valid ∧ c.first = first := by
  obtain ⟨sound, rfl⟩ := Sound.built h
  exact ⟨sound.valid_of_genesis genesis h.count_lt, rfl⟩

theorem valid_second : (new.push Sample.second).Valid :=
  ((sound_start _).save save_second).valid_of_genesis rfl (by decide)

end Chain

/-! ## Stores -/

/-- A call that changes a store. -/
inductive Write where
  | save (b : Block)
  | removeAfter (position : Nat)

namespace Write

/-- Carry out a call; of its result, only whether it was refused. -/
def run : Write → Store.Op Unit
  | .save b, s => Store.save b s
  | .removeAfter position, s =>
    match Store.removeAfter position s with
    | (r, s) => (r.map fun _ => (), s)

/-- The store after several calls, refused ones included. -/
def runAll (ws : List Write) (s : Store) : Store := ws.foldl (fun s w => (w.run s).2) s

end Write

namespace Store

@[simp] theorem chain_spend (m : StoreMethod) (s : Store) : (s.spend m).2.chain = s.chain := by
  unfold spend
  split <;> rfl

theorem run_save_ok {b : Block} {c c' : Chain} (h : c.save b = .ok c') :
    ((Write.save b).run (ofChain c)).2 = ofChain c' := by
  simp only [Write.run, save_ofChain, h]

theorem run_removeAfter_ok {p n : Nat} {c c' : Chain} (h : c.removeAfter p = .ok (n, c')) :
    ((Write.removeAfter p).run (ofChain c)).2 = ofChain c' := by
  simp only [Write.run, removeAfter_ofChain, h]

theorem write_cases {α : Type} (m : StoreMethod) (step : Chain → Except StoreError (α × Chain))
    (s : Store) :
    (∃ e, (write m step s).1 = .error e ∧ (write m step s).2.chain = s.chain) ∨
      ∃ a c, step s.chain = .ok (a, c) ∧ (write m step s).1 = .ok a ∧
        (write m step s).2.chain = c := by
  have hc := chain_spend m s
  unfold write
  generalize s.spend m = spent at hc ⊢
  obtain ⟨granted, t⟩ := spent
  simp only at hc
  rw [← hc]
  cases granted with
  | false => exact .inl ⟨_, rfl, rfl⟩
  | true =>
    simp only
    cases h : step t.chain with
    | error e => exact .inl ⟨e, rfl, rfl⟩
    | ok r => exact .inr ⟨r.1, r.2, rfl, rfl, rfl⟩

/-- A call is refused and leaves the chain alone, or it does what the chain's operation does. -/
theorem run_cases (w : Write) (s : Store) :
    (∃ e, (w.run s).1 = .error e ∧ (w.run s).2.chain = s.chain) ∨
      ((w.run s).1 = .ok () ∧
        ((∃ b, w = .save b ∧ s.chain.save b = .ok (w.run s).2.chain) ∨
          ∃ p n, w = .removeAfter p ∧ s.chain.removeAfter p = .ok (n, (w.run s).2.chain))) := by
  cases w with
  | save b =>
    rcases write_cases .save (fun c => (fun c' => ((), c')) <$> c.save b) s with
      h | ⟨_, c, h, r, hc⟩
    · exact .inl h
    · refine .inr ⟨r, .inl ⟨b, rfl, ?_⟩⟩
      cases hs : s.chain.save b with
      | error e => rw [hs] at h; cases h
      | ok d =>
        rw [hs] at h
        cases h
        exact congrArg _ hc.symm
  | removeAfter p =>
    rcases write_cases .removeAfter (Chain.removeAfter p) s with ⟨e, r, hc⟩ | ⟨n, c, h, r, hc⟩
    · exact .inl ⟨e, by simp only [Write.run, removeAfter, r, Except.map], hc⟩
    · refine .inr ⟨by simp only [Write.run, removeAfter, r, Except.map], .inr ⟨p, n, rfl, ?_⟩⟩
      rw [h, ← hc]
      rfl

theorem count_save_le (b : Block) (s : Store) : (save b s).2.chain.count ≤ s.chain.count + 1 := by
  rcases run_cases (.save b) s with ⟨e, -, hc⟩ | ⟨-, ⟨b', -, hs⟩ | ⟨p, n, no, -⟩⟩
  · exact (congrArg Chain.count hc).trans_le (Nat.le_succ _)
  · obtain ⟨-, -, hpush⟩ := Chain.save_eq_ok_iff.mp hs
    refine ((congrArg Chain.count hpush).trans ?_).le
    rw [Chain.count, Chain.blocks_push, List.length_append, List.length_singleton, Chain.count]
  · cases no

theorem run_preserves {P : Chain → Prop} (keeps : Chain.Preserved P) (w : Write) {s : Store}
    (h : P s.chain) : P (w.run s).2.chain := by
  rcases run_cases w s with ⟨e, -, hc⟩ | ⟨-, ⟨b, -, hs⟩ | ⟨p, n, -, hr⟩⟩
  · rwa [hc]
  · exact keeps.save h hs
  · exact keeps.removeAfter h hr

theorem runAll_preserves {P : Chain → Prop} (keeps : Chain.Preserved P) (ws : List Write)
    {s : Store} (h : P s.chain) : P (Write.runAll ws s).chain := by
  induction ws generalizing s with
  | nil => exact h
  | cons w ws ih => exact ih (run_preserves keeps w h)

theorem runAll_keeps (ws : List Write) {s : Store} (h : s.chain.Sound) :
    (Write.runAll ws s).chain.Sound ∧ (Write.runAll ws s).chain.first = s.chain.first :=
  runAll_preserves (Chain.Sound.preserved s.chain.first) ws ⟨h, rfl⟩

end Store

end ChainNode
