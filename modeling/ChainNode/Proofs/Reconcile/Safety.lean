import ChainNode.Proofs.Chain.Fork
import ChainNode.Proofs.Reconcile.Convergence
import ChainNode.Proofs.Reconcile.Upheld

/-!
# Safety when peers fail

Peers answer from first parts of one chain `h`, each from another perhaps, or not at all; a node
that had the chain `l` reconciles, catches up and is told of blocks of `h`. What views say in such a
network may be short or have holes, so that a scan ends below the true fork and the list of missing
infos is patched together. It does not matter: a block of `h` is saved only on a block that it
follows, and it follows no other block than the one below it in `h`. So from the first block that is
saved on the node stands on `h`, and so it does after a rollback to a block that one of `h` follows.

* `OnEither.below`: a block of `h` that follows a block of the node's chain.
* `onEither_upheld`: what the two ways of changing the chain preserve.
* `calls_keep_prefix`: at every moment of any sequence of calls.
-/
namespace ChainNode

namespace Chain

variable {l h c : Chain} {b : Block}

/-- The chain `l`, or one whose infos are the first ones of `h`. -/
def OnEither (l h c : Chain) : Prop := c = l ∨ ∃ n, h.FirstPart n c

namespace OnEither

theorem infos (on : OnEither l h c) : c.infos = l.infos ∨ c.infos <+: h.infos := by
  rcases on with rfl | ⟨n, part⟩
  · exact .inl rfl
  · exact .inr (part.infos ▸ List.take_prefix _ _)

variable (hl : l.Sound) (hh : h.Sound) (first : l.first = h.first) (no : ¬ SealCollision l h)

section

variable (on : OnEither l h c)

include on first

theorem first_eq : c.first = h.first := by
  rcases on with rfl | ⟨n, part⟩
  · exact first
  · exact part.first

include hl in
theorem sound : c.Sound := by
  rcases on with rfl | ⟨n, part⟩
  · exact hl
  · exact part.sound

include hl hh no in
/-- Where the chain has the hash of a block of `h`, that is at the same index, and up to there the
chain is `h`: if it is still `l`, a hash brings those below it along. -/
theorem index_eq {j k : Nat} (hk : k < c.blocks.length) (hj : j < h.blocks.length)
    (hash : c.blocks[k].hash = h.blocks[j].hash) :
    k = j ∧ c.infos.take (k + 1) = h.infos.take (k + 1) := by
  rcases on with rfl | ⟨n, part⟩
  · obtain ⟨same, taken⟩ := (take_eq_or_collision hl hh first hk hj hash).resolve_right no
    exact ⟨same, by rw [Chain.infos, Chain.infos, ← List.map_take, ← List.map_take, taken]⟩
  · have length := congrArg List.length part.infos
    rw [List.length_take, length_infos, length_infos] at length
    have here : c.blocks[k].hash = h.blocks[k].hash := by
      have entry := congrArg (·[k]?) part.infos
      simp only [List.getElem?_take, show k < n by omega, if_true, Chain.infos, List.getElem?_map,
        List.getElem?_eq_getElem hk, List.getElem?_eq_getElem (show k < h.blocks.length by omega),
        Option.map_some] at entry
      exact congrArg BlockInfo.hash (Option.some.inj entry)
    refine ⟨hh.index_eq (by omega) hj (here.symm.trans hash), ?_⟩
    rw [part.infos, List.take_take, Nat.min_eq_left (by omega)]

end

include hl hh first no

/-- A block of `h` that is not its first and follows block `k` of the chain is block `k + 1` of `h`:
it names the hash of its predecessor. -/
theorem below (on : OnEither l h c) (member : b ∈ h.blocks) (later : b ≠ h.first) {k : Nat}
    (hk : k < c.blocks.length) (follows : Block.Follows c.blocks[k] b) :
    h.blocks[k + 1]? = some b ∧ c.infos.take (k + 1) = h.infos.take (k + 1) := by
  obtain ⟨j, hj, rfl⟩ := List.mem_iff_getElem.mp member
  cases j with
  | zero => exact absurd rfl later
  | succ j =>
    have hash : c.blocks[k].hash = h.blocks[j].hash := by
      rw [← follows.lastHash, (hh.follows_getElem hj).lastHash]
    obtain ⟨rfl, same⟩ := index_eq hl hh first no on hk (Nat.lt_of_succ_lt hj) hash
    exact ⟨List.getElem?_eq_getElem hj, same⟩

/-- The first block cannot follow a block that has a next position in the chain. -/
theorem cut (on : OnEither l h c) (member : b ∈ h.blocks) {k : Nat} (hk : k < c.blocks.length)
    (room : c.first.height + k + 1 < UInt64.size) (follows : Block.Follows c.blocks[k] b) :
    OnEither l h (c.cut k) := by
  have sound := on.sound hl first
  have later : b ≠ h.first := by
    rintro rfl
    have next := follows.height_mod
    rw [sound.height_getElem_mod hk, Nat.mod_add_mod, Nat.mod_eq_of_lt room, on.first_eq first]
      at next
    omega
  obtain ⟨-, same⟩ := below hl hh first no on member later hk follows
  refine .inr ⟨k + 1, sound.cut k, on.first_eq (c := c) first, ?_⟩
  rw [← same, Chain.infos, blocks_cut, Chain.infos, List.map_take]

theorem push (on : OnEither l h c) (member : b ∈ h.blocks) (fresh : b.hash ∉ c.known)
    (follows : Block.Follows c.head b) : OnEither l h (c.push b) := by
  have sound := on.sound hl first
  have top := c.getElem_length_later c.length_later_lt
  have all : c.infos.take (c.later.length + 1) = c.infos :=
    List.take_of_length_le (by rw [length_infos, length_blocks])
  have later : b ≠ h.first := by
    rintro rfl
    refine fresh ((sound.known _).mpr ?_)
    rw [← on.first_eq first]
    exact List.mem_map_of_mem List.mem_cons_self
  obtain ⟨next, same⟩ :=
    below hl hh first no on member later c.length_later_lt (by rwa [top])
  rw [all] at same
  refine .inr ⟨c.later.length + 2, sound.push fresh follows, on.first_eq (c := c) first, ?_⟩
  have added : (c.push b).infos = c.infos ++ [b.info] := by simp [Chain.infos]
  have entry : h.infos[c.later.length + 1]? = some b.info := by simp [Chain.infos, next]
  rw [added, same, List.take_add_one (i := c.later.length + 1), entry]
  rfl

end OnEither

end Chain

variable {σ : Type} {l h : Chain}

/-- What is answered is answered by responders over first parts of `h`. Any request may fail or come
too late; who is active, how long anybody takes and in which order lists are shuffled is open. -/
def PrefixPeers (net : Network σ) (h : Chain) : Prop :=
  ∀ id m s reply, (net.handle id m s).1 = .ok reply →
    ∃ (r : Responder) (now : Nat) (c : Chain), c.blocks <+: h.blocks ∧
      (r.handle now m (.ofChain c)).1 = .ok reply

theorem PrefixPeers.mem_blocks {net : Network σ} (peers : PrefixPeers net h) {id : NodeId}
    {m : Message} {s : σ} {reply : BatchReply Block}
    (given : (net.handle id m s).1 = .ok (.blocks reply)) :
    ∀ b ∈ reply.entities, b ∈ h.blocks := by
  obtain ⟨r, now, c, part, answer⟩ := peers id m s _ given
  exact fun b hb => part.subset (r.mem_of_handle_blocks now c answer b hb)

namespace Reconcile

open Program

/-- What is told does not matter. -/
theorem onEither_upheld {net : Network σ} (peers : PrefixPeers net h) (node : NodeId)
    (settings : SyncSettings) (hl : l.Sound) (hh : h.Sound) (first : l.first = h.first)
    (no : ¬ Chain.SealCollision l h) :
    Upheld net node settings (fun _ => Chain.OnEither l h) (fun _ _ => True)
      (fun _ b => b ∈ h.blocks) where
  lasting _ _ _ _ on := on
  told _ _ _ _ _ := trivial
  good _ _ _ _ member := member
  views _ _ _ _ _ _ _ _ _ _ _ := trivial
  blocks infos nodes w w' bs _ ran b hb := by
    obtain ⟨id, m, s, reply, given, member⟩ := fetchBlocks_replied ran b hb
    exact peers.mem_blocks given b member
  cut _ c c' parent b position n room on found follows member removed := by
    obtain ⟨above, entry⟩ := Chain.getElem?_of_at? found
    obtain ⟨hk, rfl⟩ := List.getElem?_eq_some_iff.mp entry
    obtain ⟨-, -, rfl⟩ := Chain.removeAfter_eq_ok_iff.mp removed
    exact on.cut hl hh first no member hk (by omega) follows
  save _ c c' b on member saved := by
    obtain ⟨fresh, follows, rfl⟩ := Chain.save_eq_ok_iff.mp saved
    exact on.push hl hh first no member fresh follows

/-- **Safety under partial failure.** Peers answer from first parts of `h`, when they answer, and
the blocks that are announced are blocks of `h`. However a sequence of calls goes, at every moment
of it the positions and hashes of the node's chain are those that it had, or the first ones of `h`,
or else the seals of two blocks of the chains collide. -/
theorem calls_keep_prefix {net : Network σ} (peers : PrefixPeers net h) (node : NodeId)
    (settings : SyncSettings) (hl : l.Sound) (hh : h.Sound) (first : l.first = h.first)
    (calls : List Call) (announced : ∀ rounds b, .fresh rounds b ∈ calls → b ∈ h.blocks)
    {w : World σ} (stored : w.chain = l) :
    Always net (fun w' => w'.chain.infos = l.infos ∨ w'.chain.infos <+: h.infos)
        (Call.programs node settings calls) w ∨
      Chain.SealCollision l h := by
  by_cases collision : Chain.SealCollision l h
  · exact .inr collision
  · have u := onEither_upheld peers node settings hl hh first collision
    have start : Holds (fun _ => Chain.OnEither l h) w := .inl stored
    exact .inl ((u.calls start announced).mono (fun _ on => on.infos) fun _ _ => id)

/-- A node with the genesis block only hears of a second block and reconciles, while its one peer
has no more than the node has. -/
theorem calls_keep_prefix_second :
    let h := Chain.new.push Sample.second
    let net := Solo.network "peer" .testing (by decide) .new
    let w : World Solo.Memory :=
      ⟨.new "self" .testing .testing 50 (.ofChain .new) 0, .empty, []⟩
    PrefixPeers net h ∧ Chain.new.Sound ∧ h.Sound ∧ Chain.new.first = h.first ∧
      (∀ rounds b, .fresh rounds b ∈ [Call.fresh 1 Sample.second, .reconcile 1] → b ∈ h.blocks) ∧
      w.chain = .new ∧
      Always net (fun w' => w'.chain.infos = Chain.new.infos ∨ w'.chain.infos <+: h.infos)
        (Call.programs "self" .testing [.fresh 1 Sample.second, .reconcile 1]) w := by
  intro h net w
  have peers : PrefixPeers net h := fun id m s reply given =>
    ⟨s.responder "peer" .testing, 0, .new, ⟨[Sample.second], rfl⟩, given⟩
  have sound : h.Sound := Chain.valid_second.toSound
  have announced : ∀ rounds b, .fresh rounds b ∈ [Call.fresh 1 Sample.second, .reconcile 1] →
      b ∈ h.blocks := by
    intro rounds b member
    rcases List.mem_cons.mp member with same | member
    · cases same
      exact List.mem_append_right Chain.new.blocks (List.mem_singleton.mpr rfl)
    · cases List.mem_singleton.mp member
  refine ⟨peers, Chain.sound_start _, sound, rfl, announced, rfl, ?_⟩
  rcases calls_keep_prefix peers "self" .testing (Chain.sound_start _) sound rfl _ announced
    (w := w) rfl with always | collision
  · exact always
  · exact absurd collision not_sealCollision_second

end Reconcile

end ChainNode
