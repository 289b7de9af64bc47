import ChainNode.Proofs.Fingerprint
import ChainNode.Proofs.Reconcile.Ask
import ChainNode.Proofs.Sample

/-!
# A download cannot be poisoned

A download takes from what peers send the blocks of a list of infos, one after the other, up to the
first that is missing. Two correct blocks with one hash are the same block, up to a collision of
their seals, so it makes no difference which of them comes first, and a block that is not correct is
as good as none. What is returned is therefore a matter of which blocks came: the order of the
replies does not count, and neither does what hostile peers add to them.

* `stopsAt_pickBlocks`: where it stops.
* `prefix_pickBlocks`: more blocks lead further.
* `download_unpoisoned`: what this means for a download.
-/
namespace ChainNode

/-! ## One hash, one block -/

/-- Two of the blocks have different seals with one digest. -/
def Colliding (found : List Block) : Prop := ∃ a ∈ found, ∃ b ∈ found, a.SealCollision b

theorem Colliding.of_subset {found found' : List Block} (h : Colliding found)
    (sub : found ⊆ found') : Colliding found' := by
  obtain ⟨a, ha, b, hb, collision⟩ := h
  exact ⟨a, sub ha, b, sub hb, collision⟩

/-- A hash names one of the blocks at most. -/
def Unambiguous (found : List Block) : Prop :=
  ∀ a ∈ found, ∀ b ∈ found, a.hash = b.hash → a = b

theorem Unambiguous.of_subset {found found' : List Block} (h : Unambiguous found')
    (sub : found ⊆ found') : Unambiguous found :=
  fun a ha b hb => h a (sub ha) b (sub hb)

theorem unambiguous_filter_isCorrect {found : List Block} (no : ¬Colliding found) :
    Unambiguous (found.filter Block.isCorrect) := by
  intro a ha b hb same
  obtain ⟨ha, correct_a⟩ := List.mem_filter.mp ha
  obtain ⟨hb, correct_b⟩ := List.mem_filter.mp hb
  rcases Block.eq_or_collision correct_a correct_b same with eq | collision
  · exact eq
  · exact absurd ⟨a, ha, b, hb, collision⟩ no

/-- Where a hash names one block, lists of blocks are compared by their infos. -/
theorem Unambiguous.prefix_of_infos : ∀ {as bs : List Block}, Unambiguous (as ++ bs) →
    as.map Block.info <+: bs.map Block.info → as <+: bs
  | [], bs, _, _ => List.nil_prefix
  | a :: as, [], _, before => by
    have := before.length_le
    simp at this
  | a :: as, b :: bs, h, before => by
    rw [List.map_cons, List.map_cons, List.cons_prefix_cons] at before
    obtain ⟨same, before⟩ := before
    have eq : a = b := h a (by simp) b (by simp) (congrArg BlockInfo.hash same)
    have rest : as <+: bs := by
      refine prefix_of_infos (h.of_subset ?_) before
      rw [List.append_subset]
      exact ⟨fun x hx => by simp [hx], fun x hx => by simp [hx]⟩
    rw [eq, List.cons_prefix_cons]
    exact ⟨rfl, rest⟩

namespace Reconcile

open Program

/-! ## Where a download stops -/

/-- The info with index `k` is the first with its hash, and a correct block has this hash and the
position. -/
def Obtainable (infos : List BlockInfo) (found : List Block) (k : Nat) : Prop :=
  ∃ i, infos[k]? = some i ∧ i.hash ∉ (infos.take k).map BlockInfo.hash ∧
    ∃ b ∈ found, b.isCorrect = true ∧ b.hash = i.hash ∧ b.position = i.position

/-- The infos before index `k` can all be obtained, and the one with this index cannot, if there is
one. -/
structure StopsAt (infos : List BlockInfo) (found : List Block) (k : Nat) : Prop where
  before : ∀ j < k, Obtainable infos found j
  there : ¬Obtainable infos found k

section

variable {i : BlockInfo} {infos : List BlockInfo} {found found' : List Block}

theorem Obtainable.of_subset {k : Nat} (h : Obtainable infos found k) (sub : found ⊆ found') :
    Obtainable infos found' k := by
  obtain ⟨i, listed, first, b, hb, obtained⟩ := h
  exact ⟨i, listed, first, b, sub hb, obtained⟩

theorem obtainable_zero : Obtainable (i :: infos) found 0 ↔
    ∃ b ∈ found, b.isCorrect = true ∧ b.hash = i.hash ∧ b.position = i.position := by
  simp [Obtainable]

/-- Behind the first info its hash no longer counts. -/
theorem obtainable_succ {k : Nat} : Obtainable (i :: infos) found (k + 1) ↔
    Obtainable infos (found.filter (·.hash ≠ i.hash)) k := by
  constructor
  · rintro ⟨j, listed, first, b, hb, correct, hash, position⟩
    rw [List.take_succ_cons, List.map_cons, List.mem_cons, not_or] at first
    refine ⟨j, listed, first.2, b, List.mem_filter.mpr ⟨hb, ?_⟩, correct, hash, position⟩
    exact decide_eq_true (hash ▸ first.1)
  · rintro ⟨j, listed, first, b, hb, correct, hash, position⟩
    obtain ⟨hb, other⟩ := List.mem_filter.mp hb
    refine ⟨j, listed, ?_, b, hb, correct, hash, position⟩
    rw [List.take_succ_cons, List.map_cons, List.mem_cons, not_or]
    exact ⟨hash ▸ of_decide_eq_true other, first⟩

theorem StopsAt.le {k k' : Nat} (h : StopsAt infos found k) (h' : StopsAt infos found' k')
    (sub : found ⊆ found') : k ≤ k' := by
  by_contra less
  exact h'.there ((h.before k' (by omega)).of_subset sub)

/-- Where no hash names two blocks, a block that cannot be used keeps no other from being used. -/
theorem stopsAt_pickBlocks (correct : ∀ b ∈ found, b.isCorrect = true) (h : Unambiguous found) :
    StopsAt infos found (pickBlocks infos found).length := by
  induction infos generalizing found with
  | nil =>
    refine ⟨fun _ less => absurd less (Nat.not_lt_zero _), ?_⟩
    rintro ⟨i, listed, -⟩
    cases listed
  | cons i infos ih =>
    unfold pickBlocks
    split
    · rename_i missing
      refine ⟨fun _ less => absurd less (Nat.not_lt_zero _), ?_⟩
      rw [List.length_nil, obtainable_zero]
      rintro ⟨b, hb, -, hash, -⟩
      simpa [hash] using List.find?_eq_none.mp missing b hb
    · rename_i b found_b
      have hb := List.mem_of_find?_eq_some found_b
      have hash : b.hash = i.hash := by simpa using List.find?_some found_b
      split
      · rename_i position
        have rest := ih (fun b hb => correct b (List.mem_filter.mp hb).1)
          (h.of_subset (found.filter_sublist (p := (·.hash ≠ i.hash))).subset)
        rw [List.length_cons]
        refine ⟨fun j less => ?_, fun again => rest.there (obtainable_succ.mp again)⟩
        cases j with
        | zero => exact obtainable_zero.mpr ⟨b, hb, correct b hb, hash, position⟩
        | succ j => exact obtainable_succ.mpr (rest.before j (Nat.lt_of_succ_lt_succ less))
      · rename_i elsewhere
        refine ⟨fun _ less => absurd less (Nat.not_lt_zero _), ?_⟩
        rw [List.length_nil, obtainable_zero]
        rintro ⟨b', hb', -, hash', position⟩
        rw [h b' hb' b hb (hash'.trans hash.symm)] at position
        exact elsewhere position

/-- From more blocks at least the same are picked. -/
theorem prefix_pickBlocks (correct : ∀ b ∈ found', b.isCorrect = true) (h : Unambiguous found')
    (sub : found ⊆ found') : pickBlocks infos found <+: pickBlocks infos found' := by
  have correct_found : ∀ b ∈ found, b.isCorrect = true := fun b hb => correct b (sub hb)
  have stops : StopsAt infos found _ := stopsAt_pickBlocks correct_found (h.of_subset sub)
  have stops' : StopsAt infos found' _ := stopsAt_pickBlocks correct h
  have further := stops.le stops' sub
  refine Unambiguous.prefix_of_infos (h.of_subset ?_) ?_
  · rw [List.append_subset]
    exact ⟨fun b hb => sub (mem_of_mem_pickBlocks hb), fun b hb => mem_of_mem_pickBlocks hb⟩
  · refine List.prefix_of_prefix_length_le (picked_pickBlocks correct_found).listed
      (picked_pickBlocks correct).listed ?_
    rwa [List.length_map, List.length_map]

end

/-! ## Replies -/

theorem offered_subset {replies replies' : List (NodeId × Message)} (sub : replies ⊆ replies') :
    offered replies ⊆ offered replies' := by
  intro b hb
  obtain ⟨id, reply, given, member⟩ := mem_offered.mp hb
  exact mem_offered.mpr ⟨id, reply, sub given, member⟩

section

variable {infos : List BlockInfo} {replies replies' : List (NodeId × Message)}

theorem stopsAt_downloaded (no : ¬Colliding (offered replies)) :
    StopsAt infos (offered replies) (downloaded infos replies).length := by
  have stops : StopsAt infos ((offered replies).filter Block.isCorrect) _ :=
    stopsAt_pickBlocks (fun b hb => (List.mem_filter.mp hb).2) (unambiguous_filter_isCorrect no)
  refine ⟨fun j less => (stops.before j less).of_subset (List.filter_subset_self _), ?_⟩
  rintro ⟨i, listed, first, b, hb, correct, named⟩
  exact stops.there ⟨i, listed, first, b, List.mem_filter.mpr ⟨hb, correct⟩, correct, named⟩

theorem prefix_downloaded (no : ¬Colliding (offered replies')) (sub : replies ⊆ replies') :
    downloaded infos replies <+: downloaded infos replies' := by
  refine prefix_pickBlocks (fun b hb => (List.mem_filter.mp hb).2)
    (unambiguous_filter_isCorrect no) fun b hb => ?_
  obtain ⟨came, correct⟩ := List.mem_filter.mp hb
  exact List.mem_filter.mpr ⟨offered_subset sub came, correct⟩

end

/-- **A download cannot be poisoned.** Against any peers it ends, and if it collects replies it
returns what `downloaded` says. These blocks are correct and have the infos of a first part of the
list. Unless two of the blocks that came have different seals with one digest, they end before the
first info whose hash stands before it already or for which no correct block with its hash and
position came; the order of the replies makes no difference, and further replies bring at least
these blocks. -/
theorem download_unpoisoned (infos : List BlockInfo) :
    (∀ {σ : Type} (net : Network σ) self settings nodes (w : World σ),
      Ensures net (fun r w' => Download net infos w.events r w'.events)
        (fetchBlocks self settings infos nodes) w) ∧
    ∀ replies,
      (downloaded infos replies).map Block.info <+: infos ∧
      (∀ b ∈ downloaded infos replies, b.isCorrect = true) ∧
      (¬Colliding (offered replies) →
        StopsAt infos (offered replies) (downloaded infos replies).length ∧
        ∀ replies' : List (NodeId × Message), replies'.Perm replies →
          downloaded infos replies' = downloaded infos replies) ∧
      ∀ replies', replies ⊆ replies' → ¬Colliding (offered replies') →
        downloaded infos replies <+: downloaded infos replies' := by
  refine ⟨fun net self settings nodes w => fetchBlocks_ends net self settings infos nodes w,
    fun replies => ?_⟩
  have picked : Picked infos (downloaded infos replies) :=
    picked_pickBlocks fun b hb => (List.mem_filter.mp hb).2
  refine ⟨picked.listed, picked.correct, fun no => ⟨?_, fun replies' same => ?_⟩,
    fun replies' sub no => prefix_downloaded no sub⟩
  · exact stopsAt_downloaded no
  · have back : downloaded infos replies' <+: downloaded infos replies :=
      prefix_downloaded no same.subset
    have no' : ¬Colliding (offered replies') := fun collision =>
      no (collision.of_subset (offered_subset same.subset))
    have forth : downloaded infos replies <+: downloaded infos replies' :=
      prefix_downloaded no' same.symm.subset
    exact back.eq_of_length_le forth.length_le

/-- A hostile reply comes first, with the genesis block under the hash of the second sample
block. -/
theorem download_unpoisoned_second :
    let forged := { Block.genesis with hash := Sample.second.hash }
    let hostile : NodeId × Message := ("hostile", .blocks ⟨2, [forged], 1, true, "hostile"⟩)
    let honest : NodeId × Message := ("honest", .blocks ⟨2, [Sample.second], 2, true, "honest"⟩)
    let infos := [Sample.second.info]
    ¬Colliding (offered [hostile, honest]) ∧
      StopsAt infos (offered [hostile, honest]) (downloaded infos [hostile, honest]).length ∧
      Obtainable infos (offered [hostile, honest]) 0 ∧
      downloaded infos [honest, hostile] = downloaded infos [hostile, honest] ∧
      downloaded infos [honest] <+: downloaded infos [hostile, honest] := by
  intro forged hostile honest infos
  have unsealed : ∀ (b : Block) (hash : Label), { b with hash := hash }.sealBytes = b.sealBytes :=
    fun _ _ => rfl
  have apart : doubleDigest forged.sealBytes ≠ doubleDigest Sample.second.sealBytes := by
    rw [unsealed Block.genesis]
    exact Sample.sealDigest_second_ne
  have both : offered [hostile, honest] = [forged, Sample.second] := rfl
  have no : ¬Colliding (offered [hostile, honest]) := by
    rw [both]
    rintro ⟨a, ha, b, hb, different, same⟩
    simp only [List.mem_cons, List.not_mem_nil, or_false] at ha hb
    rcases ha with rfl | rfl <;> rcases hb with rfl | rfl
    · exact different rfl
    · exact apart same
    · exact apart same.symm
    · exact different rfl
  have obtainable : Obtainable infos (offered [hostile, honest]) 0 :=
    obtainable_zero.mpr ⟨Sample.second, by simp [both], Block.isCorrect_rehash _, rfl, rfl⟩
  obtain ⟨-, downloads⟩ := download_unpoisoned infos
  obtain ⟨-, -, settled, -⟩ := downloads [hostile, honest]
  obtain ⟨-, -, -, further⟩ := downloads [honest]
  obtain ⟨stops, unordered⟩ := settled no
  exact ⟨no, stops, obtainable, unordered _ (List.Perm.swap _ _ _),
    further _ (List.subset_cons_self _ _) no⟩

end Reconcile

end ChainNode
