import Mathlib.Data.List.Perm.Subperm
import ChainNode.Proofs.Peer.Honest

/-!
# A single honest peer

The smallest network that `HonestPeers` describes: one responder over a chain. It remembers the ids
of requests as any responder does, and an id that is given out is one that it does not remember;
there always is one, because what it remembers is bounded.

* `RequestId.numbered_inj`, `Memory.unused_not_mem`: the id that is given out.
* `honest`: the network is one of honest peers.
-/
namespace ChainNode

theorem RequestId.numbered_inj {a b : Nat} (ha : a < UInt64.size) (hb : b < UInt64.size)
    (h : numbered a = numbered b) : a = b := by
  have low : 0x8000000000000000 + UInt64.ofNat a = 0x8000000000000000 + UInt64.ofNat b :=
    congrArg low h
  have numbers := congrArg UInt64.toNat ((UInt64.add_right_inj _).mp low)
  rwa [UInt64.toNat_ofNat_of_lt' ha, UInt64.toNat_ofNat_of_lt' hb] at numbers

namespace Solo

/-- The request ids that the peer remembers, with their times. -/
structure Memory where
  entries : List (RequestId × Nat)
  short : entries.length < UInt64.size

namespace Memory

def empty : Memory := ⟨[], by decide⟩

/-- The lowest id in the count that is not remembered. -/
def unused (m : Memory) : RequestId :=
  (((List.range (m.entries.length + 1)).map RequestId.numbered).find?
    (· ∉ m.entries.map Prod.fst)).getD (.numbered 0)

def responder (peer : NodeId) (settings : SyncSettings) (m : Memory) : Responder :=
  { Responder.new peer settings with
    served := ⟨max settings.cacheCapacity 1, settings.cacheTtlMs, m.entries⟩ }

/-- More ids are tried than are remembered. -/
theorem unused_not_mem (m : Memory) : m.unused ∉ m.entries.map Prod.fst := by
  unfold unused
  cases found : ((List.range (m.entries.length + 1)).map RequestId.numbered).find?
      (· ∉ m.entries.map Prod.fst) with
  | some id => simpa using List.find?_some found
  | none =>
    have short := m.short
    have remembered : (List.range (m.entries.length + 1)).map RequestId.numbered ⊆
        m.entries.map Prod.fst := fun id hid => by
      simpa using List.find?_eq_none.mp found id hid
    have distinct : ((List.range (m.entries.length + 1)).map RequestId.numbered).Nodup := by
      refine List.Nodup.map_on ?_ List.nodup_range
      intro a ha b hb
      rw [List.mem_range] at ha hb
      exact RequestId.numbered_inj (by omega) (by omega)
    have length := (distinct.subperm remembered).length_le
    simp only [List.length_map, List.length_range] at length
    omega

end Memory

theorem contains_eq_false {κ : Type} [DecidableEq κ] {c : SeenCache κ} {now : Nat} {key : κ}
    (h : key ∉ c.entries.map Prod.fst) : c.contains now key = false := by
  have unseen : c.entries.find? (·.1 = key) = none := by
    refine List.find?_eq_none.mpr fun e he => ?_
    simpa using fun same : e.1 = key => h (same ▸ List.mem_map_of_mem he)
  rw [SeenCache.contains, unseen]

theorem length_served_le (r : Responder) (now : Nat) (m : Message) (s : Store) :
    (r.handle now m s).2.1.served.length ≤ max r.served.length r.served.capacity := by
  have put : ∀ q : BatchRequest, (r.served.put now q.id).length ≤
      max r.served.length r.served.capacity :=
    fun q => Nat.le_trans (r.served.length_put_le now q.id) (Nat.le_max_right ..)
  have serve : ∀ {α : Type} (position : α → UInt64) (read : Nat → Nat → Store.Op (List α))
      (wrap : BatchReply α → Message) (q : BatchRequest),
      (Responder.serve position read wrap now q r s).2.1.served.length ≤
        max r.served.length r.served.capacity := by
    intro α position read wrap q
    unfold Responder.serve SeenCache.insertIfAbsent
    cases r.served.contains now q.id with
    | true => exact Nat.le_max_left ..
    | false =>
      simp only [Bool.false_eq_true, if_false]
      split
      · exact put q
      · split <;> exact put q
  cases m with
  | infoRequest q => exact serve ..
  | blockRequest q => exact serve ..
  | freshBlock | infos | blocks => exact Nat.le_max_left ..

section

variable (peer : NodeId) (settings : SyncSettings) (small : settings.cacheCapacity < UInt64.size)
  (h : Chain)

/-- The peer answers at once, and no time passes. -/
def network : Network Memory where
  members _ := [peer]
  shuffle ids m := (ids, m)
  newId m := (m.unused, m)
  latency _ _ _ := 0
  handle _ q m :=
    let answer := (m.responder peer settings).handle 0 q (.ofChain h)
    (answer.1, ⟨answer.2.1.served.entries, by
      have bound := length_served_le (m.responder peer settings) 0 q (.ofChain h)
      have short := m.short
      have some_room : 1 < UInt64.size := by decide
      simp only [SeenCache.length, Memory.responder] at bound
      exact Nat.lt_of_le_of_lt bound (by omega)⟩)
  broadcast _ _ m := (.ok (), m)
  meanwhile n m := (n, m)

def honest {node : NodeId} (other : peer ≠ node) :
    HonestPeers (network peer settings small h) node settings h where
  ids := [peer]
  responder m _ := m.responder peer settings
  clock _ := 0
  others := fun self => other (List.mem_singleton.mp self).symm
  active _ := ⟨peer, List.mem_cons_self, other⟩
  known _ _ hid _ := hid
  shuffled _ _ := .refl _
  intime _ _ _ _ := Nat.zero_le _
  alike _ _ _ := rfl
  answers _ _ _ _ := rfl
  new m _ _ := contains_eq_false m.unused_not_mem
  undisturbed _ _ _ unheard := unheard

end

end Solo

end ChainNode
