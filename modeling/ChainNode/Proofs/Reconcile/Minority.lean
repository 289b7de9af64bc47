import ChainNode.Proofs.Peer.Solo
import ChainNode.Proofs.Reconcile.Upheld
import ChainNode.Proofs.View.Majority

/-!
# What a minority can do

In every round for infos most of the reports that count are those of honest peers over one chain
`h`; the others say what they like. The honest ones all report one range of `h`, so the camp that is
chosen is theirs, and a member that contradicts them is not in it. But the view is the list of the
longest member. A member that agrees with the honest ones on their range and goes on beyond it is
believed there too, and if it has blocks for what it tells they end up in the chain. Such a report
overreaches, and there is no other way for a hash to enter the chain at a position of `h`, if it is
not the hash that `h` has there.

* `trusted_of_choose`: what a view can tell when most reports are honest.
* `reconcile_unless_overreached`: what a reconciliation can store.
* `AllHonest.always`: a network in which all rounds are honest.
-/
namespace ChainNode

namespace Reconcile

open Program

variable {h : Chain} {settings : SyncSettings} {q : BatchRequest}

/-! ## Honest reports -/

/-- The report is what a responder over `h` with these settings answers. -/
def HonestReport (h : Chain) (settings : SyncSettings) (q : BatchRequest) (r : Report) : Prop :=
  ∃ (peer : Responder) (now : Nat) (reply : BatchReply BlockInfo),
    peer.maxBatch = (Responder.new peer.node settings).maxBatch ∧
    (peer.handle now (.infoRequest q) (.ofChain h)).1 = .ok (.infos reply) ∧
    r.infos = reply.entities

/-- More than half of the reports that count are honest, or none counts. -/
def HonestMajority (h : Chain) (settings : SyncSettings) (q : BatchRequest)
    (reports : List Report) : Prop :=
  usable reports = [] ∨ ∃ honest : List Report, honest.Sublist (usable reports) ∧
    (usable reports).length < 2 * honest.length ∧ ∀ r ∈ honest, HonestReport h settings q r

/-- If it is a round for infos, most of what it brought is honest. -/
def HonestRound (h : Chain) (settings : SyncSettings) (e : Event) : Prop :=
  ∀ (q : BatchRequest) (targets : List NodeId) (replies : List (NodeId × Message)) (elapsed : Nat),
    e = .asked (targets.map fun t => (t, .infoRequest q)) replies elapsed → targets ≠ [] →
    HonestMajority h settings q (World.understood readInfos replies)

/-- A report tells of a position outside the range that the honest ones cover, is no shorter than
they are, and contradicts none of them. -/
structure Overreaches (h : Chain) (settings : SyncSettings) (q : BatchRequest) (r : Report)
    (i : BlockInfo) : Prop where
  tells : i ∈ r.infos
  outside : i.height < q.start.toNat ∨ q.start.toNat + settings.served q.size ≤ i.height
  long : (h.span q.start.toNat (settings.served q.size)).length ≤ r.infos.length
  peaceful : Agree (h.span q.start.toNat (settings.served q.size)) r.infos

/-- A report that counted in some round for infos overreaches. -/
inductive Overreached (h : Chain) (settings : SyncSettings) (events : List Event) (i : BlockInfo) :
    Prop where
  | report {q : BatchRequest} {targets : List NodeId} {replies : List (NodeId × Message)}
      {elapsed : Nat} {r : Report}
      (noted : .asked (targets.map fun t => (t, .infoRequest q)) replies elapsed ∈ events)
      (some_target : targets ≠ []) (counts : r ∈ usable (World.understood readInfos replies))
      (reaches : Overreaches h settings q r i) : Overreached h settings events i

theorem HonestReport.infos {r : Report} (honest : HonestReport h settings q r) :
    r.infos = h.span q.start.toNat (settings.served q.size) := by
  obtain ⟨peer, now, reply, alike, answer, infos⟩ := honest
  rw [Responder.handle_infoRequest, Responder.cap_eq alike] at answer
  split at answer
  · cases answer
  · cases answer
    exact infos

/-- Where most reports are honest, a view that is chosen tells of a position of `h` what `h` has
there, unless it is the list of a report that overreaches. -/
theorem trusted_of_choose (hh : h.Valid) {reports : List Report} {view : View}
    (majority : HonestMajority h settings q reports) (chosen : choose reports = some view)
    {i : BlockInfo} (hi : i ∈ view.infos) (top : i.height ≤ h.head.height) :
    i ∈ h.infos ∨ ∃ r ∈ usable reports, Overreaches h settings q r i := by
  obtain ⟨m, stands⟩ := exists_stands chosen
  obtain ⟨r, hr, sorted, longest⟩ := stands.infos
  have counts := stands.arrival.subset hr
  have hi' : i ∈ r.infos := by
    rw [sorted] at hi
    exact List.mem_mergeSort.mp hi
  rcases majority with none_counts | ⟨honest, within, most, all⟩
  · rw [none_counts] at counts
    cases counts
  · let span := h.span q.start.toNat (settings.served q.size)
    -- the honest reports all give this list, so the camp holds them
    have agreed : honest.Sublist (reporters reports span) := by
      have kept : honest.filter (·.infos.Perm span) = honest := by
        rw [List.filter_eq_self]
        exact fun a ha => decide_eq_true (.of_eq (all a ha).infos)
      rw [← kept]
      exact within.filter _
    have held := stands.majority span (by have := agreed.length_le; omega)
    obtain ⟨a, ha⟩ := List.exists_mem_of_ne_nil honest (List.ne_nil_of_length_pos (by omega))
    have member : a ∈ m := held.subset (agreed.subset ha)
    have infos : a.infos = span := (all a ha).infos
    have peaceful := stands.agree a member r hr
    have long := longest a member
    rw [infos] at peaceful long
    by_cases outside : i.height < q.start.toNat ∨
        q.start.toNat + settings.served q.size ≤ i.height
    · exact .inr ⟨r, counts, ⟨hi', outside, long, peaceful⟩⟩
    · have nonempty : span ≠ [] := by
        rw [← infos]
        exact (Report.isUsable_iff.mp (List.mem_filter.mp (within.subset ha)).2).1
      push Not at outside
      obtain ⟨j, hj, height⟩ := hh.exists_span nonempty outside.1 outside.2 top
      have same := peaceful j hj i hi' (BlockInfo.position_eq_iff.mpr height)
      rw [← BlockInfo.eq_of_height_hash height same]
      exact .inl (Chain.mem_infos_of_mem_span hj)

/-! ## What is stored -/

/-- The info is that of `h`, or above `h`, or some report overreached with it. -/
def Trusted (h : Chain) (settings : SyncSettings) (events : List Event) (i : BlockInfo) : Prop :=
  i ∈ h.infos ∨ h.head.height < i.height ∨ Overreached h settings events i

/-- It holds of what was noted since `earlier`, if all rounds in it are honest. -/
def Since {α : Type} (h : Chain) (settings : SyncSettings) (earlier : List Event)
    (P : List Event → α → Prop) (events : List Event) (a : α) : Prop :=
  ∃ new, events = new ++ earlier ∧ ((∀ e ∈ new, HonestRound h settings e) → P new a)

/-- Each block was there before or is one whose info is trusted. -/
def Stored (h : Chain) (settings : SyncSettings) (l : Chain) (new : List Event) (c : Chain) :
    Prop :=
  ∀ b ∈ c.blocks, b.info ∈ l.infos ∨ Trusted h settings new b.info

theorem Trusted.lasting : Lasting (Trusted h settings) := by
  intro events later i more trusted
  rcases trusted with known | above | ⟨noted, some_target, counts, reaches⟩
  · exact .inl known
  · exact .inr (.inl above)
  · exact .inr (.inr ⟨more.subset noted, some_target, counts, reaches⟩)

theorem Stored.lasting {l : Chain} : Lasting (Stored h settings l) := fun _ _ _ more stored b hb =>
  (stored b hb).imp id (Trusted.lasting _ _ _ more)

namespace Since

variable {α β : Type} {earlier events : List Event} {P : List Event → α → Prop}
  {Q : List Event → β → Prop} {a : α} {b : β}

theorem lasting (hP : Lasting P) : Lasting (Since h settings earlier P) := by
  rintro _ _ a ⟨more, rfl⟩ ⟨new, rfl, since⟩
  refine ⟨more ++ new, by simp, fun honest => ?_⟩
  have before := since fun e he => honest e (List.mem_append_right _ he)
  exact hP _ _ a (List.suffix_append _ _) before

theorem map (since : Since h settings earlier P events a) (f : ∀ new, P new a → Q new b) :
    Since h settings earlier Q events b := by
  obtain ⟨new, split, holds⟩ := since
  exact ⟨new, split, fun honest => f new (holds honest)⟩

/-- Two properties of what was noted since one moment are properties of the same events. -/
theorem and (since : Since h settings earlier P events a)
    (since' : Since h settings earlier Q events b) :
    Since h settings earlier (fun new _ => P new a ∧ Q new b) events () := by
  obtain ⟨new, split, holds⟩ := since
  obtain ⟨new', split', holds'⟩ := since'
  obtain rfl : new = new' := List.append_cancel_right (split.symm.trans split')
  exact ⟨new, split, fun honest => ⟨holds honest, holds' honest⟩⟩

end Since

variable {σ : Type} {net : Network σ} {node : NodeId}

theorem since_asked (hh : h.Valid) {earlier before events : List Event} {start : UInt64}
    {size : UInt32} {reports : List Report} {view : View} (started : earlier <:+ before)
    (asked : Asked start size before reports events) (chosen : choose reports = some view)
    {i : BlockInfo} (hi : i ∈ view.infos) :
    Since h settings earlier (Trusted h settings) events i := by
  cases asked with
  | @round q targets replies elapsed noted_before from_start of_size some_target later =>
    obtain ⟨more, rfl⟩ := started.trans later
    refine ⟨_ :: more, rfl, fun honest => ?_⟩
    have majority := honest _ List.mem_cons_self q targets replies elapsed rfl some_target
    by_cases top : i.height ≤ h.head.height
    · rcases trusted_of_choose hh majority chosen hi top with known | ⟨r, counts, reaches⟩
      · exact .inl known
      · exact .inr (.inr ⟨List.mem_cons_self, some_target, counts, reaches⟩)
    · exact .inr (.inl (Nat.lt_of_not_le top))

theorem stored_upheld (net : Network σ) (node : NodeId) (settings : SyncSettings) (hh : h.Valid)
    (l : Chain) (earlier : List Event) :
    Upheld net node settings (Since h settings earlier (Stored h settings l))
      (Since h settings earlier (Trusted h settings))
      (fun events b => Since h settings earlier (Trusted h settings) events b.info) where
  lasting := Since.lasting Stored.lasting
  told := Since.lasting Trusted.lasting
  good events later b more := Since.lasting Trusted.lasting events later b.info more
  views start size w w' reports view stored ran chosen i hi := by
    obtain ⟨new, split, -⟩ := stored
    exact since_asked hh ⟨new, split.symm⟩ (fetchInfos_noted ran) chosen hi
  blocks infos nodes w w' bs told ran b hb := by
    obtain ⟨r, w'', again, picked, -⟩ := (fetchBlocks_asks node settings infos nodes).run net w
    rw [ran] at again
    cases again
    have listed : b.info ∈ infos := (picked bs rfl).listed.subset (List.mem_map_of_mem hb)
    have more := events_suffix net (fetchBlocks node settings infos nodes) w
    rw [ran] at more
    exact Since.lasting Trusted.lasting _ _ _ more (told _ listed)
  cut events c c' parent b position n _ stored _ _ _ removed := by
    obtain ⟨-, -, rfl⟩ := Chain.removeAfter_eq_ok_iff.mp removed
    refine stored.map fun new stored b hb => ?_
    rw [Chain.blocks_cut] at hb
    exact stored b (List.mem_of_mem_take hb)
  save events c c' b stored good saved := by
    obtain ⟨-, -, rfl⟩ := Chain.save_eq_ok_iff.mp saved
    refine (stored.and good).map fun new both a ha => ?_
    rw [Chain.blocks_push] at ha
    rcases List.mem_append.mp ha with old | same
    · exact both.1 a old
    · rw [List.mem_singleton.mp same]
      exact .inr both.2

/-- **What a minority can do.** A node reconciles while in each of its rounds for infos most of the
reports that count, if any does, are those of honest peers over `h`; the others may say anything,
and give any blocks. At every moment, and however it ends, a block at a position that `h` has
carries the hash that `h` has there or the one that the node had there before, unless a report
overreached with just that hash. -/
theorem reconcile_unless_overreached (net : Network σ) (node : NodeId) (settings : SyncSettings)
    (rounds : Nat) (hh : h.Valid) (w : World σ) :
    Always net
      (fun w' => ∃ new, w'.events = new ++ w.events ∧
        ((∀ e ∈ new, HonestRound h settings e) → ∀ b ∈ w'.chain.blocks,
          b.height ≤ h.head.height →
            b.info ∈ h.infos ∨ b.info ∈ w.chain.infos ∨ Overreached h settings new b.info))
      (reconcile node settings rounds) w := by
  have u := stored_upheld net node settings hh w.chain w.events
  have start : Holds (Since h settings w.events (Stored h settings w.chain)) w :=
    ⟨[], rfl, fun _ b hb => .inl (List.mem_map_of_mem hb)⟩
  refine (u.reconcile rounds start).mono (fun w' kept => ?_) fun _ _ => id
  obtain ⟨new, split, stored⟩ := kept
  refine ⟨new, split, fun honest b hb top => ?_⟩
  rcases stored honest b hb with before | known | above | overreached
  · exact .inr (.inl before)
  · exact .inl known
  · exact absurd above (Nat.not_lt.mpr top)
  · exact .inr (.inr overreached)

/-! ## Networks of honest peers -/

/-- All replies are those of responders over `h` with these settings. -/
def AllHonest (net : Network σ) (h : Chain) (settings : SyncSettings) : Prop :=
  ∀ id m s reply, (net.handle id m s).1 = .ok reply →
    ∃ (peer : Responder) (now : Nat), peer.maxBatch = (Responder.new peer.node settings).maxBatch ∧
      (peer.handle now m (.ofChain h)).1 = .ok reply

/-- What was noted since `earlier` contains no round without an honest majority. -/
def HonestSince (h : Chain) (settings : SyncSettings) (earlier : List Event) (w : World σ) : Prop :=
  ∃ new, w.events = new ++ earlier ∧ ∀ e ∈ new, HonestRound h settings e

theorem HonestMajority.of_all {reports : List Report}
    (all : ∀ r ∈ reports, HonestReport h settings q r) : HonestMajority h settings q reports := by
  by_cases nothing : usable reports = []
  · exact .inl nothing
  · have counted : ∀ r ∈ usable reports, HonestReport h settings q r :=
      fun r hr => all r (List.mem_filter.mp hr).1
    refine .inr ⟨usable reports, List.Sublist.refl _, ?_, counted⟩
    have some_report := List.length_pos_of_ne_nil nothing
    omega

theorem AllHonest.round (honest : AllHonest net h settings) {β : Type} (r : Round β) (w : World σ) :
    ∃ replies elapsed, (w.round net r).2.events = .asked r.calls replies elapsed :: w.events ∧
      HonestRound h settings (.asked r.calls replies elapsed) := by
  obtain ⟨replies, elapsed, noted, given, -⟩ := World.round_noted net r w
  refine ⟨replies, elapsed, noted, ?_⟩
  intro q targets replies' elapsed' same _
  injection same with calls same_replies _
  subst same_replies
  refine .of_all fun report hreport => ?_
  obtain ⟨⟨id, m⟩, hreply, hread⟩ := World.mem_understood.mp hreport
  obtain ⟨question, s, asked, handled⟩ := given _ hreply
  rw [calls] at asked
  obtain ⟨target, -, same⟩ := List.mem_map.mp asked
  cases same
  obtain ⟨peer, now, alike, answer⟩ := honest _ _ _ _ handled
  cases m with
  | infos reply =>
    cases hread
    exact ⟨peer, now, reply, alike, answer, rfl⟩
  | infoRequest | blockRequest | blocks | freshBlock => cases hread

theorem AllHonest.exec (honest : AllHonest net h settings) {earlier : List Event} {w : World σ}
    (since : HonestSince h settings earlier w) {β : Type} (c : Command β) :
    HonestSince h settings earlier (c.exec net w).2 := by
  have noted : ∀ {w' : World σ} {e : Event}, w'.events = e :: w.events → HonestRound h settings e →
      HonestSince h settings earlier w' := by
    intro w' e events round
    obtain ⟨new, split, all⟩ := since
    exact ⟨e :: new, by rw [events, split]; rfl, List.forall_mem_cons.mpr ⟨round, all⟩⟩
  cases c with
  | act | members | shuffle | newId | busy => exact since
  | broadcast topic m => exact noted rfl nofun
  | save b =>
    rcases Command.exec_save_cases net b w with ⟨e, w', ran, -, events⟩ | ⟨w', ran, -, events⟩
    · rw [ran]
      obtain ⟨new, split, all⟩ := since
      exact ⟨new, by rw [events, split], all⟩
    · rw [ran]
      exact noted events nofun
  | round r =>
    obtain ⟨replies, elapsed, events, round⟩ := honest.round r w
    exact noted events round

/-- In such a network every round for infos is honest, whatever the node does. -/
theorem AllHonest.always {ε α : Type} (honest : AllHonest net h settings) {earlier : List Event}
    (p : Program ε α) {w : World σ} (since : HonestSince h settings earlier w) :
    Always net (HonestSince h settings earlier) p w := by
  induction p generalizing w with
  | done r =>
    cases r with
    | ok a => exact ⟨since, trivial⟩
    | error e => exact since
  | unfinished => exact since
  | perform c next ih => exact ⟨since, ih _ (honest.exec since c)⟩

/-- A node with the genesis block only, and an honest peer that has a second block. -/
theorem reconcile_unless_overreached_second :
    let h := Chain.new.push Sample.second
    let net := Solo.network "peer" .testing (by decide) h
    let w : World Solo.Memory :=
      ⟨.new "self" .testing .testing 50 (.ofChain .new) 0, .empty, []⟩
    h.Valid ∧ Always net (HonestSince h .testing w.events) (reconcile "self" .testing 3) w ∧
      Always net
        (fun w' => ∃ new, w'.events = new ++ w.events ∧
          ((∀ e ∈ new, HonestRound h .testing e) → ∀ b ∈ w'.chain.blocks,
            b.height ≤ h.head.height →
              b.info ∈ h.infos ∨ b.info ∈ w.chain.infos ∨ Overreached h .testing new b.info))
        (reconcile "self" .testing 3) w := by
  intro h net w
  have valid : h.Valid := Chain.valid_second
  have honest : AllHonest net h .testing := fun id m s reply given =>
    ⟨s.responder "peer" .testing, 0, rfl, given⟩
  refine ⟨valid, honest.always _ ⟨[], rfl, nofun⟩, ?_⟩
  exact reconcile_unless_overreached net "self" .testing 3 valid w

end Reconcile

end ChainNode
