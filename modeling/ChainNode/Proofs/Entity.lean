import ChainNode.Entity

/-!
# Fingerprints of collections do not depend on order

List hash and Merkle root are both taken over the members in the order of a number and a content.
That order is linear, so what comes of sorting is one list for all arrangements of the members,
also where numbers tie. What is not sorted away is which member fails first: if one of them has no
bytes, there is no fingerprint, but the error is that of the first such member.

* `mergeSort_keyLE_eq`: a list in key order is determined by its members.
* `collect_perm`, `isOk_collect`: collecting succeeds for all arrangements or for none.
* `fingerprints_of_perm`: both fingerprints.
-/
namespace ChainNode

/-! ## Key order -/

section

variable {α : Type} [LE α] [DecidableLE α] [Std.IsLinearOrder α]

theorem keyLE_self (a : Nat × α) : keyLE a a = true := by
  simpa using keyLE_total (fun _ _ => Std.le_total) a a

theorem pairwise_mergeSort_keyLE (xs : List (Nat × α)) :
    (xs.mergeSort keyLE).Pairwise fun a b => keyLE a b = true :=
  List.pairwise_mergeSort (keyLE_trans fun _ _ _ => Std.le_trans)
    (keyLE_total fun _ _ => Std.le_total) xs

theorem mergeSort_keyLE_eq {xs ys : List (Nat × α)} (perm : xs.Perm ys)
    (sorted : ys.Pairwise fun a b => keyLE a b = true) : xs.mergeSort keyLE = ys := by
  refine ((List.mergeSort_perm xs _).trans perm).eq_of_pairwise ?_
    (pairwise_mergeSort_keyLE xs) sorted
  exact fun a b _ _ => keyLE_antisymm (fun _ _ => Std.le_antisymm) a b

theorem mergeSort_keyLE_perm {xs ys : List (Nat × α)} (perm : xs.Perm ys) :
    xs.mergeSort keyLE = ys.mergeSort keyLE :=
  mergeSort_keyLE_eq (perm.trans (List.mergeSort_perm ys _).symm) (pairwise_mergeSort_keyLE ys)

end

/-! ## Collecting -/

section

variable {α β ε : Type} {f : α → Except ε β}

theorem collect_cons_eq_ok_iff {x : α} {xs : List α} {zs : List β} :
    collect f (x :: xs) = .ok zs ↔ ∃ y ys, f x = .ok y ∧ collect f xs = .ok ys ∧ zs = y :: ys := by
  cases hx : f x with
  | error e => simp [collect, hx]
  | ok y =>
    cases hxs : collect f xs with
    | error e => simp [collect, hx, hxs]
    | ok ys => simp [collect, hx, hxs, eq_comm]

theorem collect_eq_ok {g : α → β} :
    ∀ {xs : List α}, (∀ x ∈ xs, f x = .ok (g x)) → collect f xs = .ok (xs.map g)
  | [], _ => rfl
  | _ :: _, h => by
    obtain ⟨head, tail⟩ := List.forall_mem_cons.mp h
    exact collect_cons_eq_ok_iff.mpr ⟨_, _, head, collect_eq_ok tail, rfl⟩

theorem collect_map {γ : Type} (g : γ → α) :
    ∀ xs : List γ, collect f (xs.map g) = collect (fun x => f (g x)) xs
  | [] => rfl
  | x :: xs => by rw [List.map_cons, collect, collect, collect_map g xs]

theorem isOk_collect : ∀ {xs : List α}, (collect f xs).isOk ↔ ∀ x ∈ xs, (f x).isOk
  | [] => by simp [collect, Except.isOk, Except.toBool]
  | x :: xs => by
    have tail : (collect f xs).isOk ↔ ∀ x ∈ xs, (f x).isOk := isOk_collect
    rw [List.forall_mem_cons, ← tail]
    cases hx : f x with
    | error e => simp [collect, hx, Except.isOk, Except.toBool]
    | ok y => cases hxs : collect f xs <;> simp [collect, hx, hxs, Except.isOk, Except.toBool]

/-- By induction on the rearrangement: a step that succeeds, succeeds in another place. -/
theorem collect_perm {xs xs' : List α} (perm : xs.Perm xs') {ys : List β}
    (h : collect f xs = .ok ys) : ∃ ys', collect f xs' = .ok ys' ∧ ys.Perm ys' := by
  induction perm generalizing ys with
  | nil => exact ⟨ys, h, .refl ys⟩
  | cons x _ ih =>
    obtain ⟨y, rest, hx, hrest, rfl⟩ := collect_cons_eq_ok_iff.mp h
    obtain ⟨rest', hrest', perm⟩ := ih hrest
    exact ⟨y :: rest', collect_cons_eq_ok_iff.mpr ⟨y, rest', hx, hrest', rfl⟩, perm.cons y⟩
  | swap x z l =>
    obtain ⟨b, tail, hz, htail, rfl⟩ := collect_cons_eq_ok_iff.mp h
    obtain ⟨a, rest, hx, hrest, rfl⟩ := collect_cons_eq_ok_iff.mp htail
    have second := collect_cons_eq_ok_iff.mpr ⟨b, rest, hz, hrest, rfl⟩
    exact ⟨a :: b :: rest, collect_cons_eq_ok_iff.mpr ⟨a, _, hx, second, rfl⟩, .swap a b rest⟩
  | trans _ _ ih ih' =>
    obtain ⟨ys', h', perm⟩ := ih h
    obtain ⟨ys'', h'', perm'⟩ := ih' h'
    exact ⟨ys'', h'', perm.trans perm'⟩

end

/-! ## The two fingerprints -/

theorem Merkle.top_isSome : ∀ {level : List Label}, level ≠ [] → ∃ root, top level = some root
  | [], h => absurd rfl h
  | [a], _ => ⟨a, by rw [top]⟩
  | a :: b :: rest, _ => by
    rw [top]
    exact top_isSome (by simp [pairUp])
termination_by level => level.length
decreasing_by exact pairUp_length_lt a b rest

variable {es fs : List Entity}

theorem Entity.isOk_hash (e : Entity) : e.hash.isOk = e.bytes.isOk := by
  rw [Entity.hash]
  cases e.bytes <;> rfl

/-- A list without members has no leaves either, so it needs no case of its own. -/
theorem merkleRoot_eq_ok_iff {root : Label} :
    merkleRoot es = .ok root ↔
      ∃ leaves, collect (fun e => (e.sequence, ·) <$> e.hash) es = .ok leaves ∧
        Merkle.top ((leaves.mergeSort keyLE).map (·.2)) = some root := by
  unfold merkleRoot
  cases es with
  | nil => simp [collect, Merkle.top]
  | cons e es =>
    rw [if_neg (by simp)]
    cases collect (fun e => (e.sequence, ·) <$> e.hash) (e :: es) with
    | error e => simp
    | ok leaves =>
      simp only [Except.ok.injEq, exists_eq_left']
      cases Merkle.top ((leaves.mergeSort keyLE).map (·.2)) with
      | none => simp
      | some top => simp

theorem listHash_eq_ok_iff {digest : Bytes} :
    listHash es = .ok digest ↔
      ∃ keyed, collect (fun e => (e.sequence, ·) <$> e.bytes) es = .ok keyed ∧
        doubleDigest (Canonical.list (Canonical.list ([·])) ((keyed.mergeSort keyLE).map (·.2))) =
          digest := by
  unfold listHash
  cases collect (fun e => (e.sequence, ·) <$> e.bytes) es with
  | error e => simp
  | ok keyed => simp

theorem merkleRoot_perm (perm : es.Perm fs) {root : Label} (h : merkleRoot es = .ok root) :
    merkleRoot fs = .ok root := by
  obtain ⟨leaves, collected, top⟩ := merkleRoot_eq_ok_iff.mp h
  obtain ⟨leaves', collected', perm'⟩ := collect_perm perm collected
  rw [mergeSort_keyLE_perm perm'] at top
  exact merkleRoot_eq_ok_iff.mpr ⟨leaves', collected', top⟩

theorem listHash_perm (perm : es.Perm fs) {digest : Bytes} (h : listHash es = .ok digest) :
    listHash fs = .ok digest := by
  obtain ⟨keyed, collected, digested⟩ := listHash_eq_ok_iff.mp h
  obtain ⟨keyed', collected', perm'⟩ := collect_perm perm collected
  rw [mergeSort_keyLE_perm perm'] at digested
  exact listHash_eq_ok_iff.mpr ⟨keyed', collected', digested⟩

/-- Both succeed, and with one result, or both fail. -/
def SameOutcome {ε α : Type} (r r' : Except ε α) : Prop :=
  (∃ a, r = .ok a ∧ r' = .ok a) ∨ ∃ e e', r = .error e ∧ r' = .error e'

theorem SameOutcome.of_ok {ε α : Type} {r r' : Except ε α} (forth : ∀ a, r = .ok a → r' = .ok a)
    (back : ∀ a, r' = .ok a → r = .ok a) : SameOutcome r r' := by
  cases r with
  | ok a => exact .inl ⟨a, rfl, forth a rfl⟩
  | error e =>
    cases r' with
    | ok a => exact absurd (back a rfl) (by simp)
    | error e' => exact .inr ⟨e, e', rfl, rfl⟩

theorem isOk_iff_exists {ε α : Type} {r : Except ε α} : r.isOk ↔ ∃ a, r = .ok a := by
  cases r <;> simp [Except.isOk, Except.toBool]

theorem isOk_keyed {α : Type} {f : Entity → Except HashError α} :
    (collect (fun e => (e.sequence, ·) <$> f e) es).isOk ↔ ∀ e ∈ es, (f e).isOk := by
  rw [isOk_collect]
  refine forall_congr' fun e => imp_congr_right fun _ => ?_
  cases f e <;> exact Iff.rfl

theorem isOk_merkleRoot : (merkleRoot es).isOk ↔ es ≠ [] ∧ ∀ e ∈ es, e.bytes.isOk := by
  have hashed : (∀ e ∈ es, e.bytes.isOk) ↔
      ∃ leaves, collect (fun e => (e.sequence, ·) <$> e.hash) es = .ok leaves := by
    simp only [← Entity.isOk_hash, ← isOk_iff_exists, isOk_keyed]
  rw [isOk_iff_exists, hashed]
  simp only [merkleRoot_eq_ok_iff]
  constructor
  · rintro ⟨root, leaves, collected, top⟩
    refine ⟨?_, leaves, collected⟩
    rintro rfl
    cases collected
    simp [Merkle.top] at top
  · rintro ⟨nonempty, leaves, collected⟩
    obtain ⟨e, rest, rfl⟩ := List.exists_cons_of_ne_nil nonempty
    obtain ⟨leaf, others, -, -, rfl⟩ := collect_cons_eq_ok_iff.mp collected
    have level : ((leaf :: others).mergeSort keyLE).map (·.2) ≠ [] := by
      intro empty
      have lengths := congrArg List.length empty
      simp at lengths
    obtain ⟨root, top⟩ := Merkle.top_isSome level
    exact ⟨root, leaf :: others, collected, top⟩

theorem isOk_listHash : (listHash es).isOk ↔ ∀ e ∈ es, e.bytes.isOk := by
  rw [isOk_iff_exists, ← isOk_keyed, isOk_iff_exists]
  simp only [listHash_eq_ok_iff]
  constructor
  · rintro ⟨_, keyed, collected, -⟩
    exact ⟨keyed, collected⟩
  · rintro ⟨keyed, collected⟩
    exact ⟨_, keyed, collected, rfl⟩

/-- **Order is irrelevant.** However the members are arranged, and however they tie, the Merkle
root is the same, and so is the list hash. Whether there is one is a matter of the members too:
each of them must have bytes, and a root needs at least one. -/
theorem fingerprints_of_perm (perm : es.Perm fs) :
    SameOutcome (merkleRoot es) (merkleRoot fs) ∧ SameOutcome (listHash es) (listHash fs) ∧
      ((merkleRoot es).isOk ↔ es ≠ [] ∧ ∀ e ∈ es, e.bytes.isOk) ∧
      ((listHash es).isOk ↔ ∀ e ∈ es, e.bytes.isOk) := by
  refine ⟨.of_ok (fun _ => ?_) fun _ => ?_, .of_ok (fun _ => ?_) fun _ => ?_, isOk_merkleRoot,
    isOk_listHash⟩
  · exact merkleRoot_perm perm
  · exact merkleRoot_perm perm.symm
  · exact listHash_perm perm
  · exact listHash_perm perm.symm

/-- Members that tie and one that comes twice, from both ends; and a member without bytes, which
is reported from one end and hidden behind another failure from the other. -/
theorem fingerprints_of_reverse :
    let tied : List Entity := [⟨1, .ok [2]⟩, ⟨1, .ok [1]⟩, ⟨0, .ok [7]⟩, ⟨1, .ok [2]⟩]
    let failing : List Entity := [⟨1, .ok []⟩, ⟨1, .ok [1]⟩, ⟨0, .error (.encoding "full")⟩]
    tied.Perm tied.reverse ∧ failing.Perm failing.reverse ∧
      (∃ root, merkleRoot tied = .ok root ∧ merkleRoot tied.reverse = .ok root) ∧
      merkleRoot failing = .error .emptyBytes ∧
      merkleRoot failing.reverse = .error (.encoding "full") := by
  intro tied failing
  have perm : tied.Perm tied.reverse := (List.reverse_perm tied).symm
  obtain ⟨same, -, succeeds, -⟩ := fingerprints_of_perm perm
  refine ⟨perm, (List.reverse_perm failing).symm, ?_, rfl, rfl⟩
  rcases same with both | ⟨e, -, failed, -⟩
  · exact both
  · have bytes : ∀ e ∈ tied, e.bytes.isOk := by
      simp [tied, Entity.bytes, Except.isOk, Except.toBool]
    have ok := succeeds.mpr ⟨List.cons_ne_nil _ _, bytes⟩
    rw [failed] at ok
    cases ok

end ChainNode
