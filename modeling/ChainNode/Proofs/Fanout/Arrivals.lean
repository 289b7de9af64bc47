import Mathlib.Data.List.Basic
import ChainNode.Fanout

/-!
# The order in which calls arrive

Calls arrive by their latencies, and in the order of their issue where these are equal. There is one
such order only: calls that are sorted are told by those of each latency. So leaving out some of the
calls leaves the others in their order.

* `inOrder_arrivals`, `sameTime_arrivals`: sorted, and stable.
* `eq_of_sameTime`: no other order is.
* `filter_arrivals`: what is left out makes no difference.
-/
namespace ChainNode.Fanout

variable {γ : Type}

/-- In the order of their latencies. -/
abbrev InOrder (calls : List (Call γ)) : Prop := calls.Pairwise (·.latency ≤ ·.latency)

/-- The calls that take as long as `n`. -/
def sameTime (n : Nat) (calls : List (Call γ)) : List (Call γ) := calls.filter (·.latency = n)

theorem arrivals_perm (calls : List (Call γ)) : (arrivals calls).Perm calls :=
  List.mergeSort_perm _ _

theorem latency_trans (a b c : Call γ) (ab : decide (a.latency ≤ b.latency) = true)
    (bc : decide (b.latency ≤ c.latency) = true) : decide (a.latency ≤ c.latency) = true :=
  decide_eq_true (Nat.le_trans (of_decide_eq_true ab) (of_decide_eq_true bc))

theorem latency_total (a b : Call γ) :
    (decide (a.latency ≤ b.latency) || decide (b.latency ≤ a.latency)) = true := by
  simp only [Bool.or_eq_true, decide_eq_true_eq]
  exact Nat.le_total _ _

theorem inOrder_arrivals (calls : List (Call γ)) : InOrder (arrivals calls) :=
  (List.pairwise_mergeSort latency_trans latency_total calls).imp of_decide_eq_true

/-- Calls that take equally long stay in their order, since these alone are in order of arrival. -/
theorem sameTime_arrivals (n : Nat) (calls : List (Call γ)) :
    sameTime n (arrivals calls) = sameTime n calls := by
  have equal : (sameTime n calls).Pairwise fun a b => decide (a.latency ≤ b.latency) = true := by
    refine List.pairwise_of_forall_mem_list fun a ha b hb => decide_eq_true ?_
    have ha : a.latency = n := of_decide_eq_true (List.mem_filter.mp ha).2
    have hb : b.latency = n := of_decide_eq_true (List.mem_filter.mp hb).2
    omega
  have kept : (sameTime n calls).Sublist (arrivals calls) :=
    List.sublist_mergeSort latency_trans latency_total equal List.filter_sublist
  have among := kept.filter (·.latency = n)
  rw [sameTime, List.filter_filter] at among
  simp only [Bool.and_self] at among
  exact (among.eq_of_length ((arrivals_perm calls).filter _).length_eq.symm).symm

/-- Calls in order of arrival are told by those of each latency. -/
theorem eq_of_sameTime : ∀ {as bs : List (Call γ)}, InOrder as → InOrder bs →
    (∀ n, sameTime n as = sameTime n bs) → as = bs
  | [], bs, _, _, same => by
    cases bs with
    | nil => rfl
    | cons b bs =>
      have := same b.latency
      simp [sameTime] at this
  | a :: as, [], _, _, same => by
    have := same a.latency
    simp [sameTime] at this
  | a :: as, b :: bs, order, order', same => by
    obtain ⟨first, later⟩ := List.pairwise_cons.mp order
    obtain ⟨first', later'⟩ := List.pairwise_cons.mp order'
    -- each list has a call of the other's least latency
    have a_in : a ∈ sameTime a.latency (b :: bs) := by
      rw [← same]
      simp [sameTime]
    have b_in : b ∈ sameTime b.latency (a :: as) := by
      rw [same]
      simp [sameTime]
    have least : b.latency ≤ a.latency := by
      rcases List.mem_cons.mp (List.mem_filter.mp a_in).1 with rfl | behind
      · exact Nat.le_refl _
      · exact first' a behind
    have least' : a.latency ≤ b.latency := by
      rcases List.mem_cons.mp (List.mem_filter.mp b_in).1 with rfl | behind
      · exact Nat.le_refl _
      · exact first b behind
    have equal : b.latency = a.latency := Nat.le_antisymm least least'
    have heads := same a.latency
    rw [sameTime, sameTime, List.filter_cons_of_pos (by simp), List.filter_cons_of_pos
      (by simp [equal])] at heads
    obtain ⟨rfl, -⟩ := List.cons.inj heads
    refine congrArg _ (eq_of_sameTime later later' fun n => ?_)
    have rest := same n
    unfold sameTime at rest ⊢
    rw [List.filter_cons, List.filter_cons] at rest
    split at rest
    · exact (List.cons.inj rest).2
    · exact rest

/-- What is left out does not change the order of the others. -/
theorem filter_arrivals (p : Call γ → Bool) (calls : List (Call γ)) :
    (arrivals calls).filter p = arrivals (calls.filter p) := by
  refine eq_of_sameTime ((inOrder_arrivals calls).filter p) (inOrder_arrivals _) fun n => ?_
  rw [sameTime_arrivals]
  have whole := congrArg (List.filter p) (sameTime_arrivals n calls)
  unfold sameTime at whole ⊢
  rw [List.filter_comm, whole, List.filter_comm]

end ChainNode.Fanout
