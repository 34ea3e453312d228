import Mathlib.Algebra.Order.Floor.Div
import Mathlib.Algebra.Order.Ring.Nat

/-! Running totals of upward-rounded quotients, against the quotient of the total. -/
namespace Fresknode.Rounding

def totals (acc : Nat) : List Nat → List Nat
  | [] => []
  | n::ns => (acc+n) :: totals (acc+n) ns

theorem totalsLength (acc : Nat) (ns : List Nat) : (totals acc ns).length = ns.length := by
  induction ns generalizing acc with
  | nil => rfl
  | cons n ns ih => simp [totals,ih]

theorem totalsAt {acc : Nat} {ns : List Nat} {i v : Nat} (found : (totals acc ns)[i]? = some v) :
    v = acc + (ns.take (i+1)).sum := by
  induction ns generalizing acc i with
  | nil => simp [totals] at found
  | cons n ns ih =>
    cases i with
    | zero =>
      cases Option.some.inj found
      simp
    | succ i =>
      have rest := ih found
      simp only [List.take_succ_cons,List.sum_cons] at rest ⊢
      omega

theorem totalsAbove (acc : Nat) (ns : List Nat) : ∀ v ∈ totals acc ns, acc ≤ v := by
  induction ns generalizing acc with
  | nil => simp [totals]
  | cons n ns ih =>
    intro v member
    rcases List.mem_cons.mp member with rfl | rest
    · exact Nat.le_add_right acc n
    · exact Nat.le_trans (Nat.le_add_right acc n) (ih (acc+n) v rest)

theorem totalsMonotone (acc : Nat) (ns : List Nat) : (totals acc ns).Pairwise (· ≤ ·) := by
  induction ns generalizing acc with
  | nil => exact List.Pairwise.nil
  | cons n ns ih => exact List.Pairwise.cons (totalsAbove (acc+n) ns) (ih (acc+n))

theorem totalsLast (acc : Nat) (ns : List Nat) :
    (acc :: totals acc ns).getLast (by simp) = acc + ns.sum := by
  induction ns generalizing acc with
  | nil => rfl
  | cons n ns ih =>
    have rest := ih (acc+n)
    simp only [totals,List.getLast_cons_cons,List.sum_cons] at rest ⊢
    omega

def ceilings (d : Nat) (ns : List Nat) : List Nat := ns.map (· ⌈/⌉ d)

theorem ceilingAbove {d : Nat} (positive : 0 < d) (n : Nat) : n ≤ d * (n ⌈/⌉ d) :=
  (ceilDiv_le_iff_le_mul positive).mp (Nat.le_refl _)

theorem ceilingBelow {d : Nat} (positive : 0 < d) (n : Nat) : d * (n ⌈/⌉ d) < n + d := by
  rw [Nat.ceilDiv_eq_add_pred_div]
  have := Nat.mul_div_le (n+d-1) d
  omega

theorem ceilingsAbove {d : Nat} (positive : 0 < d) (ns : List Nat) :
    ns.sum ≤ d * (ceilings d ns).sum := by
  induction ns with
  | nil => exact Nat.zero_le _
  | cons n ns ih =>
    have head := ceilingAbove positive n
    simp only [ceilings,List.map_cons,List.sum_cons,Nat.mul_add] at ih ⊢
    omega

theorem ceilingsBelow {d : Nat} (positive : 0 < d) {ns : List Nat} (nonempty : ns ≠ []) :
    d * (ceilings d ns).sum < ns.sum + d * ns.length := by
  induction ns with
  | nil => exact absurd rfl nonempty
  | cons n ns ih =>
    have head := ceilingBelow positive n
    simp only [ceilings,List.map_cons,List.sum_cons,List.length_cons,Nat.mul_add,Nat.mul_one] at ih ⊢
    by_cases last : ns = []
    · subst last
      simpa using head
    · have tail := ih last
      omega

/- Rounding the parts instead of the whole adds less than one unit a part, and loses
nothing. -/
theorem ceilingOfTotal {d : Nat} (positive : 0 < d) {ns : List Nat} (nonempty : ns ≠ []) :
    ns.sum ⌈/⌉ d ≤ (ceilings d ns).sum ∧ (ceilings d ns).sum < ns.sum ⌈/⌉ d + ns.length := by
  have above := ceilingsAbove positive ns
  refine ⟨(ceilDiv_le_iff_le_mul positive).mpr above,?_⟩
  have below := ceilingsBelow positive nonempty
  have whole := ceilingAbove positive ns.sum
  refine Nat.lt_of_mul_lt_mul_left (a := d) ?_
  rw [Nat.mul_add]
  omega

end Fresknode.Rounding
