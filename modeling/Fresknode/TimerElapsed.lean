import Mathlib.Algebra.Order.BigOperators.Group.List
import Fresknode.Rounding
import Fresknode.TimerIdle

/-! The reported time of a measurement against the ticks it measured: samples after
a start_timer, the last of them possibly the stop. -/
namespace Fresknode.Timer
open Rounding

inductive Samples : List Op → List UInt32 → Prop where
  | none : Samples [] []
  | getUs (ticks now : UInt32) {ops ns} (later : Samples ops ns) :
      Samples (.getUs ticks now::ops) (ticks::ns)
  | stop (ticks : UInt32) : Samples [.stop ticks] [ticks]

def tickCounts (ns : List UInt32) : List Nat := ns.map UInt32.toNat

theorem usCeiling {ticks : UInt32} (measured : 1 ≤ ticks.toNat) :
    (us ticks).toNat = ticks.toNat ⌈/⌉ 144 := by
  have pred : (ticks - 1).toNat = ticks.toNat - 1 := by
    rw [UInt32.toNat_sub_of_le]
    · rfl
    · exact UInt32.le_iff_toNat_le.mpr measured
  rw [usNat,pred,Nat.ceilDiv_eq_add_pred_div]
  omega

theorem sampleInRange {time ticks : UInt32} (measured : 1 ≤ ticks.toNat)
    (fits : time.toNat + ticks.toNat ⌈/⌉ 144 < 2 ^ 32) :
    (time + us ticks).toNat = time.toNat + ticks.toNat ⌈/⌉ 144 := by
  rw [UInt32.toNat_add,usCeiling measured]
  exact Nat.mod_eq_of_lt fits

theorem valuesTotals {ops ns} (samples : Samples ops ns) {t : MyTimer} (on : t.running = true)
    (inside : t.counter.toNat < 128) (measured : ∀ n ∈ ns, 1 ≤ n.toNat)
    (fits : t.accumulatedTime.toNat + (ceilings 144 (tickCounts ns)).sum < 2 ^ 32) :
    (values t ops).map UInt32.toNat =
      totals t.accumulatedTime.toNat (ceilings 144 (tickCounts ns)) := by
  induction samples generalizing t with
  | none => rfl
  | @getUs ticks now ops ns later ih =>
    simp only [tickCounts,ceilings,List.map_cons,List.sum_cons] at fits
    have here := sampleInRange (measured ticks List.mem_cons_self)
      (show t.accumulatedTime.toNat + _ < _ by omega)
    simp only [values,apply,getRunning on inside,List.map_cons,tickCounts,ceilings,totals]
    rw [here,← here]
    -- the index wraps inside the log, so the rest of the samples start from a sound timer
    refine congrArg _ (ih rfl ?_ ?_ ?_)
    · rw [nextIndexNat t.counter inside]
      exact Nat.mod_lt _ (by decide)
    · exact fun n member => measured n (List.mem_cons_of_mem _ member)
    · simp only [tickCounts,ceilings] at here ⊢
      omega
  | stop ticks =>
    simp only [tickCounts,ceilings,List.map_cons,List.map_nil,List.sum_cons,List.sum_nil] at fits
    have here := sampleInRange (measured ticks List.mem_cons_self)
      (show t.accumulatedTime.toNat + _ < _ by omega)
    simp only [values,apply,stopInside inside,List.map_cons,List.map_nil,tickCounts,ceilings,totals]
    rw [here]

theorem startedTotals (now : UInt32) (t : MyTimer) {ops ns} (samples : Samples ops ns)
    (measured : ∀ n ∈ ns, 1 ≤ n.toNat) (fits : (ceilings 144 (tickCounts ns)).sum < 2 ^ 32) :
    (values (startTimer now t).timer ops).map UInt32.toNat =
      totals 0 (ceilings 144 (tickCounts ns)) := by
  have zero : (startTimer now t).timer.accumulatedTime.toNat = 0 := by simp [startTimer]
  have run := valuesTotals samples (t := (startTimer now t).timer) rfl (by simp [startTimer])
    measured (by omega)
  rwa [zero] at run

structure Accurate (ns reported : List UInt32) : Prop where
  everySample : reported.length = ns.length
  bounds : ∀ i a, reported[i]? = some a →
    ((tickCounts ns).take (i+1)).sum ≤ 144 * a.toNat ∧
      144 * a.toNat < ((tickCounts ns).take (i+1)).sum + 144 * (i+1)
  neverDecrease : reported.Pairwise fun a b => a.toNat ≤ b.toNat

theorem accurateOfTotals {ns reported : List UInt32}
    (same : reported.map UInt32.toNat = totals 0 (ceilings 144 (tickCounts ns))) :
    Accurate ns reported := by
  have lengths := congrArg List.length same
  rw [List.length_map,totalsLength] at lengths
  refine ⟨by simpa [ceilings,tickCounts] using lengths,?_,?_⟩
  · intro i a found
    have at_ : (totals 0 (ceilings 144 (tickCounts ns)))[i]? = some a.toNat := by
      rw [← same,List.getElem?_map,found]
      rfl
    have value := totalsAt at_
    have parts : (ceilings 144 (tickCounts ns)).take (i+1) =
        ceilings 144 ((tickCounts ns).take (i+1)) := List.map_take.symm
    have enough : i < (tickCounts ns).length := by
      have inside := (List.getElem?_eq_some_iff.mp found).1
      simp only [ceilings,List.length_map] at lengths
      omega
    have count : ((tickCounts ns).take (i+1)).length = i+1 := by
      rw [List.length_take]
      omega
    have nonempty : (tickCounts ns).take (i+1) ≠ [] := by
      intro empty
      simp [empty] at count
    have above := ceilingsAbove (d := 144) (by decide) ((tickCounts ns).take (i+1))
    have below := ceilingsBelow (d := 144) (by decide) nonempty
    rw [count] at below
    rw [parts,Nat.zero_add] at value
    rw [value]
    exact ⟨above,below⟩
  · have ordered := totalsMonotone 0 (ceilings 144 (tickCounts ns))
    rw [← same] at ordered
    exact List.pairwise_map.mp ordered

theorem lastTotal {ns reported : List UInt32} {last : UInt32}
    (same : reported.map UInt32.toNat = totals 0 (ceilings 144 (tickCounts ns)))
    (final : reported.getLast? = some last) :
    last.toNat = (ceilings 144 (tickCounts ns)).sum := by
  have sum := totalsLast 0 (ceilings 144 (tickCounts ns))
  obtain ⟨front,rfl⟩ := List.getLast?_eq_some_iff.mp final
  rw [List.map_append] at same
  simp only [← same,List.map_cons,List.map_nil] at sum
  simpa using sum

/-- Each reported time is the ticks so far in microseconds, less than one too many for
every sample; against one sample of the same ticks it is not lower and less than k more. -/
theorem elapsedAccurate (t : MyTimer) (now : UInt32) {ops ns} (samples : Samples ops ns)
    (measured : ∀ n ∈ ns, 1 ≤ n.toNat) (fits : (ceilings 144 (tickCounts ns)).sum < 2 ^ 32) :
    Accurate ns (values (startTimer now t).timer ops) ∧
      ∀ last, (values (startTimer now t).timer ops).getLast? = some last →
        ∀ op total once, Samples [op] [total] → total.toNat = (tickCounts ns).sum →
          values (startTimer now t).timer [op] = [once] →
            once.toNat ≤ last.toNat ∧ last.toNat < once.toNat + ns.length := by
  have same := startedTotals now t samples measured fits
  refine ⟨accurateOfTotals same,?_⟩
  intro last final op total once one whole single
  have nonempty : tickCounts ns ≠ [] := by
    intro empty
    rw [empty] at same
    simp [List.map_eq_nil_iff.mp same] at final
  have parts := ceilingOfTotal (d := 144) (by decide) nonempty
  have positive : 1 ≤ total.toNat := by
    obtain ⟨n,member⟩ := List.exists_mem_of_ne_nil _ nonempty
    obtain ⟨ticks,inside,rfl⟩ := List.mem_map.mp member
    have counted := measured ticks inside
    have below := List.le_sum_of_mem member
    omega
  have alone := startedTotals now t one
    (fun n member => by cases List.mem_singleton.mp member; exact positive)
    (by simp only [tickCounts,ceilings,List.map_cons,List.map_nil,List.sum_cons,List.sum_nil]
        rw [whole]
        omega)
  rw [single] at alone
  have value : once.toNat = (tickCounts ns).sum ⌈/⌉ 144 := by
    simpa [tickCounts,ceilings,totals,whole] using alone
  rw [lastTotal same final,value]
  have count : (tickCounts ns).length = ns.length := List.length_map _
  omega

theorem elapsedAccurateThrice :
    let run := values (startTimer 0 ⟨⟨0⟩,0,Vector.replicate 128 0,0,false⟩).timer
      [.getUs 100 0,.getUs 144 0,.stop 300]
    run = [1,2,5] ∧ Accurate [100,144,300] run := by
  refine ⟨by decide,(elapsedAccurate _ 0 ?_ ?_ ?_).1⟩
  · exact .getUs 100 0 (.getUs 144 0 (.stop 300))
  · intro n member
    simp only [List.mem_cons,List.not_mem_nil,or_false] at member
    rcases member with rfl | rfl | rfl <;> decide
  · decide

end Fresknode.Timer
