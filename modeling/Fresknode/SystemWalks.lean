import Fresknode.Acyclic
import Fresknode.Runs
import Fresknode.SystemLifecycle

/-! The loops over the critical tasks always end: whatever nodes are subscribed, in the
list already or with a next of an earlier lifecycle, no cycle of next pointers ever forms,
in the list or elsewhere in the memory. -/
namespace Fresknode.SystemInit
open Chains Runs

variable {ν τ : Type} [Fintype ν] [DecidableEq ν]

inductive ListCall (ν : Type) where
  | subscribe (sub : ν)
  | terminate
  deriving DecidableEq, Repr

def listStep (thread : ν → τ) (s : Subscriptions ν) : ListCall ν → Option (Subscriptions ν)
  | .subscribe sub => vSystemCriticalTaskSubscribe s sub
  | .terminate => (vSystemTerminateCriticalTasks thread s).map Prod.fst

theorem subscribeEnds {s : Subscriptions ν} (h : Acyclic s.next) (sub : ν) :
    ∃ t, vSystemCriticalTaskSubscribe s sub = some t ∧ Acyclic t.next := by
  obtain ⟨base,next⟩ := s
  cases base with
  | none => exact ⟨⟨some sub,next⟩,rfl,h⟩
  | some base =>
    obtain ⟨l,chain⟩ := chainEnds h (some base)
    have bound := chainBounded chain
    cases last : l.getLast? with
    | none =>
      rw [List.getLast?_eq_none_iff] at last
      rw [last] at chain
      cases chainEmpty chain
    | some m =>
      have found : search next (Fintype.card ν) base = some m := by
        rw [searchChain chain (by omega),last]
      unfold vSystemCriticalTaskSubscribe
      simp only [found,Option.map_some]
      exact ⟨_,rfl,acyclicAppend h m sub⟩

theorem listStepEnds (thread : ν → τ) {s : Subscriptions ν} (h : Acyclic s.next) (c : ListCall ν) :
    ∃ t, listStep thread s c = some t ∧ Acyclic t.next := by
  cases c with
  | subscribe sub => exact subscribeEnds h sub
  | terminate =>
    obtain ⟨l,chain⟩ := chainEnds h s.baseSubscription
    have stopped := terminateChain thread chain
    unfold listStep
    simp only [stopped,Option.map_some]
    exact ⟨_,rfl,h⟩

theorem walksEnd (thread : ν → τ) {s : Subscriptions ν} (h : Acyclic s.next)
    (calls : List (ListCall ν)) : ∃ t, run (listStep thread) s calls = some t := by
  induction calls generalizing s with
  | nil => exact ⟨s,rfl⟩
  | cons c calls ih =>
    obtain ⟨t,taken,still⟩ := listStepEnds thread h c
    obtain ⟨u,done⟩ := ih still
    exact ⟨u,runCons.mpr ⟨t,taken,done⟩⟩

/-- From any memory of nodes without a cycle every call of every sequence returns, and
every state between two of them is without a cycle. -/
theorem walksAlwaysEnd (thread : ν → τ) {next : ν → Option ν} (h : Acyclic next)
    (calls : List (ListCall ν)) :
    (∃ t, run (listStep thread) ⟨none,next⟩ calls = some t) ∧
      Always (listStep thread) (fun s => Acyclic s.next) ⟨none,next⟩ calls := by
  have keeps : ∀ (s : Subscriptions ν) c u, Acyclic s.next → listStep thread s c = some u →
      Acyclic u.next := by
    intro s c u acyclic taken
    obtain ⟨v,same,still⟩ := listStepEnds thread acyclic c
    cases Option.some.inj (taken.symm.trans same)
    exact still
  exact ⟨walksEnd thread h calls,invariant keeps h calls⟩

theorem walksAlwaysEndStale :
    let next : Fin 3 → Option (Fin 3) := fun n => if n = 0 then some 1 else none
    let calls : List (ListCall (Fin 3)) :=
      [.subscribe 0,.subscribe 2,.subscribe 0,.terminate,.subscribe 2,.subscribe 1]
    ∃ t, run (listStep id) ⟨none,next⟩ calls = some t := by
  intro next calls
  have flat : Acyclic next := by decide
  exact (walksAlwaysEnd id flat calls).1

end Fresknode.SystemInit
