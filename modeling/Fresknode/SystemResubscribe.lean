import Fresknode.SystemLifecycle

/-! vSystemCriticalTaskSubscribe of a node that may be in the list already. It always
makes its node the last one, and what came behind the node's old place is dropped. -/
namespace Fresknode.SystemInit
open Chains

variable {ν τ : Type} [Fintype ν] [DecidableEq ν]

theorem subscribeListed {s : Subscriptions ν} {front rest : List ν} {sub : ν}
    (h : Chain s.next s.baseSubscription (front ++ sub::rest)) :
    ∃ t, vSystemCriticalTaskSubscribe s sub = some t ∧
      Chain t.next t.baseSubscription (front ++ [sub]) := by
  obtain ⟨base,next⟩ := s
  cases base with
  | none => simpa using chainNull h
  | some base =>
    have bound := chainBounded h
    have nonempty : front ++ sub::rest ≠ [] := by simp
    have last := List.getLast?_eq_some_getLast nonempty
    have found : search next (Fintype.card ν) base = some ((front ++ sub::rest).getLast nonempty) := by
      rw [searchChain h (by omega),last]
    have cut := chainReappend h last
    unfold vSystemCriticalTaskSubscribe
    simp only [found,Option.map_some]
    exact ⟨_,rfl,cut⟩

structure Kept (thread : ν → τ) (l : List ν) (sub : ν) (t : Subscriptions ν) (later : List ν) :
    Prop where
  chain : Chain t.next t.baseSubscription later
  once : later.Nodup
  still : ∀ n ∈ l, n ∈ later
  added : sub ∈ later
  waited : ∃ u actions, vSystemTerminateCriticalTasks thread t = some (u,actions) ∧
    ∀ n ∈ l, .chThdWait (thread n) ∈ actions

omit [DecidableEq ν] in
theorem keptOfChain {thread : ν → τ} {l later : List ν} {sub : ν} {t : Subscriptions ν}
    (chain : Chain t.next t.baseSubscription later) (still : ∀ n ∈ l, n ∈ later)
    (added : sub ∈ later) : Kept thread l sub t later := by
  refine ⟨chain,chainNodup chain,still,added,_,_,terminateChain thread chain,?_⟩
  intro n member
  exact List.mem_append_right _ (List.mem_map.mpr ⟨n,still n member,rfl⟩)

/-- Whatever the list and the node, no task is lost exactly when the node is not in the
list before, or is its last. -/
theorem subscribeKeepsExact (thread : ν → τ) {s : Subscriptions ν} {l : List ν} {sub : ν}
    (listed : Chain s.next s.baseSubscription l) (ends : sub ∉ l → s.next sub = none) :
    (∃ t later, vSystemCriticalTaskSubscribe s sub = some t ∧ Kept thread l sub t later) ↔
      (sub ∈ l → l.getLast? = some sub) := by
  by_cases member : sub ∈ l
  · obtain ⟨front,rest,rfl⟩ := List.append_of_mem member
    obtain ⟨t,taken,chain⟩ := subscribeListed listed
    have once := chainNodup listed
    rw [lastOnly once,imp_iff_right member]
    constructor
    · rintro ⟨u,later,same,kept⟩
      cases Option.some.inj (taken.symm.trans same)
      cases chainUnique chain kept.chain
      refine List.eq_nil_iff_forall_not_mem.mpr fun m behind => ?_
      -- a node behind would have to be in front of the subscribed one too
      have lost := kept.still m (by simp [behind])
      rw [← List.singleton_append,← List.append_assoc] at once
      exact (List.nodup_append.mp once).2.2 m lost m behind rfl
    · intro empty
      rw [empty]
      exact ⟨t,_,taken,keptOfChain chain (fun _ inside => inside) (by simp)⟩
  · constructor
    · exact fun _ inside => absurd inside member
    · intro _
      obtain ⟨t,taken,chain,_⟩ := subscribeChain listed member fun _ => ends member
      exact ⟨t,_,taken,keptOfChain chain (fun _ inside => List.mem_append_left _ inside) (by simp)⟩

theorem subscribeKeepsTwice :
    let s : Subscriptions (Fin 3) := ⟨some 0,fun n => if n = 0 then some 1 else none⟩
    ∃ t later, vSystemCriticalTaskSubscribe s 1 = some t ∧ Kept id [0,1] 1 t later := by
  intro s
  have listed : Chain s.next s.baseSubscription [0,1] := .node (.node .null)
  have last : [0,1].getLast? = some (1 : Fin 3) := by decide
  exact (subscribeKeepsExact id listed fun absent => absurd (by simp) absent).mpr fun _ => last

theorem firstTaskCutsList :
    let s : Subscriptions (Fin 2) := ⟨some 0,fun n => if n = 0 then some 1 else none⟩
    Chain s.next s.baseSubscription [0,1] ∧
      ¬∃ t later, vSystemCriticalTaskSubscribe s 0 = some t ∧ Kept id [0,1] 0 t later := by
  intro s
  have listed : Chain s.next s.baseSubscription [0,1] := .node (.node .null)
  have cut : (vSystemCriticalTaskSubscribe s 0).bind (fun t => walk t.next 2 t.baseSubscription) =
      some [0] := by decide
  refine ⟨listed,?_⟩
  rintro ⟨t,later,taken,kept⟩
  rw [taken] at cut
  cases chainUnique (chainOfWalk cut) kept.chain
  exact absurd (kept.still 1 (by simp)) (by decide)

end Fresknode.SystemInit
