import Fresknode.SystemRestart

/-! What the module does to the drivers and the critical tasks over a whole run of calls, in
any order that does not halt: whole lifecycles one after the other, the last one perhaps
not shut down yet. -/
namespace Fresknode.SystemInit
open Chains Runs

variable {ν τ : Type}

def broughtUp : List (Action τ) :=
  [.usbDisconnectBus,.chThdSleepMilliseconds 500,.usbStart,.usbConnectBus]

def lifecycle (thread : ν → τ) (l : List ν) : List (Action τ) :=
  broughtUp ++ stopAll thread l ++ vSystemDeinitList

def actions (answers : List (Answer τ)) : List (Action τ) := answers.flatMap Answer.actions

structure Lifecycles (thread : ν → τ) (s : State ν τ) (answers : List (Answer τ))
    (stopped : List (List ν)) : Prop where
  threads : s.thread = thread
  phase : s.systemState = .systemRunning ∨
    s.systemState = if stopped = [] then .systemUninitialized else .systemStopped
  once : ∀ l ∈ stopped, l.Nodup
  trace : actions answers = stopped.flatMap (lifecycle thread) ++
    if s.systemState = .systemRunning then broughtUp else []

theorem quietLifecycles {thread : ν → τ} {s t : State ν τ} {past : List (Answer τ)} {o : Answer τ}
    {stopped : List (List ν)} (h : Lifecycles thread s past stopped) (none : o.actions = [])
    (kept : t.systemState = s.systemState ∧ t.thread = s.thread) :
    Lifecycles thread t (past ++ [o]) stopped := by
  have same : actions (past ++ [o]) = actions past := by simp [actions,none]
  exact ⟨kept.2.trans h.threads,by rw [kept.1]; exact h.phase,h.once,by rw [same,kept.1]; exact h.trace⟩

variable [Fintype ν] [DecidableEq ν]

theorem initLifecycles {wakes : Bool → Bool} {thread : ν → τ} {s t : State ν τ}
    {past : List (Answer τ)} {o : Answer τ} {stopped : List (List ν)}
    (h : Lifecycles thread s past stopped) (taken : call wakes s .init = some (t,o)) :
    Lifecycles thread t (past ++ [o]) stopped := by
  obtain ⟨⟨u,began⟩,brought,same⟩ := Option.map_eq_some_iff.mp taken
  cases same
  unfold vSystemInit at brought
  split at brought <;> try contradiction
  rename_i accepted
  obtain ⟨_,listed,same⟩ := Option.map_eq_some_iff.mp brought
  cases same
  unfold vSystemInitList at listed
  split at listed <;> try contradiction
  cases Option.some.inj listed
  have trace := h.trace
  have idle : s.systemState ≠ .systemRunning := by
    rcases accepted with fresh | ended
    · rw [fresh]
      exact nofun
    · rw [ended]
      exact nofun
  rw [if_neg idle,List.append_nil] at trace
  refine ⟨h.threads,.inl rfl,h.once,?_⟩
  have more : actions (past ++ [⟨broughtUp,none⟩]) = actions past ++ broughtUp := by simp [actions]
  exact more.trans (by rw [trace]; rfl)

theorem deinitLifecycles {wakes : Bool → Bool} {thread : ν → τ} {s t : State ν τ}
    {past : List (Answer τ)} {o : Answer τ} {stopped : List (List ν)}
    (h : Lifecycles thread s past stopped) (taken : call wakes s .deinit = some (t,o)) :
    ∃ l, Lifecycles thread t (past ++ [o]) (stopped ++ [l]) := by
  have running : s.systemState = .systemRunning := by
    obtain ⟨_,began,_⟩ := Option.map_eq_some_iff.mp taken
    unfold vSystemDeinit at began
    split at began <;> try contradiction
    assumption
  obtain ⟨l,chain,rfl,rfl⟩ := deinitReturned taken
  have trace := h.trace
  rw [if_pos running] at trace
  refine ⟨l,h.threads,.inr (by simp),?_,?_⟩
  · intro k member
    rcases List.mem_append.mp member with earlier | last
    · exact h.once k earlier
    · cases List.mem_singleton.mp last
      exact chainNodup chain
  · simp only [actions,List.flatMap_append,List.flatMap_singleton] at trace ⊢
    rw [trace,h.threads]
    simp [lifecycle]

theorem callLifecycles {wakes : Bool → Bool} {thread : ν → τ} (s : State ν τ) (c : Call ν)
    (t : State ν τ) (o : Answer τ) (past : List (Answer τ))
    (h : ∃ stopped, Lifecycles thread s past stopped) (taken : call wakes s c = some (t,o)) :
    ∃ stopped, Lifecycles thread t (past ++ [o]) stopped := by
  obtain ⟨stopped,h⟩ := h
  cases c with
  | init => exact ⟨stopped,initLifecycles h taken⟩
  | deinit =>
    obtain ⟨l,longer⟩ := deinitLifecycles h taken
    exact ⟨stopped ++ [l],longer⟩
  | shutdownRequested =>
    cases Option.some.inj taken
    exact ⟨stopped,quietLifecycles h rfl ⟨rfl,rfl⟩⟩
  | requestShutdown key =>
    cases Option.some.inj taken
    refine ⟨stopped,quietLifecycles h rfl ?_⟩
    unfold vSystemRequestShutdown
    split <;> exact ⟨rfl,rfl⟩
  | subscribe sub =>
    obtain ⟨subs,_,same⟩ := Option.map_eq_some_iff.mp taken
    cases same
    exact ⟨stopped,quietLifecycles h rfl ⟨rfl,rfl⟩⟩

/-- Of every run of calls that return: each shutdown tells and awaits every node of its list
once, between a bring-up of the drivers and the tear-down of the same drivers. -/
theorem runsInLifecycles (wakes : Bool → Bool) (next : ν → Option ν) (thread : ν → τ)
    (calls : List (Call ν)) {s : State ν τ} {answers : List (Answer τ)}
    (done : exec (call wakes) (coldStart next thread) calls = some (s,answers)) :
    ∃ stopped, Lifecycles thread s answers stopped := by
  have begins : Lifecycles thread (coldStart next thread) [] [] := ⟨rfl,.inr rfl,nofun,rfl⟩
  exact execInvariant (P := fun s past => ∃ stopped, Lifecycles thread s past stopped)
    callLifecycles ⟨[],begins⟩ done

theorem runsInLifecyclesTwice :
    let calls : List (Call (Fin 2)) :=
      [.init,.subscribe 0,.deinit,.requestShutdown systemShutdownKey,.init,.subscribe 1]
    ∃ s answers, exec (call allWake) (coldStart (fun _ => none) id) calls = some (s,answers) ∧
      ∃ stopped, Lifecycles id s answers stopped := by
  intro calls
  exact ⟨_,_,rfl,runsInLifecycles allWake (fun _ => none) id calls rfl⟩

theorem requestAnswered (wakes : Bool → Bool) (next : ν → Option ν) (thread : ν → τ)
    (early late : List (Call ν)) {s : State ν τ} {answers : List (Answer τ)}
    (done : exec (call wakes) (coldStart next thread) (early ++ .shutdownRequested::late) =
      some (s,answers)) :
    answers[early.length]? = some ⟨[],some (early.any (· == .requestShutdown systemShutdownKey))⟩ := by
  obtain ⟨t,first,second,before,after,rfl⟩ := execAppend.mp done
  obtain ⟨u,o,rest,asked,_,rfl⟩ := execCons.mp after
  cases Option.some.inj asked
  have kept := requestsKept before
  have length : early.length = first.length := (execLength before).symm
  rw [length,List.getElem?_append_right (Nat.le_refl _),Nat.sub_self,List.getElem?_cons_zero,
    bSystemShutdownRequested,kept]
  rfl

theorem requestAnsweredOnce :
    let early : List (Call (Fin 1)) := [.requestShutdown 1,.init,.requestShutdown systemShutdownKey,.deinit]
    ∃ s answers, exec (call allWake) (coldStart (fun _ => none) id) (early ++ [.shutdownRequested]) =
      some (s,answers) ∧ answers[early.length]? = some ⟨[],some true⟩ :=
  ⟨_,_,rfl,requestAnswered allWake (fun _ => none) id
    [.requestShutdown 1,.init,.requestShutdown systemShutdownKey,.deinit] [] rfl⟩

end Fresknode.SystemInit
