import Fresknode.SystemInit

/-! What a shutdown should do, and when the intrusive list does it. The intended
machine keeps the subscribed nodes as a list; the module keeps them in the callers'
next fields, which survive a shutdown: the first subscription of a lifecycle takes its
node's next as it is. -/
namespace Fresknode.SystemInit
open Chains Runs

variable {ν τ : Type}

structure Book (ν : Type) where
  phase : SystemState
  subscribed : List ν
  requested : Bool

def coldBook : Book ν := ⟨.systemUninitialized,[],false⟩

def stopAll (thread : ν → τ) (nodes : List ν) : List (Action τ) :=
  nodes.map (fun n => .chThdTerminate (thread n)) ++ nodes.map (fun n => .chThdWait (thread n))

def intended [DecidableEq ν] (thread : ν → τ) (b : Book ν) : Call ν → Option (Book ν × Answer τ)
  | .init =>
    if b.phase = .systemUninitialized ∨ b.phase = .systemStopped then
      some ({b with phase := .systemRunning},
        ⟨[.usbDisconnectBus,.chThdSleepMilliseconds 500,.usbStart,.usbConnectBus],none⟩)
    else none
  | .deinit =>
    if b.phase = .systemRunning then
      some ({b with phase := .systemStopped, subscribed := []},
        ⟨stopAll thread b.subscribed ++ vSystemDeinitList,none⟩)
    else none
  | .shutdownRequested => some (b,⟨[],some b.requested⟩)
  | .requestShutdown key =>
    some ({b with requested := b.requested || key == systemShutdownKey},⟨[],none⟩)
  | .subscribe sub =>
    if sub ∈ b.subscribed then none
    else some ({b with subscribed := b.subscribed ++ [sub]},⟨[],none⟩)

theorem terminateChain [Fintype ν] {s : Subscriptions ν} {l : List ν} (thread : ν → τ)
    (h : Chain s.next s.baseSubscription l) :
    vSystemTerminateCriticalTasks thread s =
      some ({s with baseSubscription := none},stopAll thread l) := by
  obtain ⟨base,next⟩ := s
  cases base with
  | none =>
    rw [chainNull h]
    rfl
  | some base =>
    have visited := walkExact.mpr h
    simp only [vSystemTerminateCriticalTasks,visited,bind,Option.bind,stopAll]

theorem terminateReturned [Fintype ν] {thread : ν → τ} {s t : Subscriptions ν} {actions : List (Action τ)}
    (h : vSystemTerminateCriticalTasks thread s = some (t,actions)) :
    ∃ l, Chain s.next s.baseSubscription l ∧ t = ⟨none,s.next⟩ ∧ actions = stopAll thread l := by
  obtain ⟨base,next⟩ := s
  cases base with
  | none =>
    cases Option.some.inj h
    exact ⟨[],.null,rfl,rfl⟩
  | some base =>
    simp only [vSystemTerminateCriticalTasks,bind,Option.bind_eq_some_iff] at h
    obtain ⟨l,first,m,second,last⟩ := h
    cases Option.some.inj (first.symm.trans second)
    cases Option.some.inj last
    exact ⟨l,walkExact.mp first,rfl,rfl⟩

variable [Fintype ν] [DecidableEq ν]

theorem subscribeChain {s : Subscriptions ν} {l : List ν} {sub : ν}
    (h : Chain s.next s.baseSubscription l) (fresh : sub ∉ l)
    (clean : s.baseSubscription = none → s.next sub = none) :
    ∃ t, vSystemCriticalTaskSubscribe s sub = some t ∧
      Chain t.next t.baseSubscription (l ++ [sub]) ∧
      ∀ n, n ∉ l → n ≠ sub → t.next n = s.next n := by
  obtain ⟨base,next⟩ := s
  cases base with
  | none =>
    have ends : next sub = none := clean rfl
    have alone : Chain next (some sub) [sub] := .node (by rw [ends]; exact .null)
    rw [chainNull h]
    exact ⟨⟨some sub,next⟩,rfl,alone,fun _ _ _ => rfl⟩
  | some base =>
    have bound := chainBounded h
    obtain ⟨front,m,rfl⟩ : ∃ front m, l = front ++ [m] := by
      rcases List.eq_nil_or_concat l with rfl | ⟨front,m,same⟩
      · cases h
      · exact ⟨front,m,by simpa using same⟩
    have last : search next (Fintype.card ν) base = some m := by
      rw [searchChain h (by omega),List.getLast?_concat]
    have linked := chainAppend h fresh
    refine ⟨⟨some base,Function.update (Function.update next m (some sub)) sub none⟩,?_,?_,?_⟩
    · simp only [vSystemCriticalTaskSubscribe,last,Option.map_some]
    · rw [List.append_assoc]
      exact linked
    · intro n outside other
      have apart : n ≠ m := by
        rintro rfl
        simp at outside
      simp only [Function.update_of_ne other,Function.update_of_ne apart]

def FirstClean (s : State ν τ) : Call ν → Prop
  | .subscribe sub => s.subs.baseSubscription = none → s.subs.next sub = none
  | _ => True

structure Represents (thread : ν → τ) (b : Book ν) (s : State ν τ) : Prop where
  chain : Chain s.subs.next s.subs.baseSubscription b.subscribed
  phase : s.systemState = b.phase
  requested : s.shutdownRequested = b.requested
  threads : s.thread = thread

def allWake (_ : Bool) : Bool := true

theorem initAsIntended {thread : ν → τ} {b d : Book ν} {s : State ν τ} {o : Answer τ}
    (h : Represents thread b s) (meant : intended thread b .init = some (d,o)) :
    ∃ t, call allWake s .init = some (t,o) ∧ Represents thread d t := by
  simp only [intended] at meant
  split at meant <;> try contradiction
  rename_i accepted
  cases Option.some.inj meant
  rw [← h.phase] at accepted
  refine ⟨{s with systemState := .systemRunning},?_,⟨h.chain,rfl,h.requested,h.threads⟩⟩
  simp [call,vSystemInit,accepted,vSystemInitList,allWake]

theorem deinitAsIntended {thread : ν → τ} {b d : Book ν} {s : State ν τ} {o : Answer τ}
    (h : Represents thread b s) (meant : intended thread b .deinit = some (d,o)) :
    ∃ t, call allWake s .deinit = some (t,o) ∧ Represents thread d t := by
  simp only [intended] at meant
  split at meant <;> try contradiction
  rename_i accepted
  cases Option.some.inj meant
  rw [← h.phase] at accepted
  have stopped := terminateChain s.thread h.chain
  refine ⟨⟨.systemStopped,s.shutdownRequested,{s.subs with baseSubscription := none},s.thread,false⟩,
    ?_,⟨.null,rfl,h.requested,h.threads⟩⟩
  simp only [call,vSystemDeinit,accepted,if_true,stopped,bind,Option.bind,Option.map_some]
  rw [h.threads]
  rfl

theorem subscribeAsIntended {thread : ν → τ} {b d : Book ν} {s : State ν τ} {o : Answer τ} {sub : ν}
    (h : Represents thread b s) (clean : s.subs.baseSubscription = none → s.subs.next sub = none)
    (meant : intended thread b (.subscribe sub) = some (d,o)) :
    ∃ t, call allWake s (.subscribe sub) = some (t,o) ∧ Represents thread d t := by
  simp only [intended] at meant
  split at meant <;> try contradiction
  rename_i fresh
  cases Option.some.inj meant
  obtain ⟨subs,taken,chain,_⟩ := subscribeChain h.chain fresh clean
  refine ⟨{s with subs := subs},?_,⟨chain,h.phase,h.requested,h.threads⟩⟩
  simp only [call,taken,Option.map_some]

theorem requestAsIntended {thread : ν → τ} {b d : Book ν} {s : State ν τ} {o : Answer τ}
    {key : UInt32} (h : Represents thread b s)
    (meant : intended thread b (.requestShutdown key) = some (d,o)) :
    ∃ t, call allWake s (.requestShutdown key) = some (t,o) ∧ Represents thread d t := by
  cases Option.some.inj meant
  refine ⟨_,rfl,?_⟩
  unfold vSystemRequestShutdown
  split
  · next same => exact ⟨h.chain,h.phase,by simp [same],h.threads⟩
  · next other => exact ⟨h.chain,h.phase,by simp [other,h.requested],h.threads⟩

theorem callAsIntended (thread : ν → τ) (b : Book ν) (s : State ν τ) (c : Call ν) (d : Book ν)
    (o : Answer τ) (h : Represents thread b s)
    (clean : ∀ t, silent (call allWake) s c = some t → FirstClean s c)
    (meant : intended thread b c = some (d,o)) :
    ∃ t, call allWake s c = some (t,o) ∧ Represents thread d t := by
  cases c with
  | init => exact initAsIntended h meant
  | deinit => exact deinitAsIntended h meant
  | shutdownRequested =>
    cases Option.some.inj meant
    exact ⟨s,by rw [← h.requested]; rfl,h⟩
  | requestShutdown key => exact requestAsIntended h meant
  | subscribe sub =>
    refine subscribeAsIntended h (fun empty => ?_) meant
    -- the first-subscription branch always returns, so the condition on it applies
    have taken : silent (call allWake) s (.subscribe sub) =
        some {s with subs := {s.subs with baseSubscription := some sub}} := by
      simp [silent,call,vSystemCriticalTaskSubscribe,empty]
    exact clean _ taken empty

theorem deinitReturned {wakes} {s t : State ν τ} {o : Answer τ}
    (h : call wakes s .deinit = some (t,o)) :
    ∃ l, Chain s.subs.next s.subs.baseSubscription l ∧
      t = ⟨.systemStopped,s.shutdownRequested,⟨none,s.subs.next⟩,s.thread,false⟩ ∧
      o = ⟨stopAll s.thread l ++ vSystemDeinitList,none⟩ := by
  obtain ⟨⟨u,actions⟩,taken,same⟩ := Option.map_eq_some_iff.mp h
  cases same
  unfold vSystemDeinit at taken
  split at taken <;> try contradiction
  simp only [bind,Option.bind_eq_some_iff] at taken
  obtain ⟨⟨subs,first⟩,stopped,last⟩ := taken
  obtain ⟨l,chain,rfl,rfl⟩ := terminateReturned stopped
  cases Option.some.inj last
  exact ⟨l,chain,rfl,rfl⟩

/-- Over any memory of nodes and any run of calls the guards accept, every shutdown
stops exactly the tasks subscribed since the one before, whenever each subscription
that finds the list empty is of a node whose next is NULL. -/
theorem shutdownStopsSubscribed (next : ν → Option ν) (thread : ν → τ) (calls : List (Call ν))
    (clean : Along (silent (call allWake)) FirstClean (coldStart next thread) calls)
    {b : Book ν} {answers : List (Answer τ)}
    (accepted : exec (intended thread) coldBook calls = some (b,answers)) :
    ∃ s, exec (call allWake) (coldStart next thread) calls = some (s,answers) ∧
      (calls.getLast? = some .deinit → s.subs.baseSubscription = none) := by
  have begins : Represents thread coldBook (coldStart next thread) := ⟨.null,rfl,rfl,rfl⟩
  obtain ⟨s,done,_⟩ := simulation (callAsIntended thread) begins clean accepted
  refine ⟨s,done,fun final => ?_⟩
  obtain ⟨early,rfl⟩ := List.getLast?_eq_some_iff.mp final
  obtain ⟨t,first,second,_,last,_⟩ := execAppend.mp done
  obtain ⟨u,o,rest,taken,ends,_⟩ := execCons.mp last
  cases Option.some.inj ends
  obtain ⟨_,_,rfl,_⟩ := deinitReturned taken
  rfl

theorem shutdownStopsSubscribedTwice :
    let calls : List (Call (Fin 2)) :=
      [.init,.subscribe 0,.subscribe 1,.deinit,.init,.subscribe 1,.subscribe 0,.deinit]
    ∃ s answers, exec (call allWake) (coldStart (fun _ => none) id) calls = some (s,answers) ∧
      answers.getLast? = some ⟨stopAll id [1,0] ++ vSystemDeinitList,none⟩ := by
  intro calls
  have clean : Along (silent (call allWake)) FirstClean (coldStart (fun _ => none) id) calls := by
    refine (alongCons rfl).mpr ⟨trivial,(alongCons rfl).mpr ⟨fun _ => rfl,?_⟩⟩
    refine (alongCons rfl).mpr ⟨fun empty => absurd empty (by decide),(alongCons rfl).mpr ⟨trivial,?_⟩⟩
    refine (alongCons rfl).mpr ⟨trivial,(alongCons rfl).mpr ⟨fun _ => by decide,?_⟩⟩
    refine (alongCons rfl).mpr ⟨fun empty => absurd empty (by decide),?_⟩
    exact (alongCons rfl).mpr ⟨trivial,trivial⟩
  obtain ⟨s,done,_⟩ := shutdownStopsSubscribed (fun _ => none) id calls clean rfl
  exact ⟨s,_,done,rfl⟩

theorem staleFirstStopped {s t u : State ν τ} {sub other : ν} {o p : Answer τ}
    (empty : s.subs.baseSubscription = none) (stale : s.subs.next sub = some other)
    (taken : call allWake s (.subscribe sub) = some (t,o))
    (stopped : call allWake t .deinit = some (u,p)) :
    p.actions ≠ stopAll s.thread [sub] ++ vSystemDeinitList := by
  simp only [call,vSystemCriticalTaskSubscribe,empty,Option.map_some] at taken
  cases Option.some.inj taken
  obtain ⟨l,chain,_,rfl⟩ := deinitReturned stopped
  cases chain with
  | @node n l rest =>
    have more := chainHead rest
    rw [show s.subs.next sub = some other from stale] at more
    intro same
    have lengths := congrArg List.length (List.append_cancel_right same)
    cases l with
    | nil => cases more
    | cons m l => simp [stopAll] at lengths

theorem staleTaskStopped :
    let given := fun (next : Fin 2 → Option (Fin 2)) calls =>
      (exec (call allWake) (coldStart next id) calls).map Prod.snd
    let meant := fun (calls : List (Call (Fin 2))) =>
      (exec (intended id) coldBook calls).map Prod.snd
    let restart : List (Call (Fin 2)) :=
      [.init,.subscribe 0,.subscribe 1,.deinit,.init,.subscribe 0,.deinit]
    let once : List (Call (Fin 2)) := [.init,.subscribe 0,.deinit]
    (meant restart).isSome ∧ given (fun _ => none) restart ≠ meant restart ∧
      (meant once).isSome ∧ given (fun n => if n = 0 then some 1 else none) once ≠ meant once := by
  decide

end Fresknode.SystemInit
