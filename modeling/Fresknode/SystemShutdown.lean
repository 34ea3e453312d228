import Fresknode.SystemLifecycle

/-! vSystemTerminateCriticalTasks in small steps, with subscriptions by other threads
between any two of them, of fresh nodes only: not listed yet, and with next NULL.
`subscribed` and `log` only remember: the nodes in order of subscription, and the kernel
calls that have returned. A node is served if it comes while the first loop still runs; one
that comes later is waited for untold, or dropped with the list. -/
namespace Fresknode.SystemShutdown
open SystemInit Chains Runs

inductive Position (ν : Type) where
  | entry
  | start
  | signalling (tmpSub : Option ν)
  | signalled (tmpSub : ν)
  | again
  | waiting (tmpSub : Option ν)
  | waited (tmpSub : ν)
  | clearing
  | returned
  deriving DecidableEq, Repr

structure State (ν τ : Type) where
  subs : Subscriptions ν
  position : Position ν
  exited : List τ
  subscribed : List ν
  log : List (Action τ)

def atEntry {ν τ : Type} (subs : Subscriptions ν) (subscribed : List ν) : State ν τ :=
  ⟨subs,.entry,[],subscribed,[]⟩

inductive Event (ν τ : Type) where
  | shutdown
  | subscribe (sub : ν)
  | exits (thread : τ)
  deriving DecidableEq, Repr

section Step
variable {ν τ : Type} [DecidableEq τ]

def vSystemTerminateCriticalTasksStep (thread : ν → τ) (s : State ν τ) : Option (State ν τ) :=
  match s.position with
  | .entry =>
    match s.subs.baseSubscription with
    | none => some {s with position := .returned}
    | some _ => some {s with position := .start}
  | .start => some {s with position := .signalling s.subs.baseSubscription}
  | .signalling (some n) =>
    some {s with position := .signalled n, log := s.log ++ [.chThdTerminate (thread n)]}
  | .signalled n => some {s with position := .signalling (s.subs.next n)}
  | .signalling none => some {s with position := .again}
  | .again => some {s with position := .waiting s.subs.baseSubscription}
  | .waiting (some n) =>
    if thread n ∈ s.exited then
      some {s with position := .waited n, log := s.log ++ [.chThdWait (thread n)]}
    else none
  | .waited n => some {s with position := .waiting (s.subs.next n)}
  | .waiting none => some {s with position := .clearing}
  | .clearing =>
    some {s with subs := {s.subs with baseSubscription := none}, position := .returned}
  | .returned => none

variable [Fintype ν] [DecidableEq ν]

def step (thread : ν → τ) (s : State ν τ) : Event ν τ → Option (State ν τ)
  | .shutdown => vSystemTerminateCriticalTasksStep thread s
  | .subscribe sub =>
    -- another thread's whole call
    if s.position ≠ .returned ∧ sub ∉ s.subscribed ∧ s.subs.next sub = none then
      (vSystemCriticalTaskSubscribe s.subs sub).map fun subs =>
        {s with subs := subs, subscribed := s.subscribed ++ [sub]}
    else none
  | .exits t =>
    -- a thread exits only once told to
    if .chThdTerminate t ∈ s.log then some {s with exited := t::s.exited} else none

end Step

variable {ν τ : Type}

structure Served (thread : ν → τ) (s : State ν τ) : Prop where
  told : ∀ n, s.position = .waiting (some n) → .chThdTerminate (thread n) ∈ s.log
  all : s.position = .returned → ∀ n ∈ s.subscribed,
    .chThdTerminate (thread n) ∈ s.log ∧ .chThdWait (thread n) ∈ s.log

def stillSignalling : Position ν → Bool
  | .entry | .start | .signalling (some _) | .signalled _ => true
  | _ => false

def InTime (s : State ν τ) : Event ν τ → Prop
  | .subscribe _ => stillSignalling s.position
  | _ => True

def Asked (thread : ν → τ) (s : State ν τ) : Prop :=
  let tell := fun n => Action.chThdTerminate (thread n)
  let join := fun n => Action.chThdWait (thread n)
  match s.position with
  | .entry => s.log = []
  | .start => s.log = []
  | .signalling tmpSub => ∃ front rest, s.subscribed = front ++ rest ∧ tmpSub = rest.head? ∧
      s.log = front.map tell
  | .signalled n => ∃ front rest, s.subscribed = front ++ n::rest ∧
      s.log = (front ++ [n]).map tell
  | .again => s.log = s.subscribed.map tell
  | .waiting tmpSub => ∃ front rest, s.subscribed = front ++ rest ∧ tmpSub = rest.head? ∧
      s.log = s.subscribed.map tell ++ front.map join
  | .waited n => ∃ front rest, s.subscribed = front ++ n::rest ∧
      s.log = s.subscribed.map tell ++ (front ++ [n]).map join
  | .clearing => s.log = stopAll thread s.subscribed
  | .returned => s.log = stopAll thread s.subscribed ∧ s.subs.baseSubscription = none

structure Sound (thread : ν → τ) (s : State ν τ) : Prop where
  chain : s.position ≠ .returned → Chain s.subs.next s.subs.baseSubscription s.subscribed
  asked : Asked thread s

theorem soundServed {thread : ν → τ} {s : State ν τ} (h : Sound thread s) : Served thread s := by
  obtain ⟨subs,position,exited,subscribed,log⟩ := s
  have asked := h.asked
  simp only [Asked] at asked
  constructor
  · rintro n rfl
    obtain ⟨front,rest,split,here,calls⟩ := asked
    have listed : n ∈ subscribed := by
      rw [split]
      exact List.mem_append_right front (List.mem_of_head? here.symm)
    rw [calls]
    exact List.mem_append_left _ (List.mem_map.mpr ⟨n,listed,rfl⟩)
  · rintro rfl n member
    rw [asked.1]
    exact ⟨List.mem_append_left _ (List.mem_map.mpr ⟨n,member,rfl⟩),
      List.mem_append_right _ (List.mem_map.mpr ⟨n,member,rfl⟩)⟩

/- The two loops walk the list alike: at NULL all are behind, at n the others are ahead,
and the next of n is the first of them. -/
theorem turnOver {subscribed front rest : List ν} (split : subscribed = front ++ rest)
    (here : none = rest.head?) : subscribed = front := by
  rw [List.head?_eq_none_iff.mp here.symm,List.append_nil] at split
  exact split

theorem turnAt {subscribed front rest : List ν} {n : ν} (split : subscribed = front ++ rest)
    (here : some n = rest.head?) : ∃ later, subscribed = front ++ n::later := by
  obtain ⟨later,rfl⟩ := List.head?_eq_some_iff.mp here.symm
  exact ⟨later,split⟩

theorem turnOn {next : ν → Option ν} {base : Option ν} {subscribed front rest : List ν} {n : ν}
    (chain : Chain next base subscribed) (split : subscribed = front ++ n::rest) :
    subscribed = (front ++ [n]) ++ rest ∧ next n = rest.head? := by
  rw [split] at chain
  exact ⟨by rw [split,List.append_assoc]; rfl,chainNext chain⟩

theorem shutdownSound [DecidableEq τ] {thread : ν → τ} {s t : State ν τ} (h : Sound thread s)
    (taken : vSystemTerminateCriticalTasksStep thread s = some t) : Sound thread t := by
  obtain ⟨subs,position,exited,subscribed,log⟩ := s
  obtain ⟨chain,asked⟩ := h
  simp only [Asked] at chain asked
  cases position with
  | entry =>
    specialize chain (by simp)
    have nothing : log = [] := asked
    simp only [vSystemTerminateCriticalTasksStep] at taken
    split at taken <;> cases Option.some.inj taken
    · rename_i empty
      have nobody : subscribed = [] := chainNull (by rw [← empty]; exact chain)
      exact ⟨fun bad => absurd rfl bad,⟨by rw [nothing,nobody]; rfl,empty⟩⟩
    · exact ⟨fun _ => chain,nothing⟩
  | start =>
    specialize chain (by simp)
    cases Option.some.inj taken
    exact ⟨fun _ => chain,[],subscribed,rfl,chainHead chain,asked⟩
  | signalling tmpSub =>
    specialize chain (by simp)
    obtain ⟨front,rest,split,here,calls⟩ := asked
    cases tmpSub with
    | none =>
      cases Option.some.inj taken
      have behind := turnOver split here
      exact ⟨fun _ => chain,by rw [behind,calls]; rfl⟩
    | some n =>
      cases Option.some.inj taken
      obtain ⟨later,ahead⟩ := turnAt split here
      exact ⟨fun _ => chain,front,later,ahead,by simp [calls]⟩
  | signalled n =>
    specialize chain (by simp)
    obtain ⟨front,rest,split,calls⟩ := asked
    cases Option.some.inj taken
    obtain ⟨passed,linked⟩ := turnOn chain split
    exact ⟨fun _ => chain,front ++ [n],rest,passed,linked,calls⟩
  | again =>
    specialize chain (by simp)
    cases Option.some.inj taken
    exact ⟨fun _ => chain,[],subscribed,rfl,chainHead chain,by simpa using asked⟩
  | waiting tmpSub =>
    specialize chain (by simp)
    obtain ⟨front,rest,split,here,calls⟩ := asked
    cases tmpSub with
    | none =>
      cases Option.some.inj taken
      have behind := turnOver split here
      exact ⟨fun _ => chain,by rw [calls,← behind]; rfl⟩
    | some n =>
      simp only [vSystemTerminateCriticalTasksStep] at taken
      split at taken <;> try contradiction
      cases Option.some.inj taken
      obtain ⟨later,ahead⟩ := turnAt split here
      exact ⟨fun _ => chain,front,later,ahead,by simp [calls]⟩
  | waited n =>
    specialize chain (by simp)
    obtain ⟨front,rest,split,calls⟩ := asked
    cases Option.some.inj taken
    obtain ⟨passed,linked⟩ := turnOn chain split
    exact ⟨fun _ => chain,front ++ [n],rest,passed,linked,calls⟩
  | clearing =>
    cases Option.some.inj taken
    exact ⟨fun bad => absurd rfl bad,asked,rfl⟩
  | returned => cases taken

theorem entrySound {thread : ν → τ} {subs : Subscriptions ν} {subscribed : List ν}
    (listed : Chain subs.next subs.baseSubscription subscribed) :
    Sound thread (atEntry subs subscribed) := ⟨fun _ => listed,rfl⟩

structure Moved (thread : ν → τ) (s t : State ν τ) : Prop where
  next : t.subs.next = s.subs.next
  subscribed : t.subscribed = s.subscribed
  late : stillSignalling s.position = false → stillSignalling t.position = false ∧
    (t.log = s.log ∨ ∃ n, t.log = s.log ++ [.chThdWait (thread n)])

theorem shutdownMoved [DecidableEq τ] {thread : ν → τ} {s t : State ν τ}
    (taken : vSystemTerminateCriticalTasksStep thread s = some t) : Moved thread s t := by
  obtain ⟨subs,position,exited,subscribed,log⟩ := s
  cases position with
  | entry =>
    simp only [vSystemTerminateCriticalTasksStep] at taken
    split at taken <;> cases Option.some.inj taken <;> exact ⟨rfl,rfl,nofun⟩
  | start => cases Option.some.inj taken; exact ⟨rfl,rfl,nofun⟩
  | signalling tmpSub =>
    cases tmpSub with
    | none => cases Option.some.inj taken; exact ⟨rfl,rfl,fun _ => ⟨rfl,.inl rfl⟩⟩
    | some n => cases Option.some.inj taken; exact ⟨rfl,rfl,nofun⟩
  | signalled n => cases Option.some.inj taken; exact ⟨rfl,rfl,nofun⟩
  | again => cases Option.some.inj taken; exact ⟨rfl,rfl,fun _ => ⟨rfl,.inl rfl⟩⟩
  | waiting tmpSub =>
    cases tmpSub with
    | none => cases Option.some.inj taken; exact ⟨rfl,rfl,fun _ => ⟨rfl,.inl rfl⟩⟩
    | some n =>
      simp only [vSystemTerminateCriticalTasksStep] at taken
      split at taken <;> try contradiction
      cases Option.some.inj taken
      exact ⟨rfl,rfl,fun _ => ⟨rfl,.inr ⟨n,rfl⟩⟩⟩
  | waited n => cases Option.some.inj taken; exact ⟨rfl,rfl,fun _ => ⟨rfl,.inl rfl⟩⟩
  | clearing => cases Option.some.inj taken; exact ⟨rfl,rfl,fun _ => ⟨rfl,.inl rfl⟩⟩
  | returned => cases taken

variable [Fintype ν] [DecidableEq ν] [DecidableEq τ] {thread : ν → τ} {s t : State ν τ}

theorem subscribeFresh {sub : ν} (taken : step thread s (.subscribe sub) = some t) :
    s.position ≠ .returned ∧ sub ∉ s.subscribed ∧ s.subs.next sub = none ∧
      ∃ subs, vSystemCriticalTaskSubscribe s.subs sub = some subs ∧
        t = {s with subs := subs, subscribed := s.subscribed ++ [sub]} := by
  simp only [step] at taken
  split at taken <;> try contradiction
  rename_i fresh
  obtain ⟨subs,written,same⟩ := Option.map_eq_some_iff.mp taken
  exact ⟨fresh.1,fresh.2.1,fresh.2.2,subs,written,same.symm⟩

theorem subscribeSound {sub : ν} (h : Sound thread s) (early : stillSignalling s.position)
    (taken : step thread s (.subscribe sub) = some t) : Sound thread t := by
  obtain ⟨running,fresh,ends,subs,written,rfl⟩ := subscribeFresh taken
  obtain ⟨other,found,chain,_⟩ := subscribeChain (h.chain running) fresh (fun _ => ends)
  cases Option.some.inj (written.symm.trans found)
  obtain ⟨_,position,exited,subscribed,log⟩ := s
  obtain ⟨_,asked⟩ := h
  simp only [Asked] at asked
  refine ⟨fun _ => chain,?_⟩
  cases position with
  | entry => exact asked
  | start => exact asked
  | signalling tmpSub =>
    obtain ⟨front,rest,split,here,calls⟩ := asked
    cases tmpSub with
    | none => cases early
    | some n =>
      -- the loop stands at n, so the new end of the list is still ahead of it
      obtain ⟨later,ahead⟩ := turnAt split here
      exact ⟨front,n::later ++ [sub],by simp [ahead],rfl,calls⟩
  | signalled n =>
    obtain ⟨front,rest,split,calls⟩ := asked
    exact ⟨front,rest ++ [sub],by simp [split],calls⟩
  | again => cases early
  | waiting tmpSub => cases early
  | waited n => cases early
  | clearing => cases early
  | returned => cases early

theorem exitsSound {gone : τ} (h : Sound thread s)
    (taken : step thread s (.exits gone) = some t) : Sound thread t := by
  simp only [step] at taken
  split at taken <;> try contradiction
  cases Option.some.inj taken
  exact ⟨h.chain,h.asked⟩

theorem stepSound (s : State ν τ) (e : Event ν τ) (t : State ν τ) (h : Sound thread s)
    (met : InTime s e) (taken : step thread s e = some t) : Sound thread t := by
  cases e with
  | shutdown => exact shutdownSound h taken
  | subscribe sub => exact subscribeSound h met taken
  | exits gone => exact exitsSound h taken

/-- From any list, whatever subscriptions arrive while the first loop runs and whenever
the threads exit, the shutdown waits for no thread it has not told and forgets none. -/
theorem shutdownServesAll (thread : ν → τ) {subs : Subscriptions ν} {subscribed : List ν}
    (listed : Chain subs.next subs.baseSubscription subscribed) (events : List (Event ν τ))
    (inTime : Along (step thread) InTime (atEntry subs subscribed) events) :
    Always (step thread) (Served thread) (atEntry subs subscribed) events :=
  alwaysMono (fun _ => soundServed) (guardedInvariant stepSound (entrySound listed) inTime)

theorem shutdownServesAllTwo :
    let start : State (Fin 2) (Fin 2) := atEntry ⟨some 0,fun _ => none⟩ [0]
    let early : List (Event (Fin 2) (Fin 2)) := [.shutdown,.shutdown,.shutdown,.subscribe 1]
    let late : List (Event (Fin 2) (Fin 2)) := List.replicate 5 .shutdown ++ [.exits 0] ++
      List.replicate 2 .shutdown ++ [.exits 1] ++ List.replicate 4 .shutdown
    (run (step id) start (early ++ late)).map (fun s => (s.position,s.log)) =
        some (.returned,[.chThdTerminate 0,.chThdTerminate 1,.chThdWait 0,.chThdWait 1]) ∧
      Always (step id) (Served id) start (early ++ late) := by
  intro start early late
  have unsubscribed : ∀ e ∈ late, ∀ s : State (Fin 2) (Fin 2), InTime s e := by
    intro e member s
    simp only [late,List.mem_append,List.mem_replicate,List.mem_singleton] at member
    rcases member with (((⟨_,rfl⟩ | rfl) | ⟨_,rfl⟩) | rfl) | ⟨_,rfl⟩ <;> trivial
  refine ⟨by rfl,shutdownServesAll id (.node .null) (early ++ late) ?_⟩
  refine (alongAppend rfl).mpr ⟨?_,alongEach unsubscribed⟩
  refine (alongCons rfl).mpr ⟨trivial,(alongCons rfl).mpr ⟨trivial,?_⟩⟩
  exact (alongCons rfl).mpr ⟨trivial,(alongCons rfl).mpr ⟨by rfl,trivial⟩⟩

structure Forgotten (thread : ν → τ) (sub : ν) (s : State ν τ) : Prop where
  late : stillSignalling s.position = false
  listed : sub ∈ s.subscribed
  untold : .chThdTerminate (thread sub) ∉ s.log

theorem stepForgets (sub : ν) (s : State ν τ) (e : Event ν τ) (t : State ν τ)
    (h : Forgotten thread sub s) (taken : step thread s e = some t) : Forgotten thread sub t := by
  cases e with
  | shutdown =>
    have moved := shutdownMoved taken
    obtain ⟨late,same | ⟨n,longer⟩⟩ := moved.late h.late
    · exact ⟨late,by rw [moved.subscribed]; exact h.listed,by rw [same]; exact h.untold⟩
    · exact ⟨late,by rw [moved.subscribed]; exact h.listed,by rw [longer]; simpa using h.untold⟩
  | subscribe other =>
    obtain ⟨_,_,_,subs,_,rfl⟩ := subscribeFresh taken
    exact ⟨h.late,List.mem_append_left _ h.listed,h.untold⟩
  | exits gone =>
    simp only [step] at taken
    split at taken <;> try contradiction
    cases Option.some.inj taken
    exact ⟨h.late,h.listed,h.untold⟩

/- The condition is not idle: a shutdown that gets past a late subscription of a thread
not yet told ends without it, and one that reaches it in the list waits for it untold. -/
theorem lateNeverServed {sub : ν} (late : stillSignalling s.position = false)
    (untold : .chThdTerminate (thread sub) ∉ s.log)
    (taken : step thread s (.subscribe sub) = some t) {events : List (Event ν τ)} {u : State ν τ}
    (reached : run (step thread) t events = some u)
    (ends : u.position = .returned ∨ u.position = .waiting (some sub)) : ¬Served thread u := by
  obtain ⟨_,_,_,subs,_,rfl⟩ := subscribeFresh taken
  have forgotten : Forgotten thread sub
      {s with subs := subs, subscribed := s.subscribed ++ [sub]} :=
    ⟨late,List.mem_append_right _ List.mem_cons_self,untold⟩
  have kept := invariantRun (stepForgets sub) forgotten reached
  intro served
  rcases ends with cleared | blocked
  · exact kept.untold (served.all cleared sub kept.listed).1
  · exact kept.untold (served.told sub blocked)

theorem lateSubscriptionLost :
    let start : State (Fin 2) (Fin 2) := atEntry ⟨some 0,fun _ => none⟩ [0]
    let early : List (Event (Fin 2) (Fin 2)) := List.replicate 6 .shutdown
    Chain start.subs.next start.subs.baseSubscription start.subscribed ∧
      ¬Always (step id) (Served id) start
        (early ++ [.subscribe 1,.exits 0,.shutdown,.shutdown]) ∧
      ¬Always (step id) (Served id) start
        (early ++ [.exits 0,.shutdown,.shutdown,.shutdown,.subscribe 1,.shutdown]) := by
  refine ⟨.node .null,fun served => ?_,fun served => ?_⟩
  · have told := (alwaysReached.mp served _ [] _ (List.append_nil _).symm rfl).told 1 rfl
    exact absurd told (by decide)
  · have all := (alwaysReached.mp served _ [] _ (List.append_nil _).symm rfl).all rfl 1
    exact absurd (all (by decide)).1 (by decide)

theorem quietKeeps {e : Event ν τ} (quiet : ∀ sub, e ≠ .subscribe sub)
    (taken : step thread s e = some t) :
    t.subs.next = s.subs.next ∧ t.subscribed = s.subscribed := by
  cases e with
  | shutdown => exact ⟨(shutdownMoved taken).next,(shutdownMoved taken).subscribed⟩
  | subscribe sub => exact absurd rfl (quiet sub)
  | exits gone =>
    simp only [step] at taken
    split at taken <;> try contradiction
    cases Option.some.inj taken
    exact ⟨rfl,rfl⟩

theorem undisturbedAsWhole {subs : Subscriptions ν} {subscribed : List ν}
    (listed : Chain subs.next subs.baseSubscription subscribed) {events : List (Event ν τ)}
    (alone : ∀ e ∈ events, ∀ sub, e ≠ .subscribe sub)
    (reached : run (step thread) (atEntry subs subscribed) events = some t)
    (done : t.position = .returned) :
    vSystemTerminateCriticalTasks thread subs = some (t.subs,t.log) := by
  have calm : Along (step thread) (fun _ e => ∀ sub, e ≠ .subscribe sub)
      (atEntry subs subscribed) events :=
    alongEach fun e member _ => alone e member
  obtain ⟨sound,next,same⟩ := guardedRun (I := fun s => Sound thread s ∧ s.subs.next = subs.next ∧
    s.subscribed = subscribed) (fun s e t h quiet taken => by
      have kept := quietKeeps quiet taken
      refine ⟨stepSound s e t h.1 ?_ taken,kept.1.trans h.2.1,kept.2.trans h.2.2⟩
      cases e with
      | subscribe sub => exact absurd rfl (quiet sub)
      | shutdown => trivial
      | exits gone => trivial) ⟨entrySound listed,rfl,rfl⟩ calm reached
  have asked := sound.asked
  simp only [Asked,done] at asked
  rw [terminateChain thread listed,asked.1,same,← next,← asked.2]

end Fresknode.SystemShutdown
