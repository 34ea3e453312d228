import Fresknode.Runs

/-! exti.c: the thread that serves the radio's interrupt line, the callback that wakes it
and the start of both, by start_interrupt_handler. chThdCreateStatic is left only once the
new thread has blocked, since it is created at HIGHPRIO. `history` only remembers the edges
delivered and the calls of dw1000_irq_event begun, in order. However the edges fall among
the steps, the thread never blocks with an edge unserved and never calls for none. -/
namespace Fresknode.Interrupt
open Runs

abbrev EventMask := UInt32

inductive Thread where
  | myThread
  deriving DecidableEq, Repr

inductive HandlerPosition where
  | startThd
  | chThdCreateStatic
  | extStart
  | returned
  deriving DecidableEq, Repr

inductive ThreadPosition where
  | absent
  | created
  | named
  | chEvtWaitAny
  | blocked
  | ready
  | irqEvent
  | serving
  deriving DecidableEq, Repr

inductive Mark where
  | edge
  | call
  deriving DecidableEq, Repr

structure State where
  handler : HandlerPosition
  thread : ThreadPosition
  trp : Option Thread
  epending : EventMask
  history : List Mark
  deriving DecidableEq, Repr

def atStart : State := ⟨.startThd,.absent,none,0,[]⟩

def chEvtSignalI (s : State) (events : EventMask) : State :=
  {s with
    epending := s.epending ||| events
    thread := if s.thread = .blocked ∧ (s.epending ||| events) &&& 1 ≠ 0 then .ready else s.thread}

def chEvtWaitAny (s : State) (events : EventMask) : State :=
  if s.epending &&& events ≠ 0 then
    {s with epending := s.epending &&& ~~~(s.epending &&& events), thread := .irqEvent}
  else {s with thread := .blocked}

def extcb1 (s : State) : State :=
  if s.trp ≠ none then chEvtSignalI s 1 else s

def startInterruptHandler (s : State) : Option State :=
  match s.handler with
  | .startThd => some {s with handler := .chThdCreateStatic, thread := .created}
  | .chThdCreateStatic => if s.thread = .blocked then some {s with handler := .extStart} else none
  | .extStart => some {s with handler := .returned}
  | .returned => none

def myThread (s : State) : Option State :=
  match s.thread with
  | .absent => none
  | .created => some {s with thread := .named}
  | .named => some {s with trp := some .myThread, thread := .chEvtWaitAny}
  | .chEvtWaitAny => some (chEvtWaitAny s 1)
  | .blocked => none
  | .ready => some (chEvtWaitAny s 1)
  | .irqEvent => some {s with thread := .serving, history := s.history ++ [.call]}
  | .serving => some {s with thread := .chEvtWaitAny}

inductive Event where
  | main
  | thread
  | edge
  deriving DecidableEq, Repr

def step (s : State) : Event → Option State
  | .main => startInterruptHandler s
  | .thread => myThread s
  | .edge =>
    -- edges reach the callback only after extStart
    if s.handler = .returned then some (extcb1 {s with history := s.history ++ [.edge]}) else none

def edges (marks : List Mark) : Nat := marks.count .edge
def calls (marks : List Mark) : Nat := marks.count .call

@[simp] theorem edgesEdge (marks : List Mark) : edges (marks ++ [.edge]) = edges marks + 1 := by
  simp [edges]

@[simp] theorem edgesCall (marks : List Mark) : edges (marks ++ [.call]) = edges marks := by
  simp [edges]

@[simp] theorem callsEdge (marks : List Mark) : calls (marks ++ [.edge]) = calls marks := by
  simp [calls]

@[simp] theorem callsCall (marks : List Mark) : calls (marks ++ [.call]) = calls marks + 1 := by
  simp [calls]

structure Heard (s : State) : Prop where
  served : s.thread = .blocked → ∀ before after, s.history = before ++ .edge::after → .call ∈ after
  bounded : calls s.history ≤ edges s.history

def owed (s : State) : Nat :=
  (if s.epending &&& 1 ≠ 0 then 1 else 0) + if s.thread = .irqEvent then 1 else 0

def referred : ThreadPosition → Bool
  | .absent | .created | .named => false
  | _ => true

structure Sound (s : State) : Prop where
  quiet : s.handler ≠ .returned → s.history = [] ∧ s.epending &&& 1 = 0
  known : s.handler = .extStart ∨ s.handler = .returned → s.trp ≠ none
  stored : referred s.thread → s.trp ≠ none
  idle : s.thread = .blocked → s.epending &&& 1 = 0
  unserved : s.history.getLast? = some .edge → 0 < owed s
  accounted : calls s.history + owed s ≤ edges s.history

theorem signalled (pending events : EventMask) : (pending ||| events) &&& events = events := by
  apply UInt32.toBitVec_inj.mp
  ext i bound
  simp only [UInt32.toBitVec_and,UInt32.toBitVec_or,BitVec.getElem_and,BitVec.getElem_or]
  grind

theorem taken (pending events : EventMask) :
    (pending &&& ~~~(pending &&& events)) &&& events = 0 := by
  apply UInt32.toBitVec_inj.mp
  ext i bound
  simp only [UInt32.toBitVec_and,UInt32.toBitVec_not,BitVec.getElem_and,BitVec.getElem_not,
    UInt32.toBitVec_ofNat,BitVec.getElem_zero]
  grind

theorem startSound : Sound atStart where
  quiet _ := ⟨rfl,by decide⟩
  known early := by rcases early with h | h <;> cases h
  stored early := by cases early
  idle early := by cases early
  unserved last := by cases last
  accounted := by decide

theorem soundHeard {s : State} (h : Sound s) : Heard s where
  bounded := by
    have := h.accounted
    omega
  served blocked before after split := by
    refine Decidable.byContradiction fun none => ?_
    have rest : ∀ m ∈ after, m = .edge := by
      intro m member
      cases m with
      | edge => rfl
      | call => exact absurd member none
    -- with no call after it, an edge is the last mark, and a blocked thread owes no call
    have last : s.history.getLast? = some .edge := by
      rw [split,List.getLast?_append,List.getLast?_cons]
      cases found : after.getLast? with
      | none => rfl
      | some m => simp [rest m (List.mem_of_getLast? found)]
    have owing := h.unserved last
    simp [owed,h.idle blocked,blocked] at owing

theorem handlerSound {s t : State} (h : Sound s) (moved : startInterruptHandler s = some t) :
    Sound t := by
  obtain ⟨handler,thread,trp,epending,history⟩ := s
  cases handler with
  | startThd =>
    cases Option.some.inj moved
    obtain ⟨rfl,clear⟩ := h.quiet nofun
    exact ⟨fun _ => ⟨rfl,clear⟩,nofun,nofun,nofun,nofun,by simp [owed,clear,calls,edges]⟩
  | chThdCreateStatic =>
    simp only [startInterruptHandler] at moved
    split at moved <;> try contradiction
    rename_i blocked
    cases Option.some.inj moved
    have known := h.stored (by rw [blocked]; rfl)
    exact ⟨fun _ => h.quiet nofun,fun _ => known,h.stored,h.idle,h.unserved,h.accounted⟩
  | extStart =>
    cases Option.some.inj moved
    have known := h.known (.inl rfl)
    exact ⟨fun early => absurd rfl early,fun _ => known,h.stored,h.idle,h.unserved,h.accounted⟩
  | returned => cases moved

theorem waitSound {s : State} (h : Sound s) (known : s.trp ≠ none) (free : s.thread ≠ .irqEvent) :
    Sound (chEvtWaitAny s 1) := by
  have counted := h.accounted
  unfold chEvtWaitAny
  split
  · rename_i bit
    have clear := taken s.epending 1
    refine ⟨fun early => ⟨(h.quiet early).1,clear⟩,fun _ => known,fun _ => known,nofun,?_,?_⟩
    · intro _
      simp [owed]
    · simpa [owed,bit,clear,free] using counted
  · rename_i bit
    have clear : s.epending &&& 1 = 0 := Decidable.not_not.mp bit
    refine ⟨h.quiet,fun _ => known,fun _ => known,fun _ => clear,fun last => ?_,?_⟩
    · have owing := h.unserved last
      simp [owed,clear,free] at owing
    · simpa [owed,clear,free] using counted

theorem threadSound {s t : State} (h : Sound s) (moved : myThread s = some t) : Sound t := by
  obtain ⟨handler,thread,trp,epending,history⟩ := s
  cases thread with
  | absent => cases moved
  | created =>
    cases Option.some.inj moved
    exact ⟨h.quiet,h.known,nofun,nofun,h.unserved,h.accounted⟩
  | named =>
    cases Option.some.inj moved
    exact ⟨h.quiet,fun _ => nofun,fun _ => nofun,nofun,h.unserved,h.accounted⟩
  | chEvtWaitAny =>
    cases Option.some.inj moved
    exact waitSound h (h.stored rfl) nofun
  | blocked => cases moved
  | ready =>
    cases Option.some.inj moved
    exact waitSound h (h.stored rfl) nofun
  | irqEvent =>
    cases Option.some.inj moved
    have counted := h.accounted
    have known := h.stored rfl
    simp only [owed,if_true] at counted
    refine ⟨fun early => ?_,fun _ => known,fun _ => known,nofun,fun last => ?_,?_⟩
    · obtain ⟨rfl,_⟩ := h.quiet early
      simp [calls,edges] at counted
    · simp at last
    · simp only [callsCall,edgesCall,owed,reduceCtorEq,if_false]
      omega
  | serving =>
    cases Option.some.inj moved
    exact ⟨h.quiet,h.known,fun _ => h.stored rfl,nofun,h.unserved,h.accounted⟩

theorem edgeSound {s : State} (h : Sound s) (started : s.handler = .returned) :
    Sound (extcb1 {s with history := s.history ++ [.edge]}) := by
  have known := h.known (.inr started)
  have bit : (s.epending ||| 1) &&& 1 ≠ 0 := by
    rw [signalled]
    decide
  have counted := h.accounted
  simp only [extcb1,known,ne_eq,not_false_eq_true,if_true,chEvtSignalI,bit,and_true]
  refine ⟨fun early => absurd started early,fun _ => known,fun _ => known,?_,?_,?_⟩
  · intro stuck
    split at stuck
    · cases stuck
    · contradiction
  · intro _
    simp only [owed,ne_eq,bit,not_false_eq_true,if_true]
    omega
  · have woken : (if s.thread = .blocked then ThreadPosition.ready else s.thread) = .irqEvent ↔
        s.thread = .irqEvent := by
      split
      · next stuck => simp [stuck]
      · exact Iff.rfl
    simp only [callsEdge,edgesEdge,owed,ne_eq,bit,not_false_eq_true,if_true,woken] at counted ⊢
    omega

theorem stepSound (s : State) (e : Event) (t : State) (h : Sound s) (moved : step s e = some t) :
    Sound t := by
  cases e with
  | main => exact handlerSound h moved
  | thread => exact threadSound h moved
  | edge =>
    simp only [step] at moved
    split at moved <;> try contradiction
    rename_i started
    cases Option.some.inj moved
    exact edgeSound h started

theorem handlerHistory {s t : State} (moved : startInterruptHandler s = some t) :
    t.history = s.history := by
  unfold startInterruptHandler at moved
  split at moved <;> try split at moved
  all_goals try contradiction
  all_goals
    cases Option.some.inj moved
    rfl

theorem waitHistory (s : State) (events : EventMask) :
    (chEvtWaitAny s events).history = s.history := by
  unfold chEvtWaitAny
  split <;> rfl

theorem threadEdges {s t : State} (moved : myThread s = some t) :
    edges t.history = edges s.history := by
  unfold myThread at moved
  split at moved <;> try contradiction
  all_goals
    cases Option.some.inj moved
    simp [waitHistory]

theorem callNeedsEdge {s : State} (h : Sound s) (calling : s.thread = .irqEvent) :
    0 < edges s.history := by
  have counted := h.accounted
  simp only [owed,calling,if_true] at counted
  omega

theorem edgeWakes {s : State} (h : Sound s) (started : s.handler = .returned)
    (blocked : s.thread = .blocked) : ∃ t u, step s .edge = some t ∧ t.thread = .ready ∧
      myThread t = some u ∧ u.thread = .irqEvent := by
  have known := h.known (.inr started)
  have bit : (s.epending ||| 1) &&& 1 ≠ 0 := by
    rw [signalled]
    decide
  let t := extcb1 {s with history := s.history ++ [.edge]}
  have ready : t.thread = .ready := by simp [t,extcb1,known,chEvtSignalI,blocked,bit]
  have pending : t.epending &&& 1 ≠ 0 := by simp [t,extcb1,known,chEvtSignalI,bit]
  refine ⟨t,chEvtWaitAny t 1,by rw [step,if_pos started],ready,by simp only [myThread,ready],?_⟩
  rw [chEvtWaitAny,if_pos pending]

theorem everyEdgeHeard (events : List Event) : Always step Heard atStart events :=
  alwaysMono (fun _ => soundHeard) (invariant stepSound startSound events)

-- two edges before the thread runs again are one event to it
example : (run step atStart [.main,.thread,.thread,.thread,.main,.main,.edge,.edge,.thread,
    .thread]).map State.history = some [.edge,.edge,.call] := by decide

end Fresknode.Interrupt
