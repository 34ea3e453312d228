import Fresknode.Startup

/-! Who uses the driver object before main has initialised it. No flag tells the other
threads that it is ready; only what comes from outside sets them to work. -/
namespace Fresknode.Startup
open Runs

def Safe (s : State) : Prop := ∀ u ∈ s.uses, u.initialised

def Late (s : State) : Event → Prop
  | .byte ctrl => usbCommand ctrl ≠ none → s.initialised
  | .edge => s.initialised
  | _ => True

def harmless : UsbPosition → Prop
  | .got ctrl => usbCommand ctrl = none
  | .switching ctrl _ => usbCommand ctrl = none
  | _ => True

structure Quiet (s : State) : Prop where
  input : ∀ ctrl ∈ s.input, usbCommand ctrl = none
  usb : harmless s.usb
  edges : Interrupt.edges s.interrupt.history = 0

structure Sound (s : State) : Prop where
  interrupt : Interrupt.Sound s.interrupt
  safe : Safe s
  quiet : s.initialised = false → Quiet s

theorem readyOf {s : State} (h : Sound s) (busy : ¬Quiet s) : s.initialised = true := by
  cases early : s.initialised with
  | true => rfl
  | false => exact absurd (h.quiet early) busy

theorem soundReady {s : State} (interrupt : Interrupt.Sound s.interrupt) (safe : Safe s)
    (ready : s.initialised = true) : Sound s :=
  ⟨interrupt,safe,fun early => absurd (ready.symm.trans early) nofun⟩

theorem mainSound {out : Outside} {uid : UInt64} {s t : State} {c : Statement}
    {rest : List Statement} (h : Sound s) (taken : execute out uid s rest c = some t) : Sound t := by
  rcases executeMoves taken with ⟨rfl,i,moved,rfl⟩ | ⟨_,moves⟩
  · refine ⟨Interrupt.handlerSound h.interrupt moved,h.safe,fun early => ?_⟩
    have quiet := h.quiet early
    exact ⟨quiet.input,quiet.usb,by rw [Interrupt.handlerHistory moved]; exact quiet.edges⟩
  · obtain ⟨uses,input,_⟩ := moves.others
    refine ⟨by rw [moves.interrupt]; exact h.interrupt,?_,fun early => ?_⟩
    · unfold Safe
      rw [uses]
      exact h.safe
    · have before := moves.initialised.symm.trans early
      have quiet := h.quiet (Bool.or_eq_false_iff.mp before).1
      refine ⟨by rw [input]; exact quiet.input,?_,by rw [moves.interrupt]; exact quiet.edges⟩
      rw [moves.usb]
      split
      · trivial
      · exact quiet.usb

theorem recordSafe (out : Outside) {s : State} {use : Use} {hal : Option Hal} (h : Safe s)
    (ready : s.initialised = true) : Safe (s.record out use hal) := by
  intro u member
  rcases List.mem_append.mp member with earlier | last
  · exact h u earlier
  · cases List.mem_singleton.mp last
    exact ready

theorem usbSound {out : Outside} {s t : State} (h : Sound s) (move : UsbMove out s t) : Sound t := by
  cases move with
  | test =>
    refine ⟨h.interrupt,h.safe,fun early => ⟨(h.quiet early).input,?_,(h.quiet early).edges⟩⟩
    simp only
    split <;> trivial
  | block =>
    exact ⟨h.interrupt,h.safe,fun early => ⟨(h.quiet early).input,trivial,(h.quiet early).edges⟩⟩
  | get here waiting =>
    refine ⟨h.interrupt,h.safe,fun early => ?_⟩
    have quiet := h.quiet early
    have plain := quiet.input
    rw [waiting] at plain
    exact ⟨fun c member => plain c (List.mem_cons_of_mem _ member),
      plain _ List.mem_cons_self,quiet.edges⟩
  | read here =>
    refine ⟨h.interrupt,h.safe,fun early => ?_⟩
    have plain := (h.quiet early).usb
    rw [here] at plain
    exact ⟨(h.quiet early).input,plain,(h.quiet early).edges⟩
  | skip =>
    exact ⟨h.interrupt,h.safe,fun early => ⟨(h.quiet early).input,trivial,(h.quiet early).edges⟩⟩
  | use hal here command =>
    have ready := readyOf h fun quiet => by
      have plain := quiet.usb
      rw [here] at plain
      exact absurd (command.symm.trans plain) nofun
    exact soundReady h.interrupt (recordSafe out h.safe ready) ready
  | wake =>
    exact ⟨h.interrupt,h.safe,fun early => ⟨(h.quiet early).input,trivial,(h.quiet early).edges⟩⟩

theorem usbEventSound {s : State} {event : UsbEvent} {active : Bool} (h : Sound s) :
    Sound {usbEvent s event with usbActive := active} := by
  cases event with
  | usbEventConfigured =>
    refine ⟨h.interrupt,h.safe,fun early => ⟨nofun,?_,(h.quiet early).edges⟩⟩
    simp only [usbEvent,sduConfigureHookI]
    split
    · rfl
    · exact (h.quiet early).usb
  | _ =>
    exact ⟨h.interrupt,h.safe,fun early =>
      ⟨(h.quiet early).input,(h.quiet early).usb,(h.quiet early).edges⟩⟩

theorem stepSound {out : Outside} {uid : UInt64} (s : State) (e : Event) (t : State) (h : Sound s)
    (late : Late s e) (taken : step out uid s e = some t) : Sound t := by
  cases (moved taken).2 with
  | main _ taken => exact mainSound h taken
  | usb move => exact usbSound h move
  | call calling thread =>
    have ready := readyOf h fun quiet => by
      have delivered := Interrupt.callNeedsEdge h.interrupt calling
      rw [quiet.edges] at delivered
      contradiction
    have kept := Interrupt.threadSound h.interrupt thread
    exact soundReady kept (recordSafe out h.safe ready) ready
  | irq apart thread =>
    have counted := Interrupt.threadEdges thread
    refine ⟨Interrupt.threadSound h.interrupt thread,h.safe,fun early => ?_⟩
    have quiet := h.quiet early
    exact ⟨quiet.input,quiet.usb,by rw [counted]; exact quiet.edges⟩
  | usbEvent => exact usbEventSound h
  | byte ctrl =>
    refine ⟨h.interrupt,h.safe,fun early => ⟨?_,(h.quiet early).usb,(h.quiet early).edges⟩⟩
    intro c member
    rcases List.mem_append.mp member with earlier | last
    · exact (h.quiet early).input c earlier
    · cases List.mem_singleton.mp last
      refine Decidable.byContradiction fun command => ?_
      exact absurd ((late command).symm.trans early) nofun
  | edge delivered =>
    exact soundReady (Interrupt.stepSound _ .edge _ h.interrupt delivered) h.safe late

theorem powerOnSound : Sound powerOn where
  interrupt := Interrupt.startSound
  safe := nofun
  quiet _ := ⟨nofun,trivial,rfl⟩

/-- However bytes of the host, edges and the threads' steps fall among main's, the driver
is used by main alone until dw1000_init has returned, if the commands and the edges come
only then. -/
theorem usedOnceInitialised (out : Outside) (uid : UInt64) (events : List Event)
    (late : Along (step out uid) Late powerOn events) : Always (step out uid) Safe powerOn events :=
  alwaysMono (fun _ h => h.safe) (guardedInvariant stepSound powerOnSound late)

theorem usedOnceInitialisedLater :
    let early : List Event := List.replicate 18 .main ++ List.replicate 3 .irq ++ List.replicate 16 .main
    let late : List Event := [.usbEvent .usbEventConfigured true,.usb,.byte 0x73,.edge,
      .usb,.usb,.usb,.irq,.irq]
    (run (step documented 0) powerOn (early ++ late)).map State.uses =
        some [⟨.setSpeed .halLowspeed,some .defaultDw1000Hal,true⟩,
          ⟨.dw1000IrqEvent,some .defaultDw1000Hal,true⟩] ∧
      Always (step documented 0) Safe powerOn (early ++ late) := by
  intro early late
  have outside : ∀ e ∈ early, ∀ s, Late s e := by
    intro e member s
    simp only [early,List.mem_append,List.mem_replicate] at member
    rcases member with (⟨_,rfl⟩ | ⟨_,rfl⟩) | ⟨_,rfl⟩ <;> trivial
  have threads : ∀ e ∈ [Event.usb,.usb,.usb,.irq,.irq], ∀ s, Late s e := by
    intro e member s
    simp only [List.mem_cons,List.not_mem_nil,or_false] at member
    rcases member with rfl | rfl | rfl | rfl | rfl <;> trivial
  refine ⟨by decide +kernel,?_⟩
  refine usedOnceInitialised documented 0 (early ++ late) ((alongAppend rfl).mpr ⟨alongEach outside,?_⟩)
  refine (alongCons rfl).mpr ⟨trivial,(alongCons rfl).mpr ⟨trivial,?_⟩⟩
  exact (alongCons rfl).mpr ⟨fun _ => rfl,(alongCons rfl).mpr ⟨by rfl,alongEach threads⟩⟩

theorem recordUnsafe (out : Outside) {s : State} {use : Use} {hal : Option Hal}
    (early : s.initialised = false) : ¬Safe (s.record out use hal) := by
  intro safe
  have ready : s.initialised = true := safe ⟨use,hal,s.initialised⟩ (List.mem_append_right _ List.mem_cons_self)
  exact absurd (ready.symm.trans early) nofun

theorem earlyCommandUses {out : Outside} {uid : UInt64} {s : State} {ctrl : UInt8} {use : Use}
    (running : s.fault = false) (waits : s.usb = .blocked) (empty : s.input = [])
    (active : s.usbActive) (pointed : s.usbDw) (early : s.initialised = false)
    (command : usbCommand ctrl = some use) :
    ∃ t, run (step out uid) s [.byte ctrl,.usb,.usb,.usb] = some t ∧ ¬Safe t := by
  have queued : step out uid s (.byte ctrl) = some {s with input := [ctrl]} := by
    simp [step,running,waits,active,empty]
  have got : step out uid {s with input := [ctrl]} .usb = some {s with usb := .got ctrl} := by
    simp [step,myUsbInput,running,waits,empty]
  have read : step out uid {s with usb := .got ctrl} .usb =
      some {s with usb := .switching ctrl s.dw.hal} := by
    simp [step,myUsbInput,running,pointed]
  let u : State := {s with usb := .switching ctrl s.dw.hal}
  let after : State := u.record out use (usedHal u s.dw.hal use)
  have used : step out uid u .usb = some {after with usb := if after.fault then u.usb else .testing} := by
    simp only [step,u,running,Bool.false_eq_true,if_false,myUsbInput,command]
    rfl
  refine ⟨_,runCons.mpr ⟨_,queued,runCons.mpr ⟨_,got,runCons.mpr ⟨_,read,runCons.mpr ⟨_,used,rfl⟩⟩⟩⟩,?_⟩
  exact recordUnsafe out (s := u) early

theorem earlyEdgeUses {out : Outside} {uid : UInt64} {s : State} (running : s.fault = false)
    (sound : Interrupt.Sound s.interrupt) (started : s.interrupt.handler = .returned)
    (blocked : s.interrupt.thread = .blocked) (early : s.initialised = false) :
    ∃ t, run (step out uid) s [.edge,.irq,.irq] = some t ∧ ¬Safe t := by
  obtain ⟨i,j,edge,ready,woken,calling⟩ := Interrupt.edgeWakes sound started blocked
  have delivered : step out uid s .edge = some {s with interrupt := i} := by
    simp [step,running,edge]
  have waited : step out uid {s with interrupt := i} .irq = some {s with interrupt := j} := by
    simp [step,running,myThread,woken,ready]
  have called : step out uid {s with interrupt := j} .irq = some
      {s.record out .dw1000IrqEvent s.dw.hal with
        interrupt := {j with thread := .serving, history := j.history ++ [.call]}} := by
    simp [step,running,myThread,Interrupt.myThread,calling,State.record]
  refine ⟨_,runCons.mpr ⟨_,delivered,runCons.mpr ⟨_,waited,runCons.mpr ⟨_,called,rfl⟩⟩⟩,?_⟩
  exact recordUnsafe out (s := s) early

theorem commandWhileMainSleeps :
    let events : List Event := List.replicate 12 .main ++
      [.usbEvent .usbEventConfigured true,.usb,.byte 0x73,.usb,.usb,.usb]
    (run (step documented 0) powerOn events).map State.uses =
        some [⟨.setSpeed .halLowspeed,none,false⟩] ∧
      ¬Always (step documented 0) Safe powerOn events := by
  intro events
  have used : (run (step documented 0) powerOn events).map State.uses =
      some [⟨.setSpeed .halLowspeed,none,false⟩] := by decide
  refine ⟨used,fun safe => ?_⟩
  obtain ⟨t,reached,uses⟩ := Option.map_eq_some_iff.mp used
  have last := alwaysReached.mp safe events [] t (List.append_nil events).symm reached
  have ready : false = true :=
    last ⟨.setSpeed .halLowspeed,none,false⟩ (by rw [uses]; exact List.mem_cons_self)
  cases ready

end Fresknode.Startup
