import Fresknode.MainLoop
import Fresknode.StartupSafety

/-! The commands of the USB host over the whole life of the board. They are carried out in
the order they were sent, each of them once, and bytes that are no command are skipped.
Commands still queued when the host configures the device are gone. -/
namespace Fresknode.Startup
open Runs

def sent : Event → List UInt8
  | .byte ctrl => [ctrl]
  | _ => []

def commanded (use : Use) : Bool := use ≠ .dw1000IrqEvent

def carriedOut (out : Outside) (u : Record) : Bool := commanded u.use && !faults out u.use u.hal

def performed (out : Outside) (s : State) : List Use :=
  (s.uses.filter (carriedOut out)).map Record.use

def inHand : UsbPosition → List Use
  | .got ctrl | .switching ctrl _ => (usbCommand ctrl).toList
  | _ => []

def queued (s : State) : List Use := s.input.filterMap usbCommand

def account (out : Outside) (s : State) : List Use :=
  performed out s ++ inHand s.usb ++ queued s

def NoneDropped (s : State) : Event → Prop
  | .usbEvent .usbEventConfigured _ => queued s = []
  | _ => True

structure Begins (s : State) : Prop where
  once : s.main.count .createMyUsbInput ≤ 1
  absent : .createMyUsbInput ∈ s.main → s.usb = .absent

theorem usbCommanded {ctrl : UInt8} {use : Use} (command : usbCommand ctrl = some use) :
    commanded use = true := by
  unfold usbCommand at command
  split at command
  all_goals first | contradiction | (cases Option.some.inj command; rfl)

theorem performedRecord (out : Outside) (s : State) {use : Use} (hal : Option Hal)
    (command : commanded use = true) :
    performed out (s.record out use hal) = performed out s ++ if faults out use hal then [] else [use] := by
  cases fault : faults out use hal <;> simp [performed,State.record,carriedOut,command,fault]

theorem performedIrq {out : Outside} (s : State) (hal : Option Hal) :
    performed out (s.record out .dw1000IrqEvent hal) = performed out s := by
  simp [performed,State.record,carriedOut,commanded]

theorem executeBegins {out : Outside} {uid : UInt64} {s t : State} {rest : List Statement}
    {c : Statement} (h : Begins s) (here : s.main = c::rest)
    (taken : execute out uid s rest c = some t) :
    Begins t ∧ (t.usb = s.usb ∨ s.usb = .absent ∧ t.usb = .testing) := by
  obtain ⟨once,absent⟩ := h
  rw [here] at once absent
  have later : rest.count .createMyUsbInput ≤ 1 := (List.count_le_count_cons).trans once
  have still : .createMyUsbInput ∈ rest → s.usb = .absent :=
    fun inside => absent (List.mem_cons_of_mem c inside)
  rcases executeMoves taken with ⟨rfl,i,_,rfl⟩ | ⟨_,moves⟩
  · by_cases returned : i.handler = .returned
    · refine ⟨⟨?_,?_⟩,.inl rfl⟩ <;> simp only [if_pos returned]
      · exact later
      · exact still
    · refine ⟨⟨?_,?_⟩,.inl rfl⟩ <;> simp only [if_neg returned,here]
      · exact once
      · exact absent
  · have usb := moves.usb
    rw [← moves.main] at later still
    by_cases creates : c = .createMyUsbInput
    · rw [creates,List.count_cons_self] at once
      have gone : .createMyUsbInput ∉ t.main := by
        rw [moves.main]
        exact List.count_eq_zero.mp (by omega)
      rw [if_pos creates] at usb
      rw [creates] at absent
      exact ⟨⟨later,fun inside => absurd inside gone⟩,.inr ⟨absent List.mem_cons_self,usb⟩⟩
    · rw [if_neg creates] at usb
      exact ⟨⟨later,fun inside => usb.trans (still inside)⟩,.inl usb⟩

theorem mainAccount {out : Outside} {uid : UInt64} {s t : State} {rest : List Statement}
    {c : Statement} (h : Begins s) (here : s.main = c::rest)
    (taken : execute out uid s rest c = some t) : account out t = account out s := by
  have hands : inHand t.usb = inHand s.usb := by
    rcases (executeBegins h here taken).2 with same | ⟨before,after⟩
    · rw [same]
    · rw [before,after]
      rfl
  rcases executeMoves taken with ⟨_,i,_,rfl⟩ | ⟨_,moves⟩
  · rfl
  · obtain ⟨uses,input,_⟩ := moves.others
    simp only [account,performed,queued,uses,input,hands]

theorem usbPresent {out : Outside} {s t : State} (move : UsbMove out s t) : s.usb ≠ .absent := by
  intro absent
  cases move with
  | get here =>
    rw [absent] at here
    rcases here with here | here <;> cases here
  | use _ here =>
    rw [absent] at here
    cases here
  | _ here =>
    rw [absent] at here
    cases here

theorem usbAccount {out : Outside} {s t : State} (move : UsbMove out s t) :
    account out t = account out s := by
  cases move with
  | test here =>
    simp only [account,performed,queued,here]
    split <;> rfl
  | block here =>
    simp only [account,here]
    rfl
  | @get ctrl input here waiting =>
    have idle : inHand s.usb = [] := by
      rcases here with here | here <;> rw [here] <;> rfl
    simp only [account,performed,queued,idle,waiting,List.append_nil,List.append_assoc]
    cases found : usbCommand ctrl <;> simp [inHand,found]
  | read here =>
    simp only [account,here]
    rfl
  | skip here nothing =>
    simp only [account,here,inHand,nothing]
    rfl
  | @use ctrl pHal use hal here command =>
    have done := performedRecord out s hal (usbCommanded command)
    simp only [account,here]
    change performed out (s.record out use hal) ++ inHand (if _ then _ else _) ++ queued s = _
    rw [done]
    cases fault : faults out use hal <;> simp [inHand,command]
  | wake here =>
    simp only [account,here]
    rfl

theorem resetInHand (s : State) : inHand (sduConfigureHookI s).usb = inHand s.usb := by
  simp only [sduConfigureHookI]
  split
  · rename_i waits
    rw [waits.1]
    rfl
  · rfl

theorem stepBegins {out : Outside} {uid : UInt64} {s : State} {e : Event} {t : State} (h : Begins s)
    (taken : step out uid s e = some t) : Begins t := by
  cases (moved taken).2 with
  | main here taken => exact (executeBegins h here taken).1
  | usb move =>
    have leaves := usbLeaves move
    refine ⟨by rw [leaves.1]; exact h.once,fun inside => ?_⟩
    rw [leaves.1] at inside
    exact absurd (h.absent inside) (usbPresent move)
  | usbEvent event =>
    cases event with
    | usbEventConfigured =>
      refine ⟨h.once,fun inside => ?_⟩
      simp only [usbEvent,sduConfigureHookI,h.absent inside]
      rfl
    | _ => exact ⟨h.once,h.absent⟩
  | call => exact ⟨h.once,h.absent⟩
  | irq => exact ⟨h.once,h.absent⟩
  | byte => exact ⟨h.once,h.absent⟩
  | edge => exact ⟨h.once,h.absent⟩

theorem stepAccount {out : Outside} {uid : UInt64} {s : State} {e : Event} {t : State} (h : Begins s)
    (taken : step out uid s e = some t) : ∃ kept, kept.Sublist (account out s) ∧
      account out t = kept ++ (sent e).filterMap usbCommand ∧
      (kept = account out s ↔ NoneDropped s e) := by
  have whole (same : account out t = account out s ++ (sent e).filterMap usbCommand)
      (stays : NoneDropped s e) : ∃ kept, kept.Sublist (account out s) ∧
        account out t = kept ++ (sent e).filterMap usbCommand ∧
        (kept = account out s ↔ NoneDropped s e) :=
    ⟨_,.refl _,same,iff_of_true rfl stays⟩
  cases (moved taken).2 with
  | main here taken => exact whole ((mainAccount h here taken).trans (List.append_nil _).symm) trivial
  | usb move => exact whole ((usbAccount move).trans (List.append_nil _).symm) trivial
  | call =>
    refine whole ?_ trivial
    change performed out (s.record out .dw1000IrqEvent s.dw.hal) ++ _ ++ _ = _
    rw [performedIrq]
    exact (List.append_nil _).symm
  | irq => exact whole (List.append_nil _).symm trivial
  | usbEvent event active =>
    cases event with
    | usbEventConfigured =>
      refine ⟨performed out s ++ inHand s.usb,List.sublist_append_left _ _,?_,?_⟩
      · simp only [account,usbEvent,resetInHand]
        rfl
      · exact List.self_eq_append_right
    | _ => exact whole (List.append_nil _).symm trivial
  | byte ctrl =>
    refine whole ?_ trivial
    simp only [account,performed,queued,sent,List.filterMap_append,List.append_assoc]
  | edge => exact whole (List.append_nil _).symm trivial

structure Serves (s : State) : Prop where
  sound : Interrupt.Sound s.interrupt
  uses : (s.uses.map Record.use).count .dw1000IrqEvent = Interrupt.calls s.interrupt.history

theorem mainHistory {out : Outside} {uid : UInt64} {s t : State} {rest : List Statement}
    {c : Statement} (taken : execute out uid s rest c = some t) :
    t.uses = s.uses ∧ t.interrupt.history = s.interrupt.history ∧
      (Interrupt.Sound s.interrupt → Interrupt.Sound t.interrupt) := by
  rcases executeMoves taken with ⟨_,i,moved,rfl⟩ | ⟨_,moves⟩
  · exact ⟨rfl,Interrupt.handlerHistory moved,fun h => Interrupt.handlerSound h moved⟩
  · exact ⟨moves.others.1,by rw [moves.interrupt],fun h => by rw [moves.interrupt]; exact h⟩

theorem usbHistory {out : Outside} {s t : State} (move : UsbMove out s t) :
    t.interrupt = s.interrupt ∧
      (t.uses.map Record.use).count .dw1000IrqEvent = (s.uses.map Record.use).count .dw1000IrqEvent := by
  cases move with
  | @use ctrl pHal use hal here command =>
    have other : use ≠ .dw1000IrqEvent := by
      rintro rfl
      cases usbCommanded command
    exact ⟨rfl,by simp [State.record,List.count_append,other]⟩
  | _ => exact ⟨rfl,rfl⟩

theorem threadCalls {i j : Interrupt.State} (moved : Interrupt.myThread i = some j) :
    Interrupt.calls j.history = Interrupt.calls i.history + if i.thread = .irqEvent then 1 else 0 := by
  unfold Interrupt.myThread at moved
  split at moved <;> try contradiction
  all_goals
    rename_i here
    cases Option.some.inj moved
    simp [here,Interrupt.waitHistory]

def delivered : Event → List Interrupt.Mark
  | .edge => [.edge]
  | _ => []

def edgesIn (s : State) : List Interrupt.Mark := s.interrupt.history.filter (· = .edge)

theorem edgesInLength (s : State) : (edgesIn s).length = Interrupt.edges s.interrupt.history := by
  rw [Interrupt.edges,List.count_eq_length_filter]
  rfl

theorem deliveredLength (events : List Event) :
    (events.flatMap delivered).length = events.count .edge := by
  induction events with
  | nil => rfl
  | cons e events ih =>
    rw [List.flatMap_cons,List.length_append,ih,List.count_cons]
    cases e with
    | edge =>
      simp only [delivered,List.length_singleton,beq_self_eq_true,if_true]
      omega
    | _ => simp [delivered]

theorem threadKeepsEdges {i j : Interrupt.State} (moved : Interrupt.myThread i = some j) :
    j.history.filter (· = .edge) = i.history.filter (· = .edge) := by
  unfold Interrupt.myThread at moved
  split at moved <;> try contradiction
  all_goals
    cases Option.some.inj moved
    simp [Interrupt.waitHistory]

theorem stepServes {out : Outside} {uid : UInt64} (s : State) (e : Event) (t : State) (h : Serves s)
    (taken : step out uid s e = some t) : Serves t ∧ edgesIn t = edgesIn s ++ delivered e := by
  cases (moved taken).2 with
  | main _ taken =>
    obtain ⟨uses,history,keeps⟩ := mainHistory taken
    refine ⟨⟨keeps h.sound,by rw [uses,history]; exact h.uses⟩,?_⟩
    simp only [edgesIn,history,delivered,List.append_nil]
  | usb move =>
    obtain ⟨same,uses⟩ := usbHistory move
    refine ⟨⟨by rw [same]; exact h.sound,by rw [same,uses]; exact h.uses⟩,?_⟩
    simp only [edgesIn,same,delivered,List.append_nil]
  | call calling thread =>
    have called := threadCalls thread
    rw [if_pos calling] at called
    refine ⟨⟨Interrupt.threadSound h.sound thread,?_⟩,?_⟩
    · rw [called,← h.uses]
      simp [State.record]
    · simp only [edgesIn,threadKeepsEdges thread,delivered,List.append_nil]
  | irq apart thread =>
    have called := threadCalls thread
    rw [if_neg apart] at called
    refine ⟨⟨Interrupt.threadSound h.sound thread,by rw [called]; exact h.uses⟩,?_⟩
    simp only [edgesIn,threadKeepsEdges thread,delivered,List.append_nil]
  | usbEvent event =>
    cases event <;> exact ⟨⟨h.sound,h.uses⟩,(List.append_nil _).symm⟩
  | byte => exact ⟨⟨h.sound,h.uses⟩,(List.append_nil _).symm⟩
  | edge moved =>
    have sound := Interrupt.stepSound _ _ _ h.sound moved
    simp only [Interrupt.step] at moved
    split at moved <;> try contradiction
    cases Option.some.inj moved
    have history : (Interrupt.extcb1 {s.interrupt with history := s.interrupt.history ++ [.edge]}).history =
        s.interrupt.history ++ [.edge] := by
      unfold Interrupt.extcb1 Interrupt.chEvtSignalI
      split <;> rfl
    refine ⟨⟨sound,?_⟩,?_⟩
    · simp only [history,Interrupt.callsEdge]
      exact h.uses
    · simp [edgesIn,history,delivered]

end Fresknode.Startup

namespace Fresknode.MainLoop
open Runs Startup

theorem loopStartup (s : State) : (loopStep s).startup = s.startup := by
  unfold loopStep
  split
  · rfl
  · split <;> rfl

def NoneDropped (s : State) (e : Event) : Prop := Startup.NoneDropped s.startup e

theorem stepAdds {out : Outside} {uid : UInt64} (s : State) (e : Event) (t : State)
    (h : Begins s.startup) (taken : step out uid s e = some t) : Begins t.startup ∧
      ∃ kept, kept.Sublist (account out.toOutside s.startup) ∧
        account out.toOutside t.startup = kept ++ (sent e).filterMap usbCommand ∧
        (kept = account out.toOutside s.startup ↔ NoneDropped s e) := by
  cases stepped taken with
  | loop =>
    rw [loopStartup]
    exact ⟨h,_,.refl _,(List.append_nil _).symm,iff_of_true rfl trivial⟩
  | startup _ move => exact ⟨stepBegins h move,stepAccount h move⟩

/-- No command is done twice or overtaken, whatever the schedule of the threads, and none is
lost but those still queued when the host configures the device. -/
theorem commandsInOrder (out : Outside) (uid : UInt64) (events : List Event) {s : State}
    (reached : run (step out uid) powerOn events = some s) :
    let asked := (events.flatMap sent).filterMap usbCommand
    let left := performed out.toOutside s.startup ++ inHand s.startup.usb ++ queued s.startup
    left.Sublist asked ∧ (left = asked ↔ Along (step out uid) NoneDropped powerOn events) := by
  have start : Begins powerOn.startup := ⟨by decide,fun _ => rfl⟩
  have lost := runLoses stepAdds start reached
  have none : account out.toOutside powerOn.startup = [] := rfl
  rw [none,List.nil_append,← List.filterMap_flatMap] at lost
  exact lost

theorem commandsInOrderTwo :
    let events := startToEnd ++ [.usbEvent .usbEventConfigured true,.usb,.byte 0x73,.byte 0x20,
      .byte 0x53,.usb,.usb,.usb]
    (∃ s, run (step documented 0) powerOn events = some s ∧
      performed documented.toOutside s.startup = [.setSpeed .halLowspeed] ∧
      Along (step documented 0) NoneDropped powerOn events) ∧
    ¬Along (step documented 0) NoneDropped powerOn (events ++ [.usbEvent .usbEventConfigured true]) := by
  intro events
  let left (s : State) : List Use × List Use :=
    (performed documented.toOutside s.startup,
      performed documented.toOutside s.startup ++ inHand s.startup.usb ++ queued s.startup)
  have all : (run (step documented 0) powerOn events).map left =
      some ([.setSpeed .halLowspeed],[.setSpeed .halLowspeed,.setSpeed .halHighspeed]) := by
    decide +kernel
  have reset : (run (step documented 0) powerOn (events ++ [.usbEvent .usbEventConfigured true])).map left =
      some ([.setSpeed .halLowspeed],[.setSpeed .halLowspeed]) := by
    decide +kernel
  obtain ⟨s,reached,same⟩ := Option.map_eq_some_iff.mp all
  obtain ⟨t,reachedToo,fewer⟩ := Option.map_eq_some_iff.mp reset
  refine ⟨⟨s,reached,congrArg Prod.fst same,?_⟩,fun none => ?_⟩
  · exact (commandsInOrder documented 0 events reached).2.mp (congrArg Prod.snd same)
  · have whole := (commandsInOrder documented 0 _ reachedToo).2.mpr none
    cases (congrArg Prod.snd fewer).symm.trans whole

theorem stepServed {out : Outside} {uid : UInt64} (s : State) (e : Event) (t : State)
    (h : Serves s.startup) (taken : step out uid s e = some t) : Serves t.startup ∧
      edgesIn t.startup = edgesIn s.startup ++ delivered e := by
  cases stepped taken with
  | loop =>
    rw [loopStartup]
    exact ⟨h,(List.append_nil _).symm⟩
  | startup _ move => exact stepServes _ _ _ h move

theorem edgesServed (out : Outside) (uid : UInt64) (events : List Event) {s : State}
    (reached : run (step out uid) powerOn events = some s) :
    (s.startup.uses.map Record.use).count .dw1000IrqEvent ≤ events.count .edge ∧
      (s.startup.interrupt.thread = .blocked → ∀ early late,
        s.startup.interrupt.history = early ++ .edge::late → .call ∈ late) := by
  have start : Serves powerOn.startup := ⟨Interrupt.startSound,rfl⟩
  have serves := invariantRun (fun s e t h taken => (stepServed s e t h taken).1) start reached
  have heard := Interrupt.soundHeard serves.sound
  have added := runAdds stepServed start reached
  have total : Interrupt.edges s.startup.interrupt.history = events.count .edge := by
    rw [← edgesInLength,added,← deliveredLength]
    rfl
  rw [serves.uses,← total]
  exact ⟨heard.bounded,heard.served⟩

theorem edgesServedTwo :
    let events := startToEnd ++ [.edge,.irq,.edge] ++ List.replicate 6 .irq
    ∃ s, run (step documented 0) powerOn events = some s ∧
      s.startup.interrupt.thread = .blocked ∧
      (s.startup.uses.map Record.use).count .dw1000IrqEvent ≤ 2 ∧
      ∀ early late, s.startup.interrupt.history = early ++ .edge::late → .call ∈ late := by
  intro events
  have blocks : (run (step documented 0) powerOn events).map (fun s => s.startup.interrupt.thread) =
      some .blocked := by
    decide +kernel
  obtain ⟨s,reached,blocked⟩ := Option.map_eq_some_iff.mp blocks
  have served := edgesServed documented 0 events reached
  exact ⟨s,reached,blocked,served.1,served.2 blocked⟩

end Fresknode.MainLoop
