import Fresknode.Identity
import Fresknode.Interrupt

/-! main.c up to the return of dw1000_init, with the threads it starts on the way: the
USB input thread of usb_related.c and the interrupt thread of exti.c. All three hold the
one driver object dw. Library calls of main that leave what is modelled here alone are one
statement each; `uid` is what the EEPROM answers, and `out` what the code that is not under
src/ brings. A NULL hal that is called through ends in HardFault_Handler, which never
returns. `uses` only remembers what the other threads did with the driver or its hal,
through which hal pointer, and whether dw1000_init had returned. -/
namespace Fresknode.Startup
open Runs Identity

inductive DriverState where
  | zeroed
  | dw1000StateUninitialized
  deriving DecidableEq, Repr

inductive Hal where
  | defaultDw1000Hal
  deriving DecidableEq, Repr

inductive RangingModule where
  | twowayrangingModule
  | passiveRangingModule
  deriving DecidableEq, Repr

inductive PacketModule where
  | peertopeerModule
  deriving DecidableEq, Repr

@[ext] structure Config where
  shortaddr : UInt16
  deriving DecidableEq, Repr

structure Driver where
  state : DriverState
  config : Option Config
  hal : Option Hal
  rangingModule : Option RangingModule
  packetModule : Option PacketModule
  deriving DecidableEq, Repr

inductive HalSpeed where
  | halLowspeed
  | halHighspeed
  deriving DecidableEq, Repr

inductive Datarate where
  | dw1000Datarate110
  | dw1000Datarate850
  deriving DecidableEq, Repr

inductive Channel where
  | dw1000Channel1
  | dw1000Channel2
  | dw1000Channel3
  | dw1000Channel4
  | dw1000Channel5
  | dw1000Channel7
  deriving DecidableEq, Repr

inductive Use where
  | setSpeed (speed : HalSpeed)
  | dw1000GetSensors
  | dw1000RssiToDbm
  | dw1000ChangeDatarate (rate : Datarate)
  | dw1000ChangeChannel (channel : Channel)
  | dw1000FilterEnabled
  | dw1000PrintConfig
  | dw1000GetEventCounters
  | dw1000IrqEvent
  deriving DecidableEq, Repr

def usbCommand (ctrl : UInt8) : Option Use :=
  match Char.ofUInt8 ctrl with
  | 's' => some (.setSpeed .halLowspeed)
  | 'S' => some (.setSpeed .halHighspeed)
  | 't' => some .dw1000GetSensors
  | 'r' => some .dw1000RssiToDbm
  | 'd' => some (.dw1000ChangeDatarate .dw1000Datarate110)
  | 'D' => some (.dw1000ChangeDatarate .dw1000Datarate850)
  | '1' => some (.dw1000ChangeChannel .dw1000Channel1)
  | '2' => some (.dw1000ChangeChannel .dw1000Channel2)
  | '3' => some (.dw1000ChangeChannel .dw1000Channel3)
  | '4' => some (.dw1000ChangeChannel .dw1000Channel4)
  | '5' => some (.dw1000ChangeChannel .dw1000Channel5)
  | '7' => some (.dw1000ChangeChannel .dw1000Channel7)
  | 'f' => some .dw1000FilterEnabled
  | 'p' => some .dw1000PrintConfig
  | 'i' => some .dw1000GetEventCounters
  | _ => none

inductive Library where
  | halInit
  | chSysInit
  | sduObjectInit
  | sduStart
  | usbDisconnectBus
  | usbStart
  | usbConnectBus
  | chThdSleepMilliseconds (time : Nat)
  | vInitDebugPrint
  | printf
  | palClearPad
  | palSetPad
  | startSerial
  deriving DecidableEq, Repr

inductive Statement where
  | call (f : Library)
  | assignUsbDw
  | createMyUsbInput
  | getEuid
  | startInterruptHandler
  | assignRole
  | assignIeeshortaddr
  | assignState
  | assignShortaddr
  | dw1000GenerateRecommendedConf
  | assignConfig
  | assignHal
  | assignRangingModule
  | assignPacketModule
  | assignPassiveRanging
  | dw1000Init
  | dw1000InitReturn
  deriving DecidableEq, Repr

def usbstartup : List Statement :=
  [.call .sduObjectInit,.call .sduStart,.assignUsbDw,.call .usbDisconnectBus,
    .call (.chThdSleepMilliseconds 1000),.call .usbStart,.call .usbConnectBus,.createMyUsbInput]

def main : List Statement :=
  [.call .halInit,.call .chSysInit] ++ usbstartup ++
  [.getEuid,.call .vInitDebugPrint,.call (.chThdSleepMilliseconds 4000),.call .printf,
    .call .palClearPad,.call (.chThdSleepMilliseconds 200),.call .palSetPad,
    .startInterruptHandler,.assignRole,.call .startSerial,.assignIeeshortaddr,.call .printf,
    .assignState,.assignShortaddr,.dw1000GenerateRecommendedConf,.assignConfig,.assignHal,
    .assignRangingModule,.assignPacketModule,.assignPassiveRanging,.dw1000Init,.dw1000InitReturn]

/- For the code that is not under src/: what becomes of the configuration, whether the calls
of a statement of main return, and which driver functions go through the hal they get. -/
structure Outside where
  dw1000GenerateRecommendedConf : UInt64 → Config → Config
  returns : Statement → Bool
  throughHal : Use → Bool

def documented : Outside := ⟨fun _ config => config,fun _ => true,fun _ => true⟩

inductive UsbPosition where
  | absent
  | testing
  | getting
  | blocked
  | got (ctrl : UInt8)
  | switching (ctrl : UInt8) (pHal : Option Hal)
  | sleeping
  deriving DecidableEq, Repr

structure Record where
  use : Use
  hal : Option Hal
  initialised : Bool
  deriving DecidableEq, Repr

structure State where
  main : List Statement
  devid : UInt64
  role : RangerRole
  ieeshortaddr : UInt16
  config : Config
  dw : Driver
  initialised : Bool
  usbDw : Bool
  usbActive : Bool
  input : List UInt8
  usb : UsbPosition
  interrupt : Interrupt.State
  uses : List Record
  fault : Bool
  deriving DecidableEq, Repr

def powerOn : State where
  main := main
  devid := 0
  role := .undefined
  ieeshortaddr := 0
  config := ⟨0⟩
  dw := ⟨.zeroed,none,none,none,none⟩
  initialised := false
  usbDw := false
  usbActive := false
  input := []
  usb := .absent
  interrupt := Interrupt.atStart
  uses := []
  fault := false

def faults (out : Outside) (use : Use) (hal : Option Hal) : Bool :=
  hal.isNone &&
    match use with
    | .setSpeed _ => true
    | use => out.throughHal use

def State.record (s : State) (out : Outside) (use : Use) (hal : Option Hal) : State :=
  {s with uses := s.uses ++ [⟨use,hal,s.initialised⟩], fault := faults out use hal}

def execute (out : Outside) (uid : UInt64) (s : State) (rest : List Statement) :
    Statement → Option State
  | .call _ => some {s with main := rest}
  | .assignUsbDw => some {s with main := rest, usbDw := true}
  | .createMyUsbInput => some {s with main := rest, usb := .testing}
  | .getEuid => some {s with main := rest, devid := uid}
  | .startInterruptHandler =>
    (Interrupt.startInterruptHandler s.interrupt).map fun i =>
      {s with interrupt := i, main := if i.handler = .returned then rest else s.main}
  | .assignRole => some {s with main := rest, role := getRole s.devid}
  | .assignIeeshortaddr => some {s with main := rest, ieeshortaddr := Identity.ieeshortaddr s.role}
  | .assignState => some {s with main := rest, dw := {s.dw with state := .dw1000StateUninitialized}}
  | .assignShortaddr => some {s with main := rest, config := {s.config with shortaddr := s.ieeshortaddr}}
  | .dw1000GenerateRecommendedConf =>
    some {s with main := rest, config := out.dw1000GenerateRecommendedConf s.devid s.config}
  | .assignConfig => some {s with main := rest, dw := {s.dw with config := some s.config}}
  | .assignHal => some {s with main := rest, dw := {s.dw with hal := some .defaultDw1000Hal}}
  | .assignRangingModule =>
    some {s with main := rest, dw := {s.dw with rangingModule := some .twowayrangingModule}}
  | .assignPacketModule =>
    some {s with main := rest, dw := {s.dw with packetModule := some .peertopeerModule}}
  | .assignPassiveRanging =>
    if s.role = .undefined then
      some {s with main := rest, dw := {s.dw with rangingModule := some .passiveRangingModule}}
    else some {s with main := rest}
  | .dw1000Init => some {s with main := rest}
  | .dw1000InitReturn => some {s with main := rest, initialised := true}

def mainStep (out : Outside) (uid : UInt64) (s : State) : Option State :=
  match s.main with
  | [] => none
  | c::rest => if out.returns c then execute out uid s rest c else none

def usedHal (s : State) (pHal : Option Hal) : Use → Option Hal
  | .dw1000GetEventCounters => pHal
  | _ => s.dw.hal

def myUsbInput (out : Outside) (s : State) : Option State :=
  match s.usb with
  | .absent => none
  | .testing => some {s with usb := if s.usbActive then .getting else .sleeping}
  | .getting =>
    match s.input with
    | [] => some {s with usb := .blocked}
    | ctrl::input => some {s with input := input, usb := .got ctrl}
  | .blocked =>
    match s.input with
    | [] => none
    | ctrl::input => some {s with input := input, usb := .got ctrl}
  | .got ctrl => if s.usbDw then some {s with usb := .switching ctrl s.dw.hal} else none
  | .switching ctrl pHal =>
    match usbCommand ctrl with
    | none => some {s with usb := .testing}
    | some use =>
      let t := s.record out use (usedHal s pHal use)
      some {t with usb := if t.fault then s.usb else .testing}
  | .sleeping => some {s with usb := .testing}

def myThread (out : Outside) (s : State) : Option State :=
  (Interrupt.myThread s.interrupt).map fun i =>
    let t := if s.interrupt.thread = .irqEvent then s.record out .dw1000IrqEvent s.dw.hal else s
    {t with interrupt := i}

inductive UsbEvent where
  | usbEventReset
  | usbEventAddress
  | usbEventConfigured
  | usbEventSuspend
  | usbEventWakeup
  | usbEventStalled
  deriving DecidableEq, Repr

def msgReset : UInt8 := 0xfe

-- the queue is emptied, and a thread that waits at it gets MSG_RESET in its char
def sduConfigureHookI (s : State) : State :=
  {s with input := [], usb := if s.usb = .blocked ∧ s.input = [] then .got msgReset else s.usb}

def usbEvent (s : State) : UsbEvent → State
  | .usbEventConfigured => sduConfigureHookI s
  | _ => s

inductive Event where
  | main
  | usb
  | irq
  | usbEvent (event : UsbEvent) (active : Bool)
  | byte (ctrl : UInt8)
  | edge
  deriving DecidableEq, Repr

def step (out : Outside) (uid : UInt64) (s : State) (e : Event) : Option State :=
  if s.fault then none else
    match e with
    | .main => mainStep out uid s
    | .usb => myUsbInput out s
    | .irq => myThread out s
    | .usbEvent event active => some {usbEvent s event with usbActive := active}
    | .byte ctrl =>
      -- the host can send once the USB thread exists and USB is active
      if s.usb ≠ .absent ∧ s.usbActive then some {s with input := s.input ++ [ctrl]} else none
    | .edge => (Interrupt.step s.interrupt .edge).map fun i => {s with interrupt := i}

structure Moves (s t : State) (c : Statement) (rest : List Statement) : Prop where
  main : t.main = rest
  interrupt : t.interrupt = s.interrupt
  usb : t.usb = if c = .createMyUsbInput then .testing else s.usb
  initialised : t.initialised = (s.initialised || decide (c = .dw1000InitReturn))
  others : t.uses = s.uses ∧ t.input = s.input ∧ t.fault = s.fault

theorem executeMoves {out : Outside} {uid : UInt64} {s t : State} {rest : List Statement}
    {c : Statement} (taken : execute out uid s rest c = some t) :
    (c = .startInterruptHandler ∧ ∃ i, Interrupt.startInterruptHandler s.interrupt = some i ∧
      t = {s with interrupt := i, main := if i.handler = .returned then rest else s.main}) ∨
    c ≠ .startInterruptHandler ∧ Moves s t c rest := by
  cases c with
  | startInterruptHandler =>
    obtain ⟨i,moved,rfl⟩ := Option.map_eq_some_iff.mp taken
    exact .inl ⟨rfl,i,moved,rfl⟩
  | assignPassiveRanging =>
    simp only [execute] at taken
    split at taken <;> cases Option.some.inj taken
    · exact .inr ⟨by simp,rfl,rfl,rfl,by simp,rfl,rfl,rfl⟩
    · exact .inr ⟨by simp,rfl,rfl,rfl,by simp,rfl,rfl,rfl⟩
  | _ =>
    cases Option.some.inj taken
    exact .inr ⟨by simp,rfl,rfl,rfl,by simp,rfl,rfl,rfl⟩

inductive UsbMove (out : Outside) (s : State) : State → Prop where
  | test (here : s.usb = .testing) :
      UsbMove out s {s with usb := if s.usbActive then .getting else .sleeping}
  | block (here : s.usb = .getting) : UsbMove out s {s with usb := .blocked}
  | get {ctrl : UInt8} {input : List UInt8} (here : s.usb = .getting ∨ s.usb = .blocked)
      (waiting : s.input = ctrl::input) : UsbMove out s {s with input := input, usb := .got ctrl}
  | read {ctrl : UInt8} (here : s.usb = .got ctrl) :
      UsbMove out s {s with usb := .switching ctrl s.dw.hal}
  | skip {ctrl : UInt8} {pHal : Option Hal} (here : s.usb = .switching ctrl pHal)
      (nothing : usbCommand ctrl = none) : UsbMove out s {s with usb := .testing}
  | use {ctrl : UInt8} {pHal : Option Hal} {use : Use} (hal : Option Hal)
      (here : s.usb = .switching ctrl pHal) (command : usbCommand ctrl = some use) :
      UsbMove out s {s.record out use hal with
        usb := if faults out use hal then s.usb else .testing}
  | wake (here : s.usb = .sleeping) : UsbMove out s {s with usb := .testing}

theorem usbMove {out : Outside} {s t : State} (taken : myUsbInput out s = some t) :
    UsbMove out s t := by
  cases here : s.usb with
  | absent => simp [myUsbInput,here] at taken
  | testing =>
    simp only [myUsbInput,here] at taken
    cases Option.some.inj taken
    exact .test here
  | getting =>
    simp only [myUsbInput,here] at taken
    split at taken <;> cases Option.some.inj taken
    · exact .block here
    · exact .get (.inl here) (by assumption)
  | blocked =>
    simp only [myUsbInput,here] at taken
    split at taken <;> try contradiction
    cases Option.some.inj taken
    exact .get (.inr here) (by assumption)
  | got ctrl =>
    simp only [myUsbInput,here] at taken
    split at taken <;> try contradiction
    cases Option.some.inj taken
    exact .read here
  | switching ctrl pHal =>
    simp only [myUsbInput,here] at taken
    split at taken <;> cases Option.some.inj taken
    · exact .skip here (by assumption)
    · rw [← here]
      exact .use _ here (by assumption)
  | sleeping =>
    simp only [myUsbInput,here] at taken
    cases Option.some.inj taken
    exact .wake here

inductive Moved (out : Outside) (uid : UInt64) (s : State) : Event → State → Prop where
  | main {t : State} {c : Statement} {rest : List Statement} (here : s.main = c::rest)
      (taken : execute out uid s rest c = some t) : Moved out uid s .main t
  | usb {t : State} (move : UsbMove out s t) : Moved out uid s .usb t
  | call {i : Interrupt.State} (calling : s.interrupt.thread = .irqEvent)
      (thread : Interrupt.myThread s.interrupt = some i) :
      Moved out uid s .irq {s.record out .dw1000IrqEvent s.dw.hal with interrupt := i}
  | irq {i : Interrupt.State} (apart : s.interrupt.thread ≠ .irqEvent)
      (thread : Interrupt.myThread s.interrupt = some i) :
      Moved out uid s .irq {s with interrupt := i}
  | usbEvent (event : UsbEvent) (active : Bool) :
      Moved out uid s (.usbEvent event active) {usbEvent s event with usbActive := active}
  | byte (ctrl : UInt8) : Moved out uid s (.byte ctrl) {s with input := s.input ++ [ctrl]}
  | edge {i : Interrupt.State} (delivered : Interrupt.step s.interrupt .edge = some i) :
      Moved out uid s .edge {s with interrupt := i}

theorem moved {out : Outside} {uid : UInt64} {s t : State} {e : Event}
    (taken : step out uid s e = some t) : s.fault = false ∧ Moved out uid s e t := by
  unfold step at taken
  split at taken <;> try contradiction
  rename_i running
  refine ⟨by simpa using running,?_⟩
  cases e with
  | main =>
    simp only [mainStep] at taken
    split at taken <;> try contradiction
    split at taken <;> try contradiction
    exact .main (by assumption) taken
  | usb => exact .usb (usbMove taken)
  | irq =>
    obtain ⟨i,thread,rfl⟩ := Option.map_eq_some_iff.mp taken
    split
    · exact .call (by assumption) thread
    · exact .irq (by assumption) thread
  | usbEvent event active =>
    cases Option.some.inj taken
    exact .usbEvent event active
  | byte ctrl =>
    simp only at taken
    split at taken <;> try contradiction
    cases Option.some.inj taken
    exact .byte ctrl
  | edge =>
    obtain ⟨i,delivered,rfl⟩ := Option.map_eq_some_iff.mp taken
    exact .edge delivered

end Fresknode.Startup
