import Fresknode.Runs

/-! timer.c and timer.h. Of the kernel's time measurement object only the field the
module reads is kept; the measured ticks and the clock are inputs of the calls. An
effect is the structure a call leaves, its result and where it stored in the log. -/
namespace Fresknode.Timer

structure TimeMeasurement where
  last : UInt32
  deriving DecidableEq, Repr

def chTMObjectInit : TimeMeasurement := ⟨0⟩
def chTMStartMeasurementX (now : UInt32) (_ : TimeMeasurement) : TimeMeasurement := ⟨now⟩
def chTMStopMeasurementX (ticks : UInt32) (_ : TimeMeasurement) : TimeMeasurement := ⟨ticks⟩

def stm32Hseclk : UInt32 := 12000000
def stm32PllmValue : UInt32 := 12
def stm32PllnValue : UInt32 := 288
def stm32PllpValue : UInt32 := 2
def stm32Sysclk : UInt32 := stm32Hseclk / stm32PllmValue * stm32PllnValue / stm32PllpValue

def rtc2us (freq n : UInt32) : UInt32 := (n - 1) / (freq / 1000000) + 1

structure MyTimer where
  timer : TimeMeasurement
  accumulatedTime : UInt32
  timevector : Vector UInt32 128
  counter : UInt8
  running : Bool
  deriving DecidableEq, Repr

/- A store at timevector[index]. The word after the array holds counter and running
in its two low bytes; a store further out lands outside the structure. -/
def MyTimer.storeLog (t : MyTimer) (index : Nat) (value : UInt32) : MyTimer :=
  if inside : index < 128 then {t with timevector := t.timevector.set index value inside}
  else if index = 128 then
    {t with counter := value.toUInt8, running := (value >>> 8).toUInt8 != 0}
  else t

structure Effect where
  timer : MyTimer
  value : UInt32
  stores : List Nat
  deriving DecidableEq, Repr

def initTimer (t : MyTimer) : Effect :=
  ⟨{t with
    timer := chTMObjectInit
    timevector := Vector.replicate 128 0
    accumulatedTime := 0
    counter := 0},0,List.range 128⟩

def startTimer (now : UInt32) (t : MyTimer) : Effect :=
  let t := {t with timer := chTMStartMeasurementX now t.timer, accumulatedTime := 0}
  let t := t.storeLog 0 0
  ⟨{t with counter := 1, running := true},0,[0]⟩

def getTimerUs (ticks now : UInt32) (t : MyTimer) : Effect :=
  if t.running = false then ⟨t,0,[]⟩ else
    let t := {t with timer := chTMStopMeasurementX ticks t.timer}
    let dt := rtc2us stm32Sysclk t.timer.last
    let t := {t with timer := chTMStartMeasurementX now t.timer}
    let t := {t with accumulatedTime := t.accumulatedTime + dt}
    let index := t.counter.toNat
    let t := t.storeLog index t.accumulatedTime
    let t := {t with counter := t.counter + 1}
    let t := if t.counter ≥ 128 then {t with counter := 0} else t
    ⟨t,t.accumulatedTime,[index]⟩

def stopTimer (ticks : UInt32) (t : MyTimer) : Effect :=
  let t := {t with timer := chTMStopMeasurementX ticks t.timer}
  let dt := rtc2us stm32Sysclk t.timer.last
  let t := {t with accumulatedTime := t.accumulatedTime + dt}
  let index := t.counter.toNat
  let t := t.storeLog index t.accumulatedTime
  let t := {t with counter := t.counter + 1}
  let t := {t with running := false}
  ⟨t,t.accumulatedTime,[index]⟩

structure Row where
  nr : Nat
  total : UInt32
  difference : UInt32
  deriving DecidableEq, Repr

def MyTimer.fetchLog (t : MyTimer) (index : Nat) : Option UInt32 := t.timevector[index]?

def printRow (t : MyTimer) (i : Nat) : Option Row :=
  if i = 0 then do
    let total ← t.fetchLog i
    let same ← t.fetchLog i
    some ⟨i,total,same⟩
  else do
    let total ← t.fetchLog i
    let this ← t.fetchLog i
    let previous ← t.fetchLog (i-1)
    some ⟨i,total,this - previous⟩

def rowFetches (i : Nat) : List Nat := if i = 0 then [i,i] else [i,i,i-1]

-- a row is missing where one of its loads leaves the array
def printTimex (t : MyTimer) : List (Option Row) := (List.range t.counter.toNat).map (printRow t)
def printFetches (t : MyTimer) : List Nat := (List.range t.counter.toNat).flatMap rowFetches

inductive Op where
  | init
  | start (now : UInt32)
  | getUs (ticks now : UInt32)
  | stop (ticks : UInt32)
  deriving DecidableEq, Repr

def apply : Op → MyTimer → Effect
  | .init => initTimer
  | .start now => startTimer now
  | .getUs ticks now => getTimerUs ticks now
  | .stop ticks => stopTimer ticks

def step (t : MyTimer) (op : Op) : Option MyTimer := some (apply op t).timer

def values (t : MyTimer) : List Op → List UInt32
  | [] => []
  | op::ops => (apply op t).value :: values (apply op t).timer ops

end Fresknode.Timer
