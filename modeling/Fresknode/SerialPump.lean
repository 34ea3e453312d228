import Fresknode.Runs

/-! my_uart.c: the one-slot hand-over between serial_write_range and the data pump
thread. A writer call is one step; the pump is cut into the steps between which
other threads can run, its chprintf included. How the three argument loads group
into steps is a parameter, since the source leaves it to the compiler. -/
namespace Fresknode.SerialPump
open Runs

inductive SerialType where
  | serialNone
  | serialRoundResults
  | serialRangeResult
  deriving DecidableEq, Repr

structure RangeInfo where
  node : UInt16
  range : UInt32
  rssi : UInt32
  deriving DecidableEq, Repr

structure Statics where
  ranges : Vector UInt32 4
  rangeData : RangeInfo
  serialData : SerialType
  deriving DecidableEq, Repr

def bss : Statics := ⟨#v[0,0,0,0],⟨0,0,0⟩,.serialNone⟩

def serialWriteRange (m : Statics) (node : UInt16) (range rssi : UInt32) : Statics :=
  {m with rangeData := ⟨node,range,rssi⟩, serialData := .serialRangeResult}

inductive Frame where
  | roundResults (ranges : Vector UInt32 4)
  | rangeResult (data : RangeInfo)
  deriving DecidableEq, Repr

inductive Field where
  | node
  | range
  | rssi
  deriving DecidableEq, Repr

/-- Each inner list is the fields read in one step, in order. -/
abbrev Plan := List (List Field)

def atomicLoad : Plan := [[.node,.range,.rssi]]
def fieldLoads : Plan := [[.node],[.range],[.rssi]]

def RangeInfo.load (memory args : RangeInfo) : Field → RangeInfo
  | .node => {args with node := memory.node}
  | .range => {args with range := memory.range}
  | .rssi => {args with rssi := memory.rssi}

def RangeInfo.loads (memory args : RangeInfo) (fields : List Field) : RangeInfo :=
  fields.foldl memory.load args

inductive Position where
  | betweenTurns
  | loading (todo : Plan)
  | printRound
  | printRange
  | clearing
  deriving DecidableEq, Repr

structure Task where
  position : Position
  args : RangeInfo
  deriving DecidableEq, Repr

def afterLoad (later : Plan) : Position := if later = [] then .printRange else .loading later

def aux1DataPumpTask (plan : Plan) (m : Statics) (t : Task) : Statics × Task × Option Frame :=
  match t.position with
  | .betweenTurns =>
    match m.serialData with
    | .serialRoundResults => (m,{t with position := .printRound},none)
    | .serialRangeResult => (m,{t with position := .loading plan},none)
    | .serialNone => (m,t,none)
  | .loading [] => (m,{t with position := .printRange},none)
  | .loading (fields::later) => (m,⟨afterLoad later,m.rangeData.loads t.args fields⟩,none)
  | .printRound => (m,{t with position := .clearing},some (.roundResults m.ranges))
  | .printRange => (m,{t with position := .clearing},some (.rangeResult t.args))
  | .clearing => ({m with serialData := .serialNone},{t with position := .betweenTurns},none)

/-! What an observer notes beside the code: how many calls were made, at which
count each argument register was last loaded, and the frames with these counts. -/

structure Marks where
  node : Nat
  range : Nat
  rssi : Nat
  deriving DecidableEq, Repr

def Marks.get (m : Marks) : Field → Nat
  | .node => m.node
  | .range => m.range
  | .rssi => m.rssi

def Marks.set (count : Nat) (m : Marks) : Field → Marks
  | .node => {m with node := count}
  | .range => {m with range := count}
  | .rssi => {m with rssi := count}

def Marks.sets (count : Nat) (m : Marks) (fields : List Field) : Marks :=
  fields.foldl (Marks.set count) m

structure Sent where
  frame : Frame
  marks : Marks
  deriving DecidableEq, Repr

structure World where
  statics : Statics
  task : Task
  calls : Nat
  marks : Marks
  sent : List Sent
  deriving DecidableEq, Repr

def start : World := ⟨bss,⟨.betweenTurns,⟨0,0,0⟩⟩,0,⟨0,0,0⟩,[]⟩

inductive Event where
  | call
  | pump
  deriving DecidableEq, Repr

def marked (w : World) : Marks :=
  match w.task.position with
  | .loading (fields::_) => w.marks.sets w.calls fields
  | _ => w.marks

def pumpStep (plan : Plan) (w : World) : World :=
  let (m,t,frame) := aux1DataPumpTask plan w.statics w.task
  ⟨m,t,w.calls,marked w,w.sent ++ (frame.map (Sent.mk · w.marks)).toList⟩

def callStep (w : World) (d : RangeInfo) : World :=
  {w with statics := serialWriteRange w.statics d.node d.range d.rssi, calls := w.calls+1}

-- the k-th call of the run, counted from 0, has the arguments given k
def step (plan : Plan) (given : Nat → RangeInfo) (w : World) : Event → Option World
  | .call => some (callStep w (given w.calls))
  | .pump => some (pumpStep plan w)

inductive PumpMove (plan : Plan) (w : World) : World → Prop where
  | idle (here : w.task.position = .betweenTurns) (flag : w.statics.serialData = .serialNone) :
      PumpMove plan w w
  | readRound (here : w.task.position = .betweenTurns)
      (flag : w.statics.serialData = .serialRoundResults) :
      PumpMove plan w {w with task.position := .printRound}
  | readRange (here : w.task.position = .betweenTurns)
      (flag : w.statics.serialData = .serialRangeResult) :
      PumpMove plan w {w with task.position := .loading plan}
  | loaded (here : w.task.position = .loading []) :
      PumpMove plan w {w with task.position := .printRange}
  | load {fields later} (here : w.task.position = .loading (fields::later)) :
      PumpMove plan w {w with
        task := ⟨afterLoad later,w.statics.rangeData.loads w.task.args fields⟩
        marks := w.marks.sets w.calls fields}
  | printRound (here : w.task.position = .printRound) :
      PumpMove plan w {w with
        task.position := .clearing
        sent := w.sent ++ [⟨.roundResults w.statics.ranges,w.marks⟩]}
  | printRange (here : w.task.position = .printRange) :
      PumpMove plan w {w with
        task.position := .clearing
        sent := w.sent ++ [⟨.rangeResult w.task.args,w.marks⟩]}
  | clear (here : w.task.position = .clearing) :
      PumpMove plan w {w with
        statics.serialData := .serialNone
        task.position := .betweenTurns}

theorem pumpMove (plan : Plan) (w : World) : PumpMove plan w (pumpStep plan w) := by
  obtain ⟨⟨ranges,data,flag⟩,⟨position,args⟩,calls,marks,sent⟩ := w
  cases position with
  | betweenTurns =>
    cases flag with
    | serialNone => simpa [pumpStep,aux1DataPumpTask,marked] using PumpMove.idle rfl rfl
    | serialRoundResults => simpa [pumpStep,aux1DataPumpTask,marked] using PumpMove.readRound rfl rfl
    | serialRangeResult => simpa [pumpStep,aux1DataPumpTask,marked] using PumpMove.readRange rfl rfl
  | loading todo =>
    cases todo with
    | nil => simpa [pumpStep,aux1DataPumpTask,marked] using PumpMove.loaded rfl
    | cons fields later => simpa [pumpStep,aux1DataPumpTask,marked] using PumpMove.load rfl
  | printRound => simpa [pumpStep,aux1DataPumpTask,marked] using PumpMove.printRound rfl
  | printRange => simpa [pumpStep,aux1DataPumpTask,marked] using PumpMove.printRange rfl
  | clearing => simpa [pumpStep,aux1DataPumpTask,marked] using PumpMove.clear rfl

theorem stepCases {plan given w e t} (h : step plan given w e = some t) :
    e = .call ∧ t = callStep w (given w.calls) ∨ e = .pump ∧ t = pumpStep plan w := by
  cases e with
  | call => exact .inl ⟨rfl,(Option.some.inj h).symm⟩
  | pump => exact .inr ⟨rfl,(Option.some.inj h).symm⟩

end Fresknode.SerialPump
