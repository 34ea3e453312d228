import Fresknode.Chains
import Fresknode.Runs

/-! system_init.c, over base_subscription and the next fields of the callers' nodes. A
call that never returns, in osalSysHalt, in a sleep no tick ends or in a loop over a cycle
of nodes, has no result. `wakes` says by whether the tick is enabled whether a sleep ends. -/
namespace Fresknode.SystemInit
open Chains

inductive SystemState where
  | systemUninitialized
  | systemInitializing
  | systemRunning
  | systemTerminating
  | systemStopped
  deriving DecidableEq, Repr

def systemShutdownKey : UInt32 := 0xdeadbeef

structure Subscriptions (ν : Type) where
  baseSubscription : Option ν
  next : ν → Option ν

inductive Action (τ : Type) where
  | chThdTerminate (thread : τ)
  | chThdWait (thread : τ)
  | usbDisconnectBus
  | chThdSleepMilliseconds (time : Nat)
  | usbStart
  | usbConnectBus
  | usbStop
  | sduStop
  deriving DecidableEq, Repr

structure State (ν τ : Type) where
  systemState : SystemState
  shutdownRequested : Bool
  subs : Subscriptions ν
  thread : ν → τ
  systick : Bool

def coldStart {ν τ : Type} (next : ν → Option ν) (thread : ν → τ) : State ν τ :=
  ⟨.systemUninitialized,false,⟨none,next⟩,thread,true⟩

section Calls
variable {ν τ : Type} [Fintype ν] [DecidableEq ν]

def vSystemCriticalTaskSubscribe (s : Subscriptions ν) (sub : ν) : Option (Subscriptions ν) :=
  match s.baseSubscription with
  | none => some {s with baseSubscription := some sub}
  | some base =>
    (search s.next (Fintype.card ν) base).map fun tmpSub =>
      {s with next := Function.update (Function.update s.next tmpSub (some sub)) sub none}

def vSystemTerminateCriticalTasks (thread : ν → τ) (s : Subscriptions ν) :
    Option (Subscriptions ν × List (Action τ)) :=
  match s.baseSubscription with
  | none => some (s,[])
  | some base => do
    let signalled ← walk s.next (Fintype.card ν) (some base)
    let waited ← walk s.next (Fintype.card ν) (some base)
    some ({s with baseSubscription := none},
      signalled.map (fun n => .chThdTerminate (thread n)) ++
        waited.map (fun n => .chThdWait (thread n)))

def vSystemInitList (wakes : Bool → Bool) (s : State ν τ) : Option (List (Action τ)) :=
  if wakes s.systick then
    some [.usbDisconnectBus,.chThdSleepMilliseconds 500,.usbStart,.usbConnectBus]
  else none

def vSystemDeinitList : List (Action τ) := [.usbDisconnectBus,.usbStop,.sduStop]

def vSystemDisableSystick (s : State ν τ) : State ν τ := {s with systick := false}

def vSystemInit (wakes : Bool → Bool) (s : State ν τ) : Option (State ν τ × List (Action τ)) :=
  if s.systemState = .systemUninitialized ∨ s.systemState = .systemStopped then
    let s := {s with systemState := .systemInitializing}
    (vSystemInitList wakes s).map fun actions => ({s with systemState := .systemRunning},actions)
  else none

def vSystemDeinit (s : State ν τ) : Option (State ν τ × List (Action τ)) :=
  if s.systemState = .systemRunning then do
    let s := {s with systemState := .systemTerminating}
    let (subs,actions) ← vSystemTerminateCriticalTasks s.thread s.subs
    let s := vSystemDisableSystick {s with subs := subs}
    some ({s with systemState := .systemStopped},actions ++ vSystemDeinitList)
  else none

def bSystemShutdownRequested (s : State ν τ) : Bool := s.shutdownRequested

def vSystemRequestShutdown (s : State ν τ) (key : UInt32) : State ν τ :=
  if key = systemShutdownKey then {s with shutdownRequested := true} else s

end Calls

inductive Call (ν : Type) where
  | init
  | deinit
  | shutdownRequested
  | requestShutdown (key : UInt32)
  | subscribe (sub : ν)
  deriving DecidableEq, Repr

structure Answer (τ : Type) where
  actions : List (Action τ)
  value : Option Bool
  deriving DecidableEq, Repr

def call {ν τ : Type} [Fintype ν] [DecidableEq ν] (wakes : Bool → Bool) (s : State ν τ) :
    Call ν → Option (State ν τ × Answer τ)
  | .init => (vSystemInit wakes s).map fun r => (r.1,⟨r.2,none⟩)
  | .deinit => (vSystemDeinit s).map fun r => (r.1,⟨r.2,none⟩)
  | .shutdownRequested => some (s,⟨[],some (bSystemShutdownRequested s)⟩)
  | .requestShutdown key => some (vSystemRequestShutdown s key,⟨[],none⟩)
  | .subscribe sub =>
    (vSystemCriticalTaskSubscribe s.subs sub).map fun subs => ({s with subs := subs},⟨[],none⟩)

end Fresknode.SystemInit
