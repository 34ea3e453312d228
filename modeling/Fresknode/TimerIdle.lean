import Fresknode.TimerLog

/-! What a timer does while it is idle: the latest of its init, start and stop calls
was not a start. get_timer_us asks the running flag, which init_timer leaves alone,
and stop_timer asks nothing. Every measured interval counts, so each slip shows. -/
namespace Fresknode.Timer
open Runs

theorem sysclkMegahertz : stm32Sysclk / 1000000 = 144 := by decide

theorem usNat (ticks : UInt32) : (us ticks).toNat = (ticks - 1).toNat / 144 + 1 := by
  have small := (ticks - 1).toNat_lt
  simp only [us,rtc2us,sysclkMegahertz,UInt32.toNat_add,UInt32.toNat_div]
  change ((ticks - 1).toNat / 144 + 1) % 2 ^ 32 = _
  exact Nat.mod_eq_of_lt (by omega)

theorem sampleAdvances (time ticks : UInt32) : time + us ticks ≠ time := by
  intro same
  have sum := congrArg UInt32.toNat same
  have whole := usNat ticks
  have small := (ticks - 1).toNat_lt
  have bound := time.toNat_lt
  rw [UInt32.toNat_add] at sum
  omega

structure History where
  idle : Bool
  armed : Bool
  deriving DecidableEq, Repr

def History.next (h : History) : Op → History
  | .init => ⟨true,h.armed⟩
  | .start _ => ⟨false,true⟩
  | .getUs _ _ => h
  | .stop _ => ⟨true,false⟩

def historyStep (h : History) (op : Op) : Option History := some (h.next op)

def trackedStep (w : MyTimer × History) (op : Op) : Option (MyTimer × History) :=
  some ((apply op w.1).timer,w.2.next op)

def IdleKept (w : MyTimer × History) (op : Op) : Prop :=
  w.2.idle = true →
    match op with
    | .getUs _ _ => (apply op w.1).value = 0 ∧ (apply op w.1).timer = w.1
    | .stop _ => (apply op w.1).timer.accumulatedTime = w.1.accumulatedTime ∧
        (apply op w.1).timer.timevector = w.1.timevector
    | _ => True

def Orderly (h : History) (op : Op) : Prop :=
  h.idle = true →
    match op with
    | .getUs _ _ => h.armed = false
    | .stop _ => False
    | _ => True

structure Flagged (t : MyTimer) (h : History) : Prop where
  running : t.running = h.armed
  bounded : t.running = true → t.counter.toNat < 128

theorem flaggedNext {t : MyTimer} {h : History} (f : Flagged t h) (op : Op) :
    Flagged (apply op t).timer (h.next op) := by
  cases op with
  | init => exact ⟨f.running,fun _ => by simp [apply,initTimer]⟩
  | start now => exact ⟨rfl,fun _ => by simp [apply,startTimer]⟩
  | stop ticks => exact ⟨rfl,fun on => by simp [apply,stopTimer] at on⟩
  | getUs ticks now =>
    cases on : t.running with
    | false =>
      simp only [apply,getIdle on,History.next]
      exact f
    | true =>
      have inside := f.bounded on
      simp only [apply,getRunning on inside,History.next]
      refine ⟨on.symm.trans f.running,fun _ => ?_⟩
      rw [nextIndexNat t.counter inside]
      exact Nat.mod_lt _ (by decide)

theorem idleExactly {t : MyTimer} {h : History} (f : Flagged t h) (op : Op) :
    IdleKept (t,h) op ↔ Orderly h op := by
  refine imp_congr_right fun _ => ?_
  cases op with
  | init => exact Iff.rfl
  | start now => exact Iff.rfl
  | stop ticks =>
    constructor
    · intro kept
      have same : t.accumulatedTime + us ticks = t.accumulatedTime := by
        simpa [apply,stopTimer,us,chTMStopMeasurementX] using kept.1
      exact sampleAdvances t.accumulatedTime ticks same
    · exact False.elim
  | getUs ticks now =>
    rw [← f.running]
    cases on : t.running with
    | false => simp [apply,getIdle on]
    | true =>
      have inside := f.bounded on
      constructor
      · intro kept
        have same := congrArg MyTimer.accumulatedTime kept.2
        simp only [apply,getRunning on inside] at same
        exact absurd same (sampleAdvances t.accumulatedTime ticks)
      · intro off
        simp at off

theorem idleKeptExact (t : MyTimer) (ops : List Op) :
    Along trackedStep IdleKept ((initTimer t).timer,⟨true,t.running⟩) ops ↔
      Along historyStep Orderly ⟨true,t.running⟩ ops := by
  have begins : Flagged (initTimer t).timer ⟨true,t.running⟩ :=
    ⟨rfl,fun _ => by simp [initTimer]⟩
  refine alongMatched (R := fun (w : MyTimer × History) h => w.2 = h ∧ Flagged w.1 h)
    (fun _ _ _ _ => Iff.rfl) ?_ ⟨rfl,begins⟩ ops
  rintro ⟨t,_⟩ h op u k ⟨rfl,f⟩ taken counted
  cases Option.some.inj taken
  cases Option.some.inj counted
  exact ⟨idleExactly f op,fun _ => ⟨rfl,flaggedNext f op⟩⟩

theorem idleCallsCounted :
    ¬ Along trackedStep IdleKept
        ((initTimer ⟨⟨0⟩,0,Vector.replicate 128 0,0,true⟩).timer,⟨true,true⟩) [.getUs 144 0] ∧
      ¬ Along trackedStep IdleKept
        ((initTimer ⟨⟨0⟩,0,Vector.replicate 128 0,0,false⟩).timer,⟨true,false⟩)
        [.start 0,.stop 144,.stop 288] := by
  constructor
  · intro kept
    have sample := (kept _ rfl).1 rfl
    exact absurd sample.1 (by decide)
  · intro kept
    have second := (((kept _ rfl).2 _ rfl).2 _ rfl).1 rfl
    exact absurd second.1 (by decide)

end Fresknode.Timer
