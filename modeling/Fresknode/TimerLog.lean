import Fresknode.TimerModel

/-! The log index of a timer as a count of calls. get_timer_us wraps the index,
stop_timer does not; stop after stop walks out of the log. -/
namespace Fresknode.Timer
open Runs

theorem logInside {t : MyTimer} {index : Nat} (inside : index < 128) (value : UInt32) :
    t.storeLog index value = {t with timevector := t.timevector.set index value inside} := by
  simp [MyTimer.storeLog,inside]

@[simp] theorem logTime (t : MyTimer) (index : Nat) (value : UInt32) :
    (t.storeLog index value).accumulatedTime = t.accumulatedTime := by
  unfold MyTimer.storeLog
  split
  · rfl
  · split <;> rfl

def us (ticks : UInt32) : UInt32 := rtc2us stm32Sysclk ticks

def nextIndex (counter : UInt8) : UInt8 := if counter + 1 ≥ 128 then 0 else counter + 1

theorem getIdle {t : MyTimer} (off : t.running = false) (ticks now : UInt32) :
    getTimerUs ticks now t = ⟨t,0,[]⟩ := by
  simp [getTimerUs,off]

theorem getRunning {t : MyTimer} (on : t.running = true) (inside : t.counter.toNat < 128)
    (ticks now : UInt32) :
    getTimerUs ticks now t =
      ⟨⟨⟨now⟩,t.accumulatedTime + us ticks,
        t.timevector.set t.counter.toNat (t.accumulatedTime + us ticks) inside,
        nextIndex t.counter,true⟩,t.accumulatedTime + us ticks,[t.counter.toNat]⟩ := by
  unfold getTimerUs
  rw [if_neg (by simp [on])]
  simp only [logInside inside,chTMStopMeasurementX,chTMStartMeasurementX,us,nextIndex]
  split <;> simp [on]

theorem stopInside {t : MyTimer} (inside : t.counter.toNat < 128) (ticks : UInt32) :
    stopTimer ticks t =
      ⟨⟨⟨ticks⟩,t.accumulatedTime + us ticks,
        t.timevector.set t.counter.toNat (t.accumulatedTime + us ticks) inside,
        t.counter + 1,false⟩,t.accumulatedTime + us ticks,[t.counter.toNat]⟩ := by
  simp only [stopTimer,logInside inside,chTMStopMeasurementX,us]

theorem counterSucc (counter : UInt8) (inside : counter.toNat < 128) :
    (counter + 1).toNat = counter.toNat + 1 := by
  rw [UInt8.toNat_add]
  exact Nat.mod_eq_of_lt (by simp; omega)

theorem nextIndexNat (counter : UInt8) (inside : counter.toNat < 128) :
    (nextIndex counter).toNat = (counter.toNat+1) % 128 := by
  have succ := counterSucc counter inside
  have full : counter + 1 ≥ 128 ↔ 128 ≤ counter.toNat + 1 := by
    rw [ge_iff_le,UInt8.le_iff_toNat_le,succ]
    rfl
  unfold nextIndex
  split
  · next high =>
    have := full.mp high
    have last : counter.toNat + 1 = 128 := by omega
    rw [last]
    rfl
  · next low =>
    have := mt full.mpr low
    rw [succ,Nat.mod_eq_of_lt (by omega)]

/- What the log index owes to the calls so far: the entries of the latest init_timer
or start_timer, the samples and stops since, and whether a start is still open. -/
structure Tally where
  base : Nat
  samples : Nat
  stops : Nat
  armed : Bool
  deriving DecidableEq, Repr

def Tally.next (y : Tally) : Op → Tally
  | .init => ⟨0,0,0,y.armed⟩
  | .start _ => ⟨1,0,0,true⟩
  | .getUs _ _ => if y.armed then {y with samples := y.samples+1} else y
  | .stop _ => {y with stops := y.stops+1, armed := false}

def Tally.Fits (y : Tally) : Prop := (y.base + y.samples) % 128 + y.stops ≤ 128

def tallyStep (y : Tally) (op : Op) : Option Tally := some (y.next op)

structure Matches (t : MyTimer) (y : Tally) : Prop where
  running : t.running = y.armed
  fresh : y.armed = true → y.stops = 0
  counter : t.counter.toNat = (y.base + y.samples) % 128 + y.stops
  fits : y.Fits

def Inside (t : MyTimer) (op : Op) : Prop :=
  (∀ i ∈ (apply op t).stores, i < 128) ∧ ∀ i ∈ printFetches (apply op t).timer, i < 128

theorem fetchesInside {t : MyTimer} (bound : t.counter.toNat ≤ 128) :
    ∀ i ∈ printFetches t, i < 128 := by
  intro i member
  obtain ⟨row,inRange,loads⟩ := List.mem_flatMap.mp member
  have below := List.mem_range.mp inRange
  have near : i ≤ row := by
    unfold rowFetches at loads
    split at loads <;> simp at loads <;> omega
  omega

theorem initMatches (t : MyTimer) (armed : Bool) (same : t.running = armed) :
    Matches (initTimer t).timer ⟨0,0,0,armed⟩ :=
  ⟨same,fun _ => rfl,rfl,by simp [Tally.Fits]⟩

theorem startMatches (now : UInt32) (t : MyTimer) : Matches (startTimer now t).timer ⟨1,0,0,true⟩ :=
  ⟨rfl,fun _ => rfl,rfl,by simp [Tally.Fits]⟩

theorem initInside (t : MyTimer) : Inside t .init :=
  ⟨fun _ member => List.mem_range.mp member,fetchesInside (by simp [apply,initTimer])⟩

theorem startInside (now : UInt32) (t : MyTimer) : Inside t (.start now) :=
  ⟨by simp [apply,startTimer],fetchesInside (by simp [apply,startTimer])⟩

theorem getMatches {t : MyTimer} {y : Tally} (h : Matches t y) (ticks now : UInt32) :
    Inside t (.getUs ticks now) ∧ Matches (getTimerUs ticks now t).timer (y.next (.getUs ticks now)) := by
  cases armed : y.armed with
  | false =>
    have off : t.running = false := h.running.trans armed
    have small : t.counter.toNat ≤ 128 := h.counter ▸ h.fits
    simp only [Inside,apply,getIdle off,Tally.next,armed]
    exact ⟨⟨by simp,fetchesInside small⟩,h⟩
  | true =>
    have on : t.running = true := h.running.trans armed
    have none := h.fresh armed
    have counter := h.counter
    rw [none,Nat.add_zero] at counter
    have inside : t.counter.toNat < 128 := by omega
    have index := nextIndexNat t.counter inside
    simp only [Inside,apply,getRunning on inside,Tally.next,armed,if_true]
    refine ⟨⟨by simpa using inside,fetchesInside (by rw [index]; omega)⟩,?_⟩
    refine ⟨rfl,fun _ => none,?_,?_⟩
    · change (nextIndex t.counter).toNat = (y.base + (y.samples+1)) % 128 + y.stops
      omega
    · change (y.base + (y.samples+1)) % 128 + y.stops ≤ 128
      omega

theorem stopMatches {t : MyTimer} {y : Tally} (h : Matches t y) (ticks : UInt32) :
    (Inside t (.stop ticks) ↔ (y.next (.stop ticks)).Fits) ∧
      (Inside t (.stop ticks) → Matches (stopTimer ticks t).timer (y.next (.stop ticks))) := by
  have counter := h.counter
  have room : (y.next (.stop ticks)).Fits ↔ t.counter.toNat < 128 := by
    simp only [Tally.Fits,Tally.next]
    omega
  have stored : Inside t (.stop ticks) → t.counter.toNat < 128 :=
    fun inside => inside.1 _ (List.mem_singleton.mpr rfl)
  refine ⟨⟨fun inside => room.mpr (stored inside),fun fits => ?_⟩,fun inside => ?_⟩
  · have small := room.mp fits
    have succ := counterSucc t.counter small
    simp only [Inside,apply,stopInside small]
    exact ⟨by simpa using small,fetchesInside (by rw [succ]; omega)⟩
  · have small := stored inside
    have succ := counterSucc t.counter small
    rw [stopInside small]
    refine ⟨rfl,by simp [Tally.next],?_,room.mpr small⟩
    change (t.counter + 1).toNat = (y.base + y.samples) % 128 + (y.stops+1)
    omega

theorem opMatches {t : MyTimer} {y : Tally} (h : Matches t y) (op : Op) :
    (Inside t op ↔ (y.next op).Fits) ∧ (Inside t op → Matches (apply op t).timer (y.next op)) := by
  cases op with
  | init =>
    have next := initMatches t y.armed h.running
    exact ⟨iff_of_true (initInside t) next.fits,fun _ => next⟩
  | start now =>
    have next := startMatches now t
    exact ⟨iff_of_true (startInside now t) next.fits,fun _ => next⟩
  | getUs ticks now =>
    obtain ⟨inside,next⟩ := getMatches h ticks now
    exact ⟨iff_of_true inside next.fits,fun _ => next⟩
  | stop ticks => exact stopMatches h ticks

/-- Along every run that begins with init_timer, the log is accessed inside its 128
slots exactly as long as the stops since the latest init or start fit behind the samples. -/
theorem logAccessExact (t : MyTimer) (ops : List Op) :
    Along step Inside t (.init::ops) ↔
      Along tallyStep (fun y op => (y.next op).Fits) ⟨0,0,0,t.running⟩ ops := by
  have rest : Along step Inside (initTimer t).timer ops ↔
      Along tallyStep (fun y op => (y.next op).Fits) ⟨0,0,0,t.running⟩ ops := by
    refine alongMatched (R := Matches) (fun _ _ _ _ => Iff.rfl) ?_ (initMatches t t.running rfl) ops
    intro t y op u z h taken counted
    cases Option.some.inj taken
    cases Option.some.inj counted
    exact opMatches h op
  rw [← rest]
  constructor
  · exact fun h => (h _ rfl).2
  · intro h u taken
    cases Option.some.inj taken
    exact ⟨initInside t,h⟩

theorem stopsCount (n : Nat) (t : MyTimer) (room : t.counter.toNat + n ≤ 128) :
    ∃ u, run step t (List.replicate n (.stop 1)) = some u ∧
      u.counter.toNat = t.counter.toNat + n := by
  induction n generalizing t with
  | zero => exact ⟨t,rfl,rfl⟩
  | succ n ih =>
    have small : t.counter.toNat < 128 := by omega
    have next : (stopTimer 1 t).timer.counter.toNat = t.counter.toNat + 1 := by
      rw [stopInside small]
      exact counterSucc t.counter small
    obtain ⟨u,reached,count⟩ := ih (stopTimer 1 t).timer (by omega)
    exact ⟨u,runCons.mpr ⟨_,rfl,reached⟩,by omega⟩

theorem fullLogOverrun {t : MyTimer} (full : t.counter.toNat = 128) (ticks : UInt32) :
    ¬ Inside t (.stop ticks) := by
  intro inside
  have small := inside.1 t.counter.toNat (List.mem_singleton.mpr rfl)
  omega

theorem stopsOverrunLog : ¬ ∀ t ops, Along step Inside t (.init::ops) := by
  intro all
  let blank : MyTimer := ⟨⟨0⟩,0,Vector.replicate 128 0,0,false⟩
  have empty : (initTimer blank).timer.counter.toNat = 0 := rfl
  obtain ⟨u,reached,count⟩ := stopsCount 128 (initTimer blank).timer (by omega)
  generalize List.replicate 128 (Op.stop 1) = stops at reached
  have rest := (all blank (stops ++ [.stop 1]) _ rfl).2
  have last := alongReached.mp rest stops (.stop 1) [] u _ rfl reached rfl
  exact fullLogOverrun (by omega) 1 last

end Fresknode.Timer
