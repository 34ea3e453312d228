import Fresknode.TimerTable

/-! What a start forgets. Two timers with whatever they held before report the same after
the same calls, and show the same table as long as the log is not overrun. -/
namespace Fresknode.Timer
open Runs

structure Alike (t u : MyTimer) : Prop where
  time : t.accumulatedTime = u.accumulatedTime
  counter : t.counter = u.counter
  running : t.running = u.running

theorem storeAlike {t u : MyTimer} (h : Alike t u) (index : Nat) (value : UInt32) :
    Alike (t.storeLog index value) (u.storeLog index value) := by
  unfold MyTimer.storeLog
  split
  · exact ⟨h.time,h.counter,h.running⟩
  · split
    · exact ⟨h.time,rfl,rfl⟩
    · exact h

def wrapped (t : MyTimer) : MyTimer :=
  let t := {t with counter := t.counter + 1}
  if t.counter ≥ 128 then {t with counter := 0} else t

theorem wrapAlike {t u : MyTimer} (h : Alike t u) : Alike (wrapped t) (wrapped u) := by
  simp only [wrapped,h.counter]
  split
  · exact ⟨h.time,rfl,h.running⟩
  · exact ⟨h.time,rfl,h.running⟩

theorem applyAlike {t u : MyTimer} (h : Alike t u) (op : Op) :
    Alike (apply op t).timer (apply op u).timer ∧ (apply op t).value = (apply op u).value := by
  obtain ⟨_,time,log,counter,running⟩ := t
  obtain ⟨_,_,other,_,_⟩ := u
  obtain ⟨sameTime,sameCounter,sameRunning⟩ := h
  simp only at sameTime sameCounter sameRunning
  subst sameTime sameCounter sameRunning
  cases op with
  | init => exact ⟨⟨rfl,rfl,rfl⟩,rfl⟩
  | start now => exact ⟨⟨by simp [apply,startTimer],rfl,rfl⟩,rfl⟩
  | getUs ticks now =>
    have alike : Alike ⟨⟨now⟩,time + us ticks,log,counter,running⟩
        ⟨⟨now⟩,time + us ticks,other,counter,running⟩ := ⟨rfl,rfl,rfl⟩
    have wrapped := wrapAlike (storeAlike alike counter.toNat (time + us ticks))
    simp only [apply,getTimerUs]
    split
    · exact ⟨⟨rfl,rfl,rfl⟩,rfl⟩
    · exact ⟨wrapped,wrapped.time⟩
  | stop ticks =>
    have alike : Alike ⟨⟨ticks⟩,time + us ticks,log,counter,running⟩
        ⟨⟨ticks⟩,time + us ticks,other,counter,running⟩ := ⟨rfl,rfl,rfl⟩
    obtain ⟨times,counters,_⟩ := storeAlike alike counter.toNat (time + us ticks)
    simp only [us] at times counters
    simp only [apply,stopTimer,chTMStopMeasurementX,counters]
    exact ⟨⟨times,rfl,rfl⟩,times⟩

theorem valuesAlike {t u : MyTimer} (h : Alike t u) (ops : List Op) : values t ops = values u ops := by
  induction ops generalizing t u with
  | nil => rfl
  | cons op ops ih =>
    obtain ⟨next,value⟩ := applyAlike h op
    simp only [values,value,ih next]

theorem startAlike (t u : MyTimer) (now later : UInt32) :
    Alike (startTimer now t).timer (startTimer later u).timer := by
  refine ⟨?_,rfl,rfl⟩
  simp [startTimer]

structure AlikeShown (t u : MyTimer) : Prop where
  alike : Alike t u
  shown : ∀ i < t.counter.toNat, t.fetchLog i = u.fetchLog i

theorem startShown (t u : MyTimer) (now later : UInt32) :
    AlikeShown (startTimer now t).timer (startTimer later u).timer := by
  refine ⟨startAlike t u now later,fun i below => ?_⟩
  have first : i = 0 := Nat.lt_one_iff.mp below
  have zero : ∀ now (t : MyTimer), (startTimer now t).timer.fetchLog 0 = some 0 := by
    intro now t
    simp [startTimer,logInside (show 0 < 128 by decide),MyTimer.fetchLog]
  rw [first,zero,zero]

theorem setShown {t u : MyTimer} (h : AlikeShown t u) (inside : t.counter.toNat < 128)
    (value : UInt32) {i : Nat} (below : i ≤ t.counter.toNat) :
    (t.timevector.set t.counter.toNat value inside)[i]? =
      (u.timevector.set u.counter.toNat value (h.alike.counter ▸ inside))[i]? := by
  rw [fetchSet,fetchSet,h.alike.counter]
  by_cases last : i = u.counter.toNat
  · rw [if_pos last,if_pos last]
  · rw [if_neg last,if_neg last]
    rw [← h.alike.counter] at last
    exact h.shown i (by omega)

theorem applyShown {t u : MyTimer} (h : AlikeShown t u) (op : Op) (inside : Inside t op) :
    AlikeShown (apply op t).timer (apply op u).timer := by
  refine ⟨(applyAlike h.alike op).1,?_⟩
  have same := h.alike.counter
  cases op with
  | init => exact fun i below => absurd below (Nat.not_lt_zero i)
  | start now => exact (startShown t u now now).shown
  | getUs ticks now =>
    cases on : t.running with
    | false =>
      simp only [apply,getIdle on,getIdle (h.alike.running ▸ on)]
      exact h.shown
    | true =>
      have stored : t.counter.toNat < 128 := by
        refine inside.1 _ ?_
        simp [apply,getTimerUs,on]
      simp only [apply,getRunning on stored,getRunning (h.alike.running ▸ on) (same ▸ stored)]
      intro i below
      have next := nextIndexNat t.counter stored
      change i < (nextIndex t.counter).toNat at below
      have shown := setShown h stored (t.accumulatedTime + us ticks) (i := i) (by omega)
      rw [h.alike.time] at shown
      simp only [MyTimer.fetchLog,h.alike.time]
      exact shown
  | stop ticks =>
    have stored : t.counter.toNat < 128 := inside.1 _ (List.mem_singleton.mpr rfl)
    simp only [apply,stopInside stored,stopInside (same ▸ stored)]
    intro i below
    have next := counterSucc t.counter stored
    change i < (t.counter + 1).toNat at below
    have shown := setShown h stored (t.accumulatedTime + us ticks) (i := i) (by omega)
    rw [h.alike.time] at shown
    simp only [MyTimer.fetchLog,h.alike.time]
    exact shown

theorem tableAlike {t u : MyTimer} (h : AlikeShown t u) : printTimex t = printTimex u := by
  unfold printTimex
  rw [← h.alike.counter]
  refine List.map_congr_left fun i member => ?_
  have below := List.mem_range.mp member
  have here := h.shown i below
  have before := h.shown (i-1) (by omega)
  unfold printRow
  rw [here,before]

theorem runShown {t u v w : MyTimer} {ops : List Op} (h : AlikeShown t u)
    (inside : Along step Inside t ops) (reached : run step t ops = some v)
    (reachedToo : run step u ops = some w) : AlikeShown v w := by
  induction ops generalizing t u with
  | nil =>
    cases Option.some.inj reached
    cases Option.some.inj reachedToo
    exact h
  | cons op ops ih =>
    obtain ⟨within,later⟩ := inside _ rfl
    exact ih (applyShown h op within) later reached reachedToo

theorem startForgets (t u : MyTimer) (now later : UInt32) (ops : List Op) :
    values t (.start now::ops) = values u (.start later::ops) ∧
      (Along step Inside t (.start now::ops) → ∀ v w, run step t (.start now::ops) = some v →
        run step u (.start later::ops) = some w → printTimex v = printTimex w) := by
  refine ⟨?_,fun inside v w reached reachedToo => ?_⟩
  · have rest := valuesAlike (startAlike t u now later) ops
    simp only [values,apply,rest]
    rfl
  · have within := (inside _ rfl).2
    have start := startShown t u now later
    exact tableAlike (runShown start within reached reachedToo)

instance (t : MyTimer) (op : Op) : Decidable (Inside t op) := inferInstanceAs (Decidable (_ ∧ _))

theorem startForgetsTwo :
    let blank : MyTimer := ⟨⟨0⟩,0,Vector.replicate 128 0,0,false⟩
    let used : MyTimer := ⟨⟨7⟩,9,Vector.replicate 128 5,3,true⟩
    ∀ v w, run step blank [.start 0,.getUs 144 1,.stop 288] = some v →
      run step used [.start 3,.getUs 144 1,.stop 288] = some w → printTimex v = printTimex w := by
  intro blank used
  refine (startForgets blank used 0 3 [.getUs 144 1,.stop 288]).2 ?_
  refine (alongCons rfl).mpr ⟨startInside 0 blank,?_⟩
  refine (alongCons rfl).mpr ⟨by decide +kernel,(alongCons rfl).mpr ⟨by decide +kernel,trivial⟩⟩

end Fresknode.Timer
