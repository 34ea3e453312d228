import Fresknode.SystemShutdown

/-! A shutdown that no late subscription disturbs comes to its end. It needs nothing but its
own steps and the exits of the threads it has told, at most one for each turn of its second
loop. -/
namespace Fresknode.SystemShutdown
open SystemInit Chains Runs

variable {ν τ : Type}

def Undisturbed : Event ν τ → Prop
  | .subscribe _ => False
  | _ => True

variable [DecidableEq τ]

def ahead (thread : ν → τ) (s : State ν τ) : Nat :=
  match s.position with
  | .entry => 9
  | .start | .signalled _ => 8
  | .signalling _ => 7
  | .again | .waited _ => 6
  | .waiting none => 4
  | .waiting (some n) => if thread n ∈ s.exited then 4 else 5
  | .clearing => 3
  | .returned => 0

def rank (thread : ν → τ) (s : State ν τ) : Nat :=
  3 * (2 * s.subscribed.length - s.log.length) + ahead thread s

theorem rankBound (thread : ν → τ) (s : State ν τ) :
    rank thread s ≤ 6 * s.subscribed.length + 9 := by
  have most : ahead thread s ≤ 9 := by
    unfold ahead
    split <;> try omega
    split <;> omega
  unfold rank
  omega

theorem waitingAhead (thread : ν → τ) (s : State ν τ) (tmpSub : Option ν) :
    ahead thread {s with position := .waiting tmpSub} ≤ 5 := by
  unfold ahead
  cases tmpSub with
  | none => exact Nat.le_succ 4
  | some n =>
    simp only
    split <;> omega

theorem turnShort {ν : Type} {subscribed front rest : List ν} {n : ν}
    (split : subscribed = front ++ rest) (here : some n = rest.head?) :
    front.length < subscribed.length := by
  obtain ⟨later,whole⟩ := turnAt split here
  rw [whole,List.length_append,List.length_cons]
  omega

omit [DecidableEq τ] in
theorem turnRoom {thread : ν → τ} {s : State ν τ} {n : ν} (h : Sound thread s)
    (turning : s.position = .signalling (some n) ∨ s.position = .waiting (some n)) :
    s.log.length < 2 * s.subscribed.length := by
  have asked := h.asked
  unfold Asked at asked
  rcases turning with here | here
  · rw [here] at asked
    obtain ⟨front,rest,split,at_,calls⟩ := asked
    have short := turnShort split at_
    rw [calls,List.length_map]
    omega
  · rw [here] at asked
    obtain ⟨front,rest,split,at_,calls⟩ := asked
    have short := turnShort split at_
    rw [calls,List.length_append,List.length_map,List.length_map]
    omega

theorem stepDescends {thread : ν → τ} {s : State ν τ} (h : Sound thread s)
    (running : s.position ≠ .returned) (free : ∀ n, s.position = .waiting (some n) → thread n ∈ s.exited) :
    ∃ t, vSystemTerminateCriticalTasksStep thread s = some t ∧ rank thread t < rank thread s := by
  unfold vSystemTerminateCriticalTasksStep
  cases here : s.position with
  | entry =>
    cases base : s.subs.baseSubscription with
    | none => exact ⟨_,rfl,by simp only [rank,ahead,here]; omega⟩
    | some b => exact ⟨_,rfl,by simp only [rank,ahead,here]; omega⟩
  | start => exact ⟨_,rfl,by simp only [rank,ahead,here]; omega⟩
  | signalling tmpSub =>
    cases tmpSub with
    | none => exact ⟨_,rfl,by simp only [rank,ahead,here]; omega⟩
    | some n =>
      have room := turnRoom h (.inl here)
      refine ⟨_,rfl,?_⟩
      simp only [rank,ahead,here,List.length_append,List.length_singleton]
      omega
  | signalled n => exact ⟨_,rfl,by simp only [rank,ahead,here]; omega⟩
  | again =>
    refine ⟨_,rfl,?_⟩
    have next := waitingAhead thread s s.subs.baseSubscription
    have now : ahead thread s = 6 := by simp only [ahead,here]
    simp only [rank,now]
    omega
  | waiting tmpSub =>
    cases tmpSub with
    | none => exact ⟨_,rfl,by simp only [rank,ahead,here]; omega⟩
    | some n =>
      have room := turnRoom h (.inr here)
      refine ⟨_,if_pos (free n here),?_⟩
      simp only [rank,ahead,here,if_pos (free n here),List.length_append,List.length_singleton]
      omega
  | waited n =>
    refine ⟨_,rfl,?_⟩
    have next := waitingAhead thread s (s.subs.next n)
    have now : ahead thread s = 6 := by simp only [ahead,here]
    simp only [rank,now]
    omega
  | clearing => exact ⟨_,rfl,by simp only [rank,ahead,here]; omega⟩
  | returned => exact absurd here running

variable [Fintype ν] [DecidableEq ν]

theorem exitDescends {thread : ν → τ} {s : State ν τ} (h : Sound thread s) {n : ν}
    (here : s.position = .waiting (some n)) (alive : thread n ∉ s.exited) :
    ∃ t, step thread s (.exits (thread n)) = some t ∧ rank thread t < rank thread s := by
  have told := (soundServed h).told n here
  refine ⟨_,if_pos told,?_⟩
  simp only [rank,ahead,here,if_neg alive,List.mem_cons_self,if_true]
  omega

structure Ending (thread : ν → τ) (subscribed : List ν) (s : State ν τ) : Prop where
  sound : Sound thread s
  same : s.subscribed = subscribed

theorem undisturbedEnding {thread : ν → τ} {subscribed : List ν} {s t : State ν τ} {e : Event ν τ}
    (h : Ending thread subscribed s) (calm : Undisturbed e) (taken : step thread s e = some t) :
    Ending thread subscribed t := by
  have quiet : ∀ sub, e ≠ .subscribe sub := by
    rintro sub rfl
    exact calm
  have inTime : InTime s e := by
    cases e with
    | subscribe => cases calm
    | shutdown => trivial
    | exits => trivial
  exact ⟨stepSound s e t h.sound inTime taken,(quietKeeps quiet taken).2.trans h.same⟩

/-- After any run with all subscriptions in time the shutdown can still end, and ends having
told and awaited every subscribed task, each once and in order. -/
theorem shutdownEnds (thread : ν → τ) {subs : Subscriptions ν} {subscribed : List ν}
    (listed : Chain subs.next subs.baseSubscription subscribed) (events : List (Event ν τ))
    (inTime : Along (step thread) InTime (atEntry subs subscribed) events) {s : State ν τ}
    (reached : run (step thread) (atEntry subs subscribed) events = some s) :
    ∃ es t, (∀ e ∈ es, Undisturbed e) ∧ es.length ≤ 6 * s.subscribed.length + 9 ∧
      run (step thread) s es = some t ∧ t.position = .returned ∧
        t.log = stopAll thread s.subscribed := by
  have sound := guardedRun stepSound (entrySound listed) inTime reached
  have descends : ∀ t, Ending thread s.subscribed t → ¬t.position = .returned →
      ∃ e u, Undisturbed e ∧ step thread t e = some u ∧ Ending thread s.subscribed u ∧
        rank thread u < rank thread t := by
    intro t h running
    by_cases blocked : ∃ n, t.position = .waiting (some n) ∧ thread n ∉ t.exited
    · obtain ⟨n,here,alive⟩ := blocked
      obtain ⟨u,taken,less⟩ := exitDescends h.sound here alive
      exact ⟨.exits (thread n),u,trivial,taken,undisturbedEnding h (e := .exits _) trivial taken,less⟩
    · have free : ∀ n, t.position = .waiting (some n) → thread n ∈ t.exited :=
        fun n here => Decidable.not_not.mp fun alive => blocked ⟨n,here,alive⟩
      obtain ⟨u,taken,less⟩ := stepDescends h.sound running free
      exact ⟨.shutdown,u,trivial,taken,undisturbedEnding h (e := .shutdown) trivial taken,less⟩
  obtain ⟨es,t,calm,short,last,ending,returned⟩ := reaches descends ⟨sound,rfl⟩
  refine ⟨es,t,calm,short.trans (rankBound thread s),last,returned,?_⟩
  have asked := ending.sound.asked
  unfold Asked at asked
  rw [returned,ending.same] at asked
  exact asked.1

theorem shutdownEndsTwo :
    let events : List (Event (Fin 2) (Fin 2)) := [.shutdown,.shutdown,.shutdown,.subscribe 1]
    ∃ s, run (step id) (atEntry ⟨some 0,fun _ => none⟩ [0]) events = some s ∧
      ∃ es t, (∀ e ∈ es, Undisturbed e) ∧ es.length ≤ 6 * s.subscribed.length + 9 ∧
        run (step id) s es = some t ∧ t.position = .returned ∧ t.log = stopAll id s.subscribed := by
  intro events
  have inTime : Along (step id) InTime (atEntry (⟨some 0,fun _ => none⟩ : Subscriptions (Fin 2)) [0])
      events := by
    refine (alongCons rfl).mpr ⟨trivial,(alongCons rfl).mpr ⟨trivial,?_⟩⟩
    exact (alongCons rfl).mpr ⟨trivial,(alongCons rfl).mpr ⟨by rfl,trivial⟩⟩
  exact ⟨_,rfl,shutdownEnds id (.node .null) events inTime rfl⟩

end Fresknode.SystemShutdown
