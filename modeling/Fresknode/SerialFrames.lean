import Fresknode.SerialHandover

/-! The frames of the pump whose three argument loads are steps of their own. A
call between two of them can give a frame no writer asked for; whether one does
is a matter of the order of steps alone, so the writers' arguments are quantified. -/
namespace Fresknode.SerialPump
open Runs

def Whole (given : Nat → RangeInfo) (w : World) : Prop :=
  ∀ s ∈ w.sent, ∀ d, s.frame = .rangeResult d → ∃ k, k < w.calls ∧ d = given k

def Unsplit (w : World) (e : Event) : Prop :=
  e = .pump → w.task.position = .printRange → ∀ f g, w.marks.get f = w.marks.get g

def Covers (plan : Plan) : Prop := ∀ f, f ∈ plan.flatten

theorem fieldLoadsCover : Covers fieldLoads := by
  intro f
  cases f <;> decide

structure Filled (w : World) : Prop where
  loading : ∀ todo, w.task.position = .loading todo → ∀ f, w.marks.get f = 0 → f ∈ todo.flatten
  printing : w.task.position = .printRange → ∀ f, w.marks.get f ≠ 0

theorem filledElsewhere {w : World} (notLoading : ∀ todo, w.task.position ≠ .loading todo)
    (notPrinting : w.task.position ≠ .printRange) : Filled w :=
  ⟨fun todo here => absurd here (notLoading todo),fun here => absurd here notPrinting⟩

theorem startFilled : Filled start := filledElsewhere (by simp [start]) (by simp [start])

theorem filledPump {plan given} {w t : World} (covers : Covers plan) (h : Sound given w)
    (filled : Filled w) (move : PumpMove plan w t) : Filled t := by
  cases move with
  | idle => exact filled
  | readRound => exact filledElsewhere (by simp) (by simp)
  | readRange =>
    refine ⟨?_,by simp⟩
    intro todo here f _
    cases here
    exact covers f
  | loaded here => exact ⟨by simp,fun _ f none => by simpa using filled.loading [] here f none⟩
  | @load fields later here =>
    have called := (h.pending (h.busy (by simp [here]))).1
    have rest : ∀ f, (w.marks.sets w.calls fields).get f = 0 → f ∈ later.flatten := by
      intro f none
      rw [setsGet] at none
      by_cases now : f ∈ fields
      · rw [if_pos now] at none
        omega
      · rw [if_neg now] at none
        have todo := filled.loading _ here f none
        rw [List.flatten_cons,List.mem_append] at todo
        exact todo.resolve_left now
    by_cases last : later = []
    · subst last
      exact ⟨by simp [afterLoad],fun _ f none => by simpa using rest f none⟩
    · refine ⟨?_,by simp [afterLoad,last]⟩
      intro todo at_ f none
      simp only [afterLoad,last,if_false,Position.loading.injEq] at at_
      subst todo
      exact rest f none
  | printRound => exact filledElsewhere (by simp) (by simp)
  | printRange => exact filledElsewhere (by simp) (by simp)
  | clear => exact filledElsewhere (by simp) (by simp)

theorem filledStep {plan given e} {w t : World} (covers : Covers plan) (h : Sound given w)
    (filled : Filled w) (taken : step plan given w e = some t) : Filled t := by
  rcases stepCases taken with ⟨_,rfl⟩ | ⟨_,rfl⟩
  · exact ⟨filled.loading,filled.printing⟩
  · exact filledPump covers h filled (pumpMove plan w)

theorem argsOfOneCall {given} {w : World} (h : Sound given w) (filled : Filled w)
    (here : w.task.position = .printRange) (same : ∀ f g, w.marks.get f = w.marks.get g) :
    ∃ k, k < w.calls ∧ w.task.args = given k := by
  have loadedOnce := filled.printing here .node
  have bound := h.bounded .node
  refine ⟨w.marks.get .node-1,by omega,equalOfAgree fun f => ?_⟩
  have got := h.loaded f (filled.printing here f)
  rwa [same f .node] at got

theorem wholeStep {plan given e} {w t : World} (h : Sound given w) (filled : Filled w)
    (whole : Whole given w) (unsplit : Unsplit w e) (taken : step plan given w e = some t) :
    Whole given t := by
  rcases stepCases taken with ⟨_,rfl⟩ | ⟨rfl,rfl⟩
  · intro s member d frame
    obtain ⟨k,bound,same⟩ := whole s member d frame
    exact ⟨k,Nat.lt_succ_of_lt bound,same⟩
  · generalize moved : pumpStep plan w = t
    have move : PumpMove plan w t := moved ▸ pumpMove plan w
    cases move with
    | printRound =>
      intro s member d frame
      rcases List.mem_append.mp member with old | new
      · exact whole s old d frame
      · cases List.mem_singleton.mp new
        cases frame
    | printRange here =>
      intro s member d frame
      rcases List.mem_append.mp member with old | new
      · exact whole s old d frame
      · cases List.mem_singleton.mp new
        cases frame
        have one := argsOfOneCall h filled here (unsplit rfl here)
        exact one
    | _ => exact whole

structure SameShape (w v : World) : Prop where
  position : w.task.position = v.task.position
  flag : w.statics.serialData = v.statics.serialData
  calls : w.calls = v.calls
  marks : w.marks = v.marks

theorem sameShapePump (plan : Plan) {w v : World} (same : SameShape w v) :
    SameShape (pumpStep plan w) (pumpStep plan v) := by
  obtain ⟨⟨_,_,flag⟩,⟨position,_⟩,calls,marks,_⟩ := w
  obtain ⟨⟨_,_,_⟩,⟨_,_⟩,_,_,_⟩ := v
  obtain ⟨samePosition,sameFlag,sameCalls,sameMarks⟩ := same
  dsimp only at samePosition sameFlag sameCalls sameMarks
  subst samePosition sameFlag sameCalls sameMarks
  cases position with
  | betweenTurns => cases flag <;> exact ⟨rfl,rfl,rfl,rfl⟩
  | loading todo => cases todo <;> exact ⟨rfl,rfl,rfl,rfl⟩
  | printRound => exact ⟨rfl,rfl,rfl,rfl⟩
  | printRange => exact ⟨rfl,rfl,rfl,rfl⟩
  | clearing => exact ⟨rfl,rfl,rfl,rfl⟩

theorem sameShapeStep {plan given other} (w v : World) (e : Event) (t : World)
    (same : SameShape w v) (taken : step plan given w e = some t) :
    ∃ u, step plan other v e = some u ∧ SameShape t u := by
  rcases stepCases taken with ⟨rfl,rfl⟩ | ⟨rfl,rfl⟩
  · exact ⟨_,rfl,⟨same.position,rfl,congrArg Nat.succ same.calls,same.marks⟩⟩
  · exact ⟨_,rfl,sameShapePump plan same⟩

def zerosThenOnes (count : Nat) (k : Nat) : RangeInfo := if k < count then ⟨0,0,0⟩ else ⟨1,1,1⟩

theorem zerosApartOnes (f : Field) :
    ¬ Agree ⟨0,0,0⟩ ⟨1,1,1⟩ f ∧ ¬ Agree ⟨1,1,1⟩ ⟨0,0,0⟩ f := by
  cases f <;> simp [Agree]

theorem splitArgsMixed {w : World} {f g : Field} (h : Sound (zerosThenOnes (w.marks.get g-1)) w)
    (filled : Filled w) (here : w.task.position = .printRange)
    (before : w.marks.get f < w.marks.get g) (k : Nat) :
    w.task.args ≠ zerosThenOnes (w.marks.get g-1) k := by
  intro same
  have first := filled.printing here f
  have zero := h.loaded f first
  have one := h.loaded g (filled.printing here g)
  rw [zerosThenOnes,if_pos (by omega)] at zero
  rw [zerosThenOnes,if_neg (by omega)] at one
  unfold zerosThenOnes at same
  split at same
  · rw [same] at one
    exact (zerosApartOnes g).1 one
  · rw [same] at zero
    exact (zerosApartOnes f).2 zero

def Reachable (given : Nat → RangeInfo) (w : World) : Prop := Sound given w ∧ Filled w

theorem fieldLoadsReachable {given} {es : List Event} {w : World}
    (reached : run (step fieldLoads given) start es = some w) : Reachable given w := by
  refine invariantRun ?_ (⟨startSound given,startFilled⟩ : Reachable given start) reached
  intro w e t h taken
  exact ⟨soundStep h.1 taken,filledStep fieldLoadsCover h.1 h.2 taken⟩

theorem splitTurnMixes {es : List Event} {given} {w : World} {f g : Field}
    (reached : run (step fieldLoads given) start es = some w)
    (here : w.task.position = .printRange) (before : w.marks.get f < w.marks.get g) :
    ∃ writers u, run (step fieldLoads writers) start (es ++ [.pump]) = some u ∧
      ¬ Whole writers u := by
  let writers := zerosThenOnes (w.marks.get g-1)
  have begins : SameShape start start := ⟨rfl,rfl,rfl,rfl⟩
  obtain ⟨v,again,same⟩ : ∃ v, run (step fieldLoads writers) start es = some v ∧ SameShape w v :=
    runRelated sameShapeStep begins reached
  have sound := fieldLoadsReachable again
  have printing := same.position ▸ here
  refine ⟨writers,pumpStep fieldLoads v,?_,?_⟩
  · rw [runAppend,again]
    rfl
  · intro whole
    have sent : (⟨.rangeResult v.task.args,v.marks⟩ : Sent) ∈ (pumpStep fieldLoads v).sent := by
      simp [pumpStep,aux1DataPumpTask,printing]
    obtain ⟨k,_,mixed⟩ := whole _ sent _ rfl
    simp only [writers] at sound mixed
    rw [same.marks] at sound mixed before
    exact splitArgsMixed sound.1 sound.2 printing before k mixed

/-- The order of steps alone decides: whatever the writers' arguments are, all frames
are whole, exactly when no call falls between the loads of a turn that prints. -/
theorem wholeFramesExact (es : List Event) :
    (∀ given, Always (step fieldLoads given) (Whole given) start es) ↔
      ∀ given, Along (step fieldLoads given) Unsplit start es := by
  constructor
  · intro whole given
    refine alongReached.mpr ?_
    intro early e late w t split reached _ pump here
    subst pump
    have never : ∀ f g, ¬ w.marks.get f < w.marks.get g := by
      intro f g before
      obtain ⟨writers,u,further,mixed⟩ := splitTurnMixes reached here before
      refine mixed (alwaysReached.mp (whole writers) (early ++ [.pump]) late u ?_ further)
      rw [split,List.append_assoc]
      rfl
    intro f g
    exact Nat.le_antisymm (Nat.not_lt.mp (never g f)) (Nat.not_lt.mp (never f g))
  · intro unsplit given
    have both : Always (step fieldLoads given) (fun w => Reachable given w ∧ Whole given w)
        start es := by
      refine guardedInvariant ?_ ⟨⟨startSound given,startFilled⟩,by simp [Whole,start]⟩
        (unsplit given)
      intro w e t h met taken
      exact ⟨⟨soundStep h.1.1 taken,filledStep fieldLoadsCover h.1.1 h.1.2 taken⟩,
        wholeStep h.1.1 h.1.2 h.2 met taken⟩
    exact alwaysMono (fun _ h => h.2) both

theorem splitFrameSent : ¬ ∀ given es, Always (step fieldLoads given) (Whole given) start es := by
  intro all
  let given : Nat → RangeInfo := fun k => if k = 0 then ⟨1,100,7⟩ else ⟨2,200,9⟩
  let es : List Event := [.call,.pump,.pump,.call,.pump,.pump,.pump]
  have last := alwaysReached.mp (all given es) es [] _ (by simp) rfl
  obtain ⟨k,_,mixed⟩ := last ⟨.rangeResult ⟨1,200,9⟩,⟨1,2,2⟩⟩ (by decide) _ rfl
  by_cases first : k = 0 <;> simp [given,first] at mixed

end Fresknode.SerialPump
