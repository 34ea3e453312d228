import Fresknode.SerialFrames
import Fresknode.SerialStream
import Mathlib.Data.List.Perm.Subperm

/-! What the line carries over a whole run. Frames are range reports in the order of the
calls, none without a call and none twice, also to a listener who has only the bytes, and
once the callers pause the pump comes to rest with the last report out. -/
namespace Fresknode.SerialPump
open Runs TextStreams

def Ahead (w : World) (f : Field) : Prop := ∀ s ∈ w.sent, s.marks.get f < w.marks.get f

def Due (w : World) : Prop := ∀ s ∈ w.sent, ∀ f, s.marks.get f < w.calls

def Before (a b : Sent) : Prop := ∀ f, a.marks.get f < b.marks.get f

def OfCalls (given : Nat → RangeInfo) (w : World) (s : Sent) : Prop :=
  ∃ d, s.frame = .rangeResult d ∧ ∀ f, 1 ≤ s.marks.get f ∧ s.marks.get f ≤ w.calls ∧
    Agree d (given (s.marks.get f-1)) f

theorem loadsOn {later : Plan} (more : later ≠ []) : afterLoad later = .loading later := if_neg more

theorem leftOut {fields : List Field} {later : Plan} {f : Field} (apart : f ∉ fields)
    (left : f ∉ later.flatten) : f ∉ (fields::later).flatten := by
  rw [List.flatten_cons,List.mem_append]
  exact not_or_intro apart left

structure Fresh (given : Nat → RangeInfo) (w : World) : Prop where
  increasing : w.sent.Pairwise Before
  loaded : ∀ s ∈ w.sent, OfCalls given w s
  waiting : w.task.position = .betweenTurns → w.statics.serialData = .serialRangeResult → Due w
  loading : ∀ todo, w.task.position = .loading todo → Due w ∧ ∀ f, f ∉ todo.flatten → Ahead w f
  printing : w.task.position = .printRange → ∀ f, Ahead w f

theorem startFresh (given : Nat → RangeInfo) : Fresh given start :=
  ⟨.nil,nofun,nofun,nofun,nofun⟩

theorem freshCall {given} {w : World} (h : Sound given w) (fresh : Fresh given w) :
    Fresh given (callStep w (given w.calls)) := by
  have later : ∀ s ∈ w.sent, ∀ f, s.marks.get f < w.calls+1 :=
    fun s member f => Nat.lt_succ_of_le (Nat.le_trans (h.earlier s member f) (h.bounded f))
  refine ⟨fresh.increasing,fun s member => ?_,fun _ _ => later,fun todo here => ?_,fresh.printing⟩
  · obtain ⟨d,frame,each⟩ := fresh.loaded s member
    exact ⟨d,frame,fun f => ⟨(each f).1,Nat.le_succ_of_le (each f).2.1,(each f).2.2⟩⟩
  · exact ⟨later,(fresh.loading todo here).2⟩

theorem printedFresh {given} {w : World} (h : Sound given w) (filled : Filled w)
    (here : w.task.position = .printRange) (fresh : Fresh given w) :
    (w.sent ++ [(⟨.rangeResult w.task.args,w.marks⟩ : Sent)]).Pairwise Before ∧
      OfCalls given w ⟨.rangeResult w.task.args,w.marks⟩ := by
  refine ⟨List.pairwise_append.mpr ⟨fresh.increasing,List.pairwise_singleton _ _,?_⟩,_,rfl,fun f => ?_⟩
  · intro s member new last f
    cases List.mem_singleton.mp last
    exact fresh.printing here f s member
  · have loadedOnce := filled.printing here f
    exact ⟨Nat.pos_of_ne_zero loadedOnce,h.bounded f,h.loaded f loadedOnce⟩

theorem freshPump {plan given} {w t : World} (covers : Covers plan) (h : Sound given w)
    (filled : Filled w) (fresh : Fresh given w) (move : PumpMove plan w t) : Fresh given t := by
  cases move with
  | idle => exact fresh
  | readRound _ flag => exact absurd flag h.noRound
  | readRange here flag =>
    refine ⟨fresh.increasing,fresh.loaded,by simp,fun todo at_ => ?_,by simp⟩
    cases at_
    exact ⟨fresh.waiting here flag,fun f left => absurd (covers f) left⟩
  | loaded here =>
    exact ⟨fresh.increasing,fresh.loaded,by simp,by simp,fun _ f => (fresh.loading [] here).2 f (by simp)⟩
  | @load fields later here =>
    obtain ⟨due,ahead⟩ := fresh.loading _ here
    have next : ∀ f, f ∉ later.flatten → ∀ s ∈ w.sent,
        s.marks.get f < (w.marks.sets w.calls fields).get f := by
      intro f left s member
      rw [setsGet]
      split
      · exact due s member f
      · rename_i apart
        exact ahead f (leftOut apart left) s member
    by_cases last : later = []
    · subst last
      have goesOn : afterLoad [] = .printRange := rfl
      rw [goesOn]
      exact ⟨fresh.increasing,fresh.loaded,by simp,by simp,fun _ f => next f (by simp)⟩
    · rw [loadsOn last]
      refine ⟨fresh.increasing,fresh.loaded,by simp,fun todo at_ => ?_,by simp⟩
      cases at_
      exact ⟨due,next⟩
  | printRound here => exact absurd here h.notRound
  | printRange here =>
    obtain ⟨ordered,ofCalls⟩ := printedFresh h filled here fresh
    refine ⟨ordered,fun s member => ?_,by simp,by simp,by simp⟩
    rcases List.mem_append.mp member with old | new
    · exact fresh.loaded s old
    · cases List.mem_singleton.mp new
      exact ofCalls
  | clear => exact ⟨fresh.increasing,fresh.loaded,by simp,by simp,by simp⟩

structure Turning (given : Nat → RangeInfo) (w : World) : Prop where
  sound : Sound given w
  filled : Filled w
  fresh : Fresh given w

theorem startTurning (given : Nat → RangeInfo) : Turning given start :=
  ⟨startSound given,startFilled,startFresh given⟩

theorem stepTurning {plan given} (covers : Covers plan) (w : World) (e : Event) (t : World)
    (h : Turning given w) (taken : step plan given w e = some t) : Turning given t := by
  refine ⟨soundStep h.sound taken,filledStep covers h.sound h.filled taken,?_⟩
  rcases stepCases taken with ⟨_,rfl⟩ | ⟨_,rfl⟩
  · exact freshCall h.sound h.fresh
  · exact freshPump covers h.sound h.filled h.fresh (pumpMove plan w)

/- Every frame's fields were each loaded after a call of their own, later ones than those
of the frame before. -/
structure Reports (given : Nat → RangeInfo) (w : World) : Prop where
  ordered : w.sent.Pairwise Before
  ofCalls : ∀ s ∈ w.sent, OfCalls given w s
  fewer : w.sent.length ≤ w.calls

theorem increasingFewer {given} {w : World} (ordered : w.sent.Pairwise Before)
    (ofCalls : ∀ s ∈ w.sent, OfCalls given w s) : w.sent.length ≤ w.calls := by
  have once : (w.sent.map (·.marks.node)).Nodup :=
    List.pairwise_map.mpr (ordered.imp fun before => Nat.ne_of_lt (before .node))
  have counted : w.sent.map (·.marks.node) ⊆ List.range' 1 w.calls := by
    intro k member
    obtain ⟨s,inside,rfl⟩ := List.mem_map.mp member
    obtain ⟨_,_,each⟩ := ofCalls s inside
    have bounds := each .node
    change 1 ≤ s.marks.node ∧ s.marks.node ≤ w.calls ∧ _ at bounds
    rw [List.mem_range'_1]
    omega
  have bound := (List.subperm_of_subset once counted).length_le
  rwa [List.length_map,List.length_range'] at bound

theorem turningReports {given} {w : World} (h : Turning given w) : Reports given w :=
  ⟨h.fresh.increasing,h.fresh.loaded,increasingFewer h.fresh.increasing h.fresh.loaded⟩

theorem reportsAlways {plan : Plan} (covers : Covers plan) (given : Nat → RangeInfo) (es : List Event) :
    Always (step plan given) (Reports given) start es :=
  alwaysMono (fun _ => turningReports) (invariant (stepTurning covers) (startTurning given) es)

theorem reportsAlwaysSplit :
    let given : Nat → RangeInfo := fun k => if k = 0 then ⟨1,100,7⟩ else ⟨2,200,9⟩
    Always (step fieldLoads given) (Reports given) start
      [.call,.pump,.pump,.call,.pump,.pump,.pump,.pump,.call,.pump] :=
  reportsAlways fieldLoadsCover _ _

def line (w : World) : List UInt8 := stream frameBytes (w.sent.map Sent.frame)

def Readable (given : Nat → RangeInfo) (w : World) : Prop :=
  ∀ heard rest, line w = stream frameBytes heard ++ rest → heard.length ≤ w.calls ∧
    ∃ first, first <+: w.sent ∧ first.map Sent.frame = heard ∧ first.Pairwise Before ∧
      ∀ s ∈ first, OfCalls given w s

theorem reportsReadable {given} {w : World} (h : Reports given w) : Readable given w := by
  intro heard rest same
  have read := streamPrefix framesFree frameNonempty same
  obtain ⟨first,begins,rfl⟩ := List.prefix_map_iff.mp read
  refine ⟨?_,first,begins,rfl,h.ordered.sublist begins.sublist,fun s member => ?_⟩
  · rw [List.length_map]
    exact begins.length_le.trans h.fewer
  · exact h.ofCalls s (begins.subset member)

theorem lineReadable {plan : Plan} (covers : Covers plan) (given : Nat → RangeInfo) (es : List Event) :
    Always (step plan given) (Readable given) start es :=
  alwaysMono (fun _ h => reportsReadable (turningReports h))
    (invariant (stepTurning covers) (startTurning given) es)

theorem lineReadableSplit :
    let given : Nat → RangeInfo := fun k => if k = 0 then ⟨1,100,7⟩ else ⟨2,200,9⟩
    Always (step fieldLoads given) (Readable given) start
      [.call,.pump,.pump,.call,.pump,.pump,.pump,.pump,.call,.pump] :=
  lineReadable fieldLoadsCover _ _

def stepsLeft (plan : Plan) (w : World) : Nat :=
  match w.task.position with
  | .betweenTurns => if w.statics.serialData = .serialNone then 0 else plan.length+4
  | .loading todo => todo.length+3
  | .printRound | .printRange => 2
  | .clearing => 1

def Short (plan : Plan) (w : World) : Prop :=
  ∀ todo, w.task.position = .loading todo → todo.length ≤ plan.length

theorem stepShort {plan given} (w : World) (e : Event) (t : World) (h : Short plan w)
    (taken : step plan given w e = some t) : Short plan t := by
  rcases stepCases taken with ⟨_,rfl⟩ | ⟨_,rfl⟩
  · exact h
  · generalize moved : pumpStep plan w = t
    have move : PumpMove plan w t := moved ▸ pumpMove plan w
    cases move with
    | idle => exact h
    | readRange =>
      intro todo here
      cases here
      exact Nat.le_refl _
    | @load fields later here =>
      intro todo at_
      have whole := h _ here
      simp only [List.length_cons] at whole
      simp only [afterLoad] at at_
      split at at_ <;> cases at_
      omega
    | readRound =>
      intro todo here
      cases here
    | loaded =>
      intro todo here
      cases here
    | printRound =>
      intro todo here
      cases here
    | printRange =>
      intro todo here
      cases here
    | clear =>
      intro todo here
      cases here

theorem stepsBounded {plan : Plan} {w : World} (h : Short plan w) : stepsLeft plan w ≤ plan.length+4 := by
  unfold stepsLeft
  split
  · split <;> omega
  · next todo here =>
    have bound := h todo here
    omega
  all_goals omega

structure Carries (given : Nat → RangeInfo) (sent : List Sent) (w : World) : Prop where
  waiting : w.task.position = .betweenTurns → w.statics.serialData ≠ .serialNone → w.sent = sent
  loading : ∀ todo, w.task.position = .loading todo → w.sent = sent ∧
    ∀ f, f ∉ todo.flatten → w.marks.get f = w.calls
  printing : w.task.position = .printRange → w.sent = sent ∧ ∀ f, w.marks.get f = w.calls
  carried : w.task.position = .clearing ∨ w.statics.serialData = .serialNone →
    ∃ s, w.sent = sent ++ [s] ∧ s.frame = .rangeResult (given (w.calls-1)) ∧
      ∀ f, s.marks.get f = w.calls

theorem unended {p : Position} {flag : SerialType} (turning : p ≠ .clearing)
    (asked : flag = .serialRangeResult) : ¬(p = .clearing ∨ flag = .serialNone) := by
  rintro (ended | ended)
  · exact turning ended
  · exact absurd (asked.symm.trans ended) nofun

theorem pumpCarries {plan given} {sent : List Sent} {w t : World} (covers : Covers plan)
    (h : Sound given w) (carries : Carries given sent w) (move : PumpMove plan w t) :
    Carries given sent t := by
  cases move with
  | idle => exact carries
  | readRound _ flag => exact absurd flag h.noRound
  | readRange here flag =>
    refine ⟨by simp,fun todo at_ => ?_,by simp,fun ended => absurd ended (unended (by simp) flag)⟩
    cases at_
    exact ⟨carries.waiting here (by simp [flag]),fun f left => absurd (covers f) left⟩
  | loaded here =>
    have flag := h.busy (by simp [here])
    obtain ⟨same,marks⟩ := carries.loading [] here
    exact ⟨by simp,by simp,fun _ => ⟨same,fun f => marks f (by simp)⟩,
      fun ended => absurd ended (unended (by simp) flag)⟩
  | @load fields later here =>
    have flag := h.busy (by simp [here])
    obtain ⟨same,marks⟩ := carries.loading _ here
    have next : ∀ f, f ∉ later.flatten → (w.marks.sets w.calls fields).get f = w.calls := by
      intro f left
      rw [setsGet]
      split
      · rfl
      · rename_i apart
        exact marks f (leftOut apart left)
    by_cases last : later = []
    · subst last
      have goesOn : afterLoad [] = .printRange := rfl
      rw [goesOn]
      exact ⟨by simp,by simp,fun _ => ⟨same,fun f => next f (by simp)⟩,
        fun ended => absurd ended (unended (by simp) flag)⟩
    · rw [loadsOn last]
      refine ⟨by simp,fun todo at_ => ?_,by simp,fun ended => absurd ended (unended (by simp) flag)⟩
      cases at_
      exact ⟨same,next⟩
  | printRound here => exact absurd here h.notRound
  | printRange here =>
    have called := (h.pending (h.busy (by simp [here]))).1
    obtain ⟨same,marks⟩ := carries.printing here
    refine ⟨by simp,by simp,by simp,fun _ => ⟨⟨_,w.marks⟩,by rw [same],?_,marks⟩⟩
    refine congrArg Frame.rangeResult (equalOfAgree fun f => ?_)
    have got := h.loaded f (by rw [marks f]; omega)
    rwa [marks f] at got
  | clear here =>
    exact ⟨fun _ flag => absurd rfl flag,by simp,by simp,fun _ => carries.carried (.inl here)⟩

def Resting (w : World) : Prop :=
  w.task.position = .betweenTurns ∧ w.statics.serialData = .serialNone

instance (w : World) : Decidable (Resting w) := inferInstanceAs (Decidable (_ ∧ _))

theorem pumpDescends {plan given} {w : World} (h : Sound given w) (busy : ¬Resting w) :
    stepsLeft plan (pumpStep plan w) < stepsLeft plan w := by
  generalize moved : pumpStep plan w = t
  have move : PumpMove plan w t := moved ▸ pumpMove plan w
  cases move with
  | idle here flag => exact absurd ⟨here,flag⟩ busy
  | readRound _ flag => exact absurd flag h.noRound
  | readRange here flag =>
    simp only [stepsLeft,here,flag,reduceCtorEq,if_false]
    omega
  | loaded here =>
    simp only [stepsLeft,here]
    omega
  | @load fields later here =>
    simp only [stepsLeft,here,afterLoad,List.length_cons]
    split
    · next at_ => split at at_ <;> cases at_
    · next todo at_ => split at at_ <;> cases at_; omega
    all_goals omega
  | printRound here => exact absurd here h.notRound
  | printRange here =>
    simp only [stepsLeft,here]
    omega
  | clear here =>
    simp only [stepsLeft,here,if_true]
    omega

def Pending (w : World) : Prop :=
  w.task.position = .betweenTurns ∧ w.statics.serialData = .serialRangeResult

theorem pendingCarries (given : Nat → RangeInfo) {w : World} (pending : Pending w) :
    Carries given w.sent w := by
  obtain ⟨here,flag⟩ := pending
  refine ⟨fun _ _ => rfl,?_,?_,fun ended => absurd ended (unended (by rw [here]; exact nofun) flag)⟩
  · intro todo at_
    rw [here] at at_
    contradiction
  · intro at_
    rw [here] at at_
    contradiction

/-- The pump drains: when no call comes any more it is at rest after a turn, and a report
that it had not begun with is then the last frame, whole. -/
theorem pumpDrains {plan : Plan} (covers : Covers plan) {given : Nat → RangeInfo} {es : List Event}
    {w : World} (reached : run (step plan given) start es = some w) :
    ∃ n v, n ≤ plan.length+4 ∧ run (step plan given) w (List.replicate n .pump) = some v ∧
      Resting v ∧ v.calls = w.calls ∧ (Pending w → ∃ s, v.sent = w.sent ++ [s] ∧
        s.frame = .rangeResult (given (w.calls-1)) ∧ s.loadedAfter w.calls) := by
  have turning : Turning given w := invariantRun (stepTurning covers) (startTurning given) reached
  have none : Short plan start := fun _ here => by cases here
  have short : Short plan w := invariantRun stepShort none reached
  let Kept : World → Prop := fun v => Sound given v ∧ v.calls = w.calls ∧
    (Pending w → Carries given w.sent v)
  have descends : ∀ v, Kept v → ¬Resting v → ∃ e t, e = Event.pump ∧
      step plan given v e = some t ∧ Kept t ∧ stepsLeft plan t < stepsLeft plan v := by
    intro v kept busy
    refine ⟨.pump,pumpStep plan v,rfl,rfl,⟨?_,kept.2.1,fun pending => ?_⟩,pumpDescends kept.1 busy⟩
    · exact soundPump kept.1 (pumpMove plan v)
    · exact pumpCarries covers kept.1 (kept.2.2 pending) (pumpMove plan v)
  obtain ⟨quiet,v,pumps,length,drained,⟨_,calls,carries⟩,resting⟩ :=
    reaches descends (⟨turning.sound,rfl,pendingCarries given⟩ : Kept w)
  refine ⟨quiet.length,v,Nat.le_trans length (stepsBounded short),?_,resting,calls,fun pending => ?_⟩
  · rw [← List.eq_replicate_iff.mpr ⟨rfl,pumps⟩]
    exact drained
  · obtain ⟨s,sent,frame,marks⟩ := (carries pending).carried (.inr resting.2)
    rw [calls] at frame marks
    exact ⟨s,sent,frame,fun f => Nat.le_of_eq (marks f).symm⟩

theorem pumpDrainsTwo :
    let given : Nat → RangeInfo := fun k => if k = 0 then ⟨1,100,7⟩ else ⟨2,200,9⟩
    ∃ w, run (step fieldLoads given) start [.call,.call] = some w ∧ Pending w ∧
      ∃ n v, n ≤ 7 ∧ run (step fieldLoads given) w (List.replicate n .pump) = some v ∧
        Resting v ∧ v.calls = w.calls ∧ (Pending w → ∃ s, v.sent = w.sent ++ [s] ∧
          s.frame = .rangeResult (given (w.calls-1)) ∧ s.loadedAfter w.calls) := by
  intro given
  have reached : run (step fieldLoads given) start [.call,.call] =
      some (callStep (callStep start (given 0)) (given 1)) := rfl
  exact ⟨_,reached,⟨rfl,rfl⟩,pumpDrains fieldLoadsCover reached⟩

end Fresknode.SerialPump
