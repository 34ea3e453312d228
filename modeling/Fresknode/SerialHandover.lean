import Fresknode.SerialPump

/-! The hand-over of a report from its writer to the pump. What the argument
registers hold is tied to the call they were loaded after, field by field. A
report is lost where a call falls between the pump's loads and the store of
SERIAL_NONE that ends the turn. -/
namespace Fresknode.SerialPump
open Runs

def Agree (a b : RangeInfo) : Field → Prop
  | .node => a.node = b.node
  | .range => a.range = b.range
  | .rssi => a.rssi = b.rssi

theorem agreeRefl (a : RangeInfo) (f : Field) : Agree a a f := by cases f <;> rfl

theorem equalOfAgree {a b : RangeInfo} (h : ∀ f, Agree a b f) : a = b := by
  obtain ⟨n,r,s⟩ := a
  obtain ⟨m,q,t⟩ := b
  have hn : n = m := h .node
  have hr : r = q := h .range
  have hs : s = t := h .rssi
  rw [hn,hr,hs]

theorem setGet (count : Nat) (m : Marks) (g f : Field) :
    (m.set count g).get f = if f = g then count else m.get f := by
  cases g <;> cases f <;> rfl

theorem setsGet (count : Nat) (fields : List Field) (m : Marks) (f : Field) :
    (m.sets count fields).get f = if f ∈ fields then count else m.get f := by
  induction fields generalizing m with
  | nil => rfl
  | cons g rest ih =>
    change ((m.set count g).sets count rest).get f = _
    rw [ih,setGet]
    by_cases inside : f ∈ rest <;> by_cases same : f = g <;> simp [inside,same]

theorem loadAgree (memory args : RangeInfo) (g f : Field) :
    Agree (memory.load args g) (if f = g then memory else args) f := by
  cases g <;> cases f <;> rfl

theorem loadsAgree (memory : RangeInfo) (fields : List Field) (args : RangeInfo) (f : Field) :
    Agree (memory.loads args fields) (if f ∈ fields then memory else args) f := by
  induction fields generalizing args with
  | nil => exact agreeRefl args f
  | cons g rest ih =>
    change Agree (memory.loads (memory.load args g) rest) _ f
    have tail := ih (memory.load args g)
    have head := loadAgree memory args g f
    by_cases inside : f ∈ rest
    · simpa [inside] using tail
    · by_cases same : f = g
      · subst f
        simp only [inside,if_false] at tail
        simp only [if_true] at head
        simp only [List.mem_cons_self,if_true]
        cases g <;> exact Eq.trans tail head
      · simp only [inside,if_false] at tail
        simp only [same,if_false] at head
        simp only [List.mem_cons,same,inside,or_self,if_false]
        cases f <;> exact Eq.trans tail head

/- A register whose mark is not 0 holds its field of the call the mark counts. -/
def Loaded (given : Nat → RangeInfo) (args : RangeInfo) (m : Marks) : Prop :=
  ∀ f, m.get f ≠ 0 → Agree args (given (m.get f-1)) f

theorem loadedMore {given args m calls memory} (h : Loaded given args m)
    (current : memory = given (calls-1)) (fields : List Field) :
    Loaded given (memory.loads args fields) (m.sets calls fields) := by
  intro f marked
  have got := loadsAgree memory fields args f
  rw [setsGet] at marked ⊢
  by_cases inside : f ∈ fields
  · simp only [inside,if_true] at got marked ⊢
    rwa [← current]
  · simp only [inside,if_false] at got marked ⊢
    have before := h f marked
    cases f <;> exact Eq.trans got before

structure Sound (given : Nat → RangeInfo) (w : World) : Prop where
  pending : w.statics.serialData = .serialRangeResult →
    0 < w.calls ∧ w.statics.rangeData = given (w.calls-1)
  noRound : w.statics.serialData ≠ .serialRoundResults
  notRound : w.task.position ≠ .printRound
  busy : w.task.position ≠ .betweenTurns → w.statics.serialData = .serialRangeResult
  loaded : Loaded given w.task.args w.marks
  bounded : ∀ f, w.marks.get f ≤ w.calls
  earlier : ∀ s ∈ w.sent, ∀ f, s.marks.get f ≤ w.marks.get f
  printed : w.task.position = .clearing →
    ∃ s ∈ w.sent, s.frame = .rangeResult w.task.args ∧ s.marks = w.marks

theorem startSound (given : Nat → RangeInfo) : Sound given start where
  pending := by simp [start,bss]
  noRound := by simp [start,bss]
  notRound := by simp [start]
  busy := by simp [start]
  loaded := by intro f marked; cases f <;> exact absurd rfl marked
  bounded := by intro f; cases f <;> exact Nat.zero_le _
  earlier := by simp [start]
  printed := by simp [start]

theorem soundCall {given} {w : World} (h : Sound given w) :
    Sound given (callStep w (given w.calls)) where
  pending _ := ⟨Nat.succ_pos _,rfl⟩
  noRound := by simp [callStep,serialWriteRange]
  notRound := h.notRound
  busy _ := rfl
  loaded := h.loaded
  bounded f := Nat.le_succ_of_le (h.bounded f)
  earlier := h.earlier
  printed := h.printed

theorem soundPump {plan given} {w t : World} (h : Sound given w) (move : PumpMove plan w t) :
    Sound given t := by
  cases move with
  | idle => exact h
  | readRound here flag => exact absurd flag h.noRound
  | readRange here flag =>
    exact ⟨h.pending,h.noRound,by simp,fun _ => flag,h.loaded,h.bounded,h.earlier,by simp⟩
  | loaded here =>
    have flag := h.busy (by simp [here])
    exact ⟨h.pending,h.noRound,by simp,fun _ => flag,h.loaded,h.bounded,h.earlier,by simp⟩
  | @load fields later here =>
    have flag := h.busy (by simp [here])
    have current := (h.pending flag).2
    have forward : ∀ f, w.marks.get f ≤ (w.marks.sets w.calls fields).get f := by
      intro f
      rw [setsGet]
      split
      · exact h.bounded f
      · exact Nat.le_refl _
    have next : afterLoad later ≠ .printRound ∧ afterLoad later ≠ .clearing := by
      unfold afterLoad
      split <;> simp
    refine ⟨h.pending,h.noRound,next.1,fun _ => flag,loadedMore h.loaded current fields,?_,?_,
      fun clearing => absurd clearing next.2⟩
    · intro f
      change (w.marks.sets w.calls fields).get f ≤ w.calls
      rw [setsGet]
      split
      · exact Nat.le_refl _
      · exact h.bounded f
    · exact fun s member f => Nat.le_trans (h.earlier s member f) (forward f)
  | printRound here => exact absurd here h.notRound
  | printRange here =>
    have flag := h.busy (by simp [here])
    refine ⟨h.pending,h.noRound,by simp,fun _ => flag,h.loaded,h.bounded,?_,fun _ => ?_⟩
    · intro s member f
      rcases List.mem_append.mp member with old | new
      · exact h.earlier s old f
      · cases List.mem_singleton.mp new
        exact Nat.le_refl _
    · exact ⟨_,List.mem_append_right _ List.mem_cons_self,rfl,rfl⟩
  | clear here =>
    exact ⟨by simp,by simp,by simp,by simp,h.loaded,h.bounded,h.earlier,by simp⟩

theorem soundStep {plan given w e t} (h : Sound given w) (taken : step plan given w e = some t) :
    Sound given t := by
  rcases stepCases taken with ⟨_,rfl⟩ | ⟨_,rfl⟩
  · exact soundCall h
  · exact soundPump h (pumpMove plan w)

def Sent.loadedAfter (s : Sent) (count : Nat) : Prop := ∀ f, count ≤ s.marks.get f

def HandedOver (given : Nat → RangeInfo) (w : World) : Prop :=
  w.task.position = .betweenTurns → w.statics.serialData = .serialNone → 0 < w.calls →
    ∃ s ∈ w.sent, s.frame = .rangeResult (given (w.calls-1)) ∧ s.loadedAfter w.calls

def NoLateCall (w : World) (e : Event) : Prop :=
  e = .pump → w.task.position = .clearing → ∀ f, w.marks.get f = w.calls

theorem clearedLate {given} {w : World} (h : Sound given w) (s : Sent) (member : s ∈ w.sent)
    (after : s.loadedAfter w.calls) (f : Field) : w.marks.get f = w.calls :=
  Nat.le_antisymm (h.bounded f) (Nat.le_trans (after f) (h.earlier s member f))

theorem clearedInTime {given} {w : World} (h : Sound given w) (here : w.task.position = .clearing)
    (marks : ∀ f, w.marks.get f = w.calls) :
    ∃ s ∈ w.sent, s.frame = .rangeResult (given (w.calls-1)) ∧ s.loadedAfter w.calls := by
  obtain ⟨s,member,frame,same⟩ := h.printed here
  have called := (h.pending (h.busy (by simp [here]))).1
  have whole : w.task.args = given (w.calls-1) := by
    refine equalOfAgree fun f => ?_
    have got := h.loaded f (by rw [marks f]; omega)
    rwa [marks f] at got
  exact ⟨s,member,by rw [frame,whole],fun f => Nat.le_of_eq (by rw [same,marks f])⟩

theorem handedOverElse {plan given} {w t : World} (handed : HandedOver given w)
    (move : PumpMove plan w t) (here : w.task.position ≠ .clearing) : HandedOver given t := by
  intro between
  cases move with
  | idle => exact handed between
  | readRound => simp at between
  | readRange => simp at between
  | loaded => simp at between
  | @load fields later =>
    have next : afterLoad later ≠ .betweenTurns := by
      unfold afterLoad
      split <;> simp
    exact absurd between next
  | printRound => simp at between
  | printRange => simp at between
  | clear clearing => exact absurd clearing here

theorem clearStep {plan} {w : World} (here : w.task.position = .clearing) :
    pumpStep plan w =
      {w with statics.serialData := .serialNone, task.position := .betweenTurns} := by
  simp [pumpStep,aux1DataPumpTask,marked,here]

theorem handedOverPump {plan given} {w : World} (h : Sound given w) (handed : HandedOver given w) :
    HandedOver given (pumpStep plan w) ↔ NoLateCall w .pump := by
  by_cases here : w.task.position = .clearing
  · have called := (h.pending (h.busy (by simp [here]))).1
    rw [clearStep here]
    constructor
    · intro after _ _ f
      obtain ⟨s,member,_,late⟩ := after rfl rfl called
      exact clearedLate h s member late f
    · intro clean _ _ _
      obtain ⟨s,member,frame,late⟩ := clearedInTime h here (clean rfl here)
      exact ⟨s,member,frame,late⟩
  · constructor
    · exact fun _ _ clearing => absurd clearing here
    · exact fun _ => handedOverElse handed (pumpMove plan w) here

/-- No report is lost along a run exactly when no call of it falls between the
pump's loads and its store of SERIAL_NONE in the same turn. -/
theorem handedOverExact (plan : Plan) (given : Nat → RangeInfo) (es : List Event) :
    Always (step plan given) (HandedOver given) start es ↔
      Along (step plan given) NoLateCall start es := by
  refine alwaysExact (fun w e t h taken => soundStep h taken) ?_ (startSound given) ?_ es
  · intro w e t h handed taken
    rcases stepCases taken with ⟨rfl,rfl⟩ | ⟨rfl,rfl⟩
    · constructor
      · exact fun _ call => absurd call (by simp)
      · exact fun _ _ none => absurd none (by simp [callStep,serialWriteRange])
    · exact handedOverPump h handed
  · exact fun _ _ none => absurd none (Nat.lt_irrefl 0)

theorem lateCallLost : ¬ ∀ given es, Always (step atomicLoad given) (HandedOver given) start es := by
  intro all
  let given : Nat → RangeInfo := fun k => if k = 0 then ⟨1,100,7⟩ else ⟨2,200,9⟩
  let es : List Event := [.call,.pump,.pump,.call,.pump,.pump]
  have last := alwaysReached.mp (all given es) es [] _ (by simp) rfl
  obtain ⟨s,member,frame,_⟩ := last rfl rfl (by decide)
  cases List.mem_singleton.mp member
  exact absurd frame (by decide)

end Fresknode.SerialPump
