import Fresknode.Rings
import Fresknode.TimerLog

/-! The table of print_timex against the samples taken since start_timex. Sample n is
stored at n modulo 128, so the rows listed are those since the last wrap. The first row is
printed as its own difference, which is right for the start entry only; and the one field
that says where to store next also says how many rows there are. -/
namespace Fresknode.Timer
open Rings

def elapsed (ns : List UInt32) : UInt32 := ns.foldl (fun time n => time + us n) 0

def total (ns : List UInt32) (j : Nat) : UInt32 := elapsed (ns.take j)

def interval (ns : List UInt32) : Nat → Option UInt32
  | 0 => none
  | j+1 => ns[j]?.map us

def measured : Op → Option UInt32
  | .getUs ticks _ => some (us ticks)
  | .stop ticks => some (us ticks)
  | _ => none

structure Traced where
  timer : MyTimer
  held : Nat → Option UInt32

def traceStep (w : Traced) (op : Op) : Traced where
  timer := (apply op w.timer).timer
  held i := if i ∈ (apply op w.timer).stores then measured op else w.held i

def traced (w : Traced) (ops : List Op) : Traced := ops.foldl traceStep w

def getOps (samples : List (UInt32 × UInt32)) : List Op := samples.map fun p => .getUs p.1 p.2

@[simp] theorem getOpsLength (samples : List (UInt32 × UInt32)) :
    (getOps samples).length = samples.length := List.length_map _

def sampleOps (samples : List (UInt32 × UInt32)) (last : Option UInt32) : List Op :=
  getOps samples ++ (last.map Op.stop).toList

def intervals (samples : List (UInt32 × UInt32)) (last : Option UInt32) : List UInt32 :=
  samples.map Prod.fst ++ last.toList

def RowRight (w : Traced) (row : Option Row) : Prop :=
  ∃ r, row = some r ∧ ∀ d, w.held r.nr = some d → r.difference = d

def tableRun (t : MyTimer) (now : UInt32) (samples : List Op) : Traced :=
  traced ⟨t,fun _ => none⟩ (.init::.start now::samples)

structure TableRecords (t : MyTimer) (now : UInt32) (samples : List Op) : Prop where
  totals : samples.length ≤ 127 →
    (printTimex (tableRun t now samples).timer).map (Option.map Row.total) =
      (0 :: values (startTimer now (initTimer t).timer).timer samples).map some
  differences : ∀ row ∈ printTimex (tableRun t now samples).timer,
    RowRight (tableRun t now samples) row

structure Holds (ns : List UInt32) (w : Traced) (n : Nat) : Prop where
  time : w.timer.accumulatedTime = total ns n
  log : Kept 128 w.timer.fetchLog (fun j => some (total ns j)) n
  held : Kept 128 w.held (interval ns) n

theorem totalNext {ns : List UInt32} {n : Nat} {ticks : UInt32} (here : ns[n]? = some ticks) :
    total ns (n+1) = total ns n + us ticks := by
  unfold total elapsed
  rw [List.take_add_one,here,List.foldl_append]
  rfl

theorem fetchSet (v : Vector UInt32 128) {index : Nat} (inside : index < 128) (value : UInt32)
    (i : Nat) : (v.set index value inside)[i]? = if i = index then some value else v[i]? := by
  rw [Vector.getElem?_set]
  by_cases same : index = i <;> simp [same,eq_comm]

theorem sampleHolds {ns : List UInt32} {w : Traced} {n : Nat} {ticks : UInt32} {op : Op}
    {t : MyTimer} (h : Holds ns w n) (here : ns[n]? = some ticks)
    (index : w.timer.counter.toNat = (n+1) % 128) (inside : w.timer.counter.toNat < 128)
    (effect : apply op w.timer =
      ⟨t,w.timer.accumulatedTime + us ticks,[w.timer.counter.toNat]⟩)
    (time : t.accumulatedTime = w.timer.accumulatedTime + us ticks)
    (log : t.timevector = w.timer.timevector.set w.timer.counter.toNat
      (w.timer.accumulatedTime + us ticks) inside)
    (counted : measured op = some (us ticks)) : Holds ns (traceStep w op) (n+1) := by
  have next := totalNext here
  have entry : ∀ i, (traceStep w op).timer.fetchLog i =
      if i = (n+1) % 128 then some (total ns (n+1)) else w.timer.fetchLog i := by
    intro i
    unfold traceStep MyTimer.fetchLog
    rw [effect,log,fetchSet _ inside,index,next,h.time]
  have holder : ∀ i, (traceStep w op).held i =
      if i = (n+1) % 128 then some (us ticks) else w.held i := by
    intro i
    simp only [traceStep,effect,index,List.mem_singleton,counted]
  refine ⟨?_,keptNext h.log ?_ ?_,keptNext h.held ?_ ?_⟩
  · unfold traceStep
    rw [effect,time,next,h.time]
  · rw [entry,if_pos rfl]
  · intro i apart
    rw [entry,if_neg apart]
  · rw [holder,if_pos rfl]
    simp only [interval,here,Option.map_some]
  · intro i apart
    rw [holder,if_neg apart]

theorem startHolds (ns : List UInt32) (t : MyTimer) (now : UInt32) :
    Holds ns (traced ⟨t,fun _ => none⟩ [.init,.start now]) 0 := by
  refine ⟨rfl,?_,?_⟩
  · intro j before _
    cases Nat.le_zero.mp before
    rfl
  · intro j before _
    cases Nat.le_zero.mp before
    rfl

structure Sampling (ns : List UInt32) (w : Traced) (n : Nat) (rest : List UInt32) : Prop where
  holds : Holds ns w n
  running : w.timer.running = true
  index : w.timer.counter.toNat = (n+1) % 128
  left : ns.drop n = rest

theorem nextLeft {ns rest : List UInt32} {n : Nat} {ticks : UInt32}
    (left : ns.drop n = ticks::rest) : ns[n]? = some ticks ∧ ns.drop (n+1) = rest := by
  refine ⟨?_,?_⟩
  · rw [← Nat.add_zero n,← List.getElem?_drop,left]
    rfl
  · rw [← List.drop_drop,left]
    rfl

theorem getSampling {ns rest : List UInt32} {w : Traced} {n : Nat} {ticks : UInt32}
    (now : UInt32) (h : Sampling ns w n (ticks::rest)) :
    Sampling ns (traceStep w (.getUs ticks now)) (n+1) rest ∧
      (apply (.getUs ticks now) w.timer).value = total ns (n+1) := by
  obtain ⟨here,left⟩ := nextLeft h.left
  have index := h.index
  have inside : w.timer.counter.toNat < 128 := by omega
  have sample := getRunning h.running inside ticks now
  have holds : Holds ns (traceStep w (.getUs ticks now)) (n+1) :=
    sampleHolds h.holds here index inside sample rfl rfl rfl
  refine ⟨⟨holds,?_,?_,left⟩,?_⟩
  · simp only [traceStep,apply,sample]
  · simp only [traceStep,apply,sample]
    rw [nextIndexNat _ inside,index,Nat.mod_add_mod]
  · rw [← holds.time]
    simp only [traceStep,apply,sample]

theorem stopSampling {ns : List UInt32} {w : Traced} {n : Nat} {ticks : UInt32}
    (h : Sampling ns w n [ticks]) :
    Holds ns (traceStep w (.stop ticks)) (n+1) ∧
      (traceStep w (.stop ticks)).timer.counter.toNat = (n+1) % 128 + 1 ∧
      values w.timer [.stop ticks] = [total ns (n+1)] := by
  have index := h.index
  have inside : w.timer.counter.toNat < 128 := by omega
  have sample := stopInside inside ticks
  have holds : Holds ns (traceStep w (.stop ticks)) (n+1) :=
    sampleHolds h.holds (nextLeft h.left).1 index inside sample rfl rfl rfl
  refine ⟨holds,?_,?_⟩
  · simp only [traceStep,apply,sample]
    rw [counterSucc _ inside,index]
  · rw [← holds.time]
    simp only [values,traceStep,apply,sample]

theorem getsRun {ns rest : List UInt32} (samples : List (UInt32 × UInt32)) {w : Traced} {n : Nat}
    (h : Sampling ns w n (samples.map Prod.fst ++ rest)) :
    Sampling ns (traced w (getOps samples)) (n + samples.length) rest ∧
      ∀ more, values w.timer (getOps samples ++ more) =
        (List.range' (n+1) samples.length).map (total ns) ++
          values (traced w (getOps samples)).timer more := by
  induction samples generalizing w n with
  | nil => exact ⟨h,fun more => rfl⟩
  | cons p samples ih =>
    obtain ⟨next,value⟩ := getSampling p.2 h
    obtain ⟨ends,later⟩ := ih next
    have count : n + 1 + samples.length = n + (samples.length + 1) := by omega
    rw [count] at ends
    refine ⟨ends,fun more => ?_⟩
    have tail := later more
    simp only [getOps,List.map_cons,List.cons_append,values,List.length_cons,List.range'_succ] at tail ⊢
    rw [value]
    exact congrArg _ tail

structure Ended (ns : List UInt32) (w : Traced) (rows : Nat) (reported : List UInt32) : Prop where
  holds : Holds ns w ns.length
  rows : w.timer.counter.toNat = rows
  reported : reported = (List.range' 1 ns.length).map (total ns)

def listed (samples : List (UInt32 × UInt32)) : Option UInt32 → Nat
  | none => (samples.length+1) % 128
  | some _ => (samples.length+1) % 128 + 1

theorem runEnds (t : MyTimer) (now : UInt32) (samples : List (UInt32 × UInt32))
    (last : Option UInt32) :
    Ended (intervals samples last) (tableRun t now (sampleOps samples last)) (listed samples last)
      (values (startTimer now (initTimer t).timer).timer (sampleOps samples last)) := by
  have start : Sampling (intervals samples last) (traced ⟨t,fun _ => none⟩ [.init,.start now]) 0
      (samples.map Prod.fst ++ last.toList) := ⟨startHolds _ t now,rfl,rfl,rfl⟩
  obtain ⟨ends,returned⟩ := getsRun samples start
  rw [Nat.zero_add] at ends
  have parts : ∀ more, tableRun t now (getOps samples ++ more) =
      traced (traced (traced ⟨t,fun _ => none⟩ [.init,.start now]) (getOps samples)) more :=
    fun more => List.foldl_append
  cases last with
  | none =>
    have count : (intervals samples none).length = samples.length := by simp [intervals]
    have whole : tableRun t now (sampleOps samples none) = _ := parts []
    refine ⟨?_,?_,?_⟩
    · rw [whole,count]
      exact ends.holds
    · rw [whole]
      exact ends.index
    · rw [count]
      exact (returned []).trans (List.append_nil _)
  | some ticks =>
    have count : (intervals samples (some ticks)).length = samples.length + 1 := by simp [intervals]
    have whole : tableRun t now (sampleOps samples (some ticks)) = _ := parts [.stop ticks]
    obtain ⟨holds,index,value⟩ := stopSampling ends
    refine ⟨?_,?_,?_⟩
    · rw [whole,count]
      exact holds
    · rw [whole]
      exact index
    · rw [count,List.range'_concat,List.map_append,Nat.one_mul,Nat.add_comm 1]
      exact (returned [.stop ticks]).trans (congrArg _ value)

theorem rowShown {ns : List UInt32} {w : Traced} {n : Nat} (h : Holds ns w n) {i : Nat}
    (listed : i ≤ n % 128) :
    printRow w.timer i = some ⟨i,total ns (lastWrap 128 n + i),
      if i = 0 then total ns (lastWrap 128 n)
      else total ns (lastWrap 128 n + i) - total ns (lastWrap 128 n + (i-1))⟩ := by
  have here := sinceWrap h.log listed (by decide)
  unfold printRow
  by_cases first : i = 0
  · rw [if_pos first,if_pos first,here,first]
    rfl
  · have before := sinceWrap h.log (i := i-1) (by omega) (by decide)
    rw [if_neg first,if_neg first,here,before]
    rfl

theorem laterRow {ns : List UInt32} {w : Traced} (h : Holds ns w ns.length) {i : Nat}
    (listed : i ≤ ns.length % 128) (later : i ≠ 0) : RowRight w (printRow w.timer i) := by
  have held := sinceWrap h.held listed (by decide)
  have small := Nat.mod_le ns.length 128
  refine ⟨_,rowShown h listed,fun d found => ?_⟩
  obtain ⟨j,rfl⟩ := Nat.exists_eq_succ_of_ne_zero later
  have inside : lastWrap 128 ns.length + j < ns.length := by
    unfold lastWrap
    omega
  have here := List.getElem?_eq_getElem inside
  have next := totalNext here
  rw [held] at found
  change ns[lastWrap 128 ns.length + j]?.map us = some d at found
  rw [here] at found
  rw [if_neg later]
  change total ns (lastWrap 128 ns.length + j + 1) - total ns (lastWrap 128 ns.length + j) = d
  rw [next,← Option.some.inj found,UInt32.add_comm,UInt32.add_sub_cancel]

theorem firstRow {ns : List UInt32} {w : Traced} (h : Holds ns w ns.length) :
    RowRight w (printRow w.timer 0) ↔
      (128 ≤ ns.length → total ns (lastWrap 128 ns.length - 1) = 0) := by
  have held := sinceWrap h.held (Nat.zero_le _) (by decide)
  have shown := rowShown h (Nat.zero_le _)
  rw [if_pos rfl] at shown
  cases wrap : lastWrap 128 ns.length with
  | zero =>
    -- the row holds the start entry, which is no sample
    rw [wrap] at held
    change w.held 0 = none at held
    have short : ns.length < 128 := by
      unfold lastWrap at wrap
      omega
    have right : RowRight w (printRow w.timer 0) := by
      refine ⟨_,shown,fun d found => ?_⟩
      rw [held] at found
      contradiction
    exact iff_of_true right fun full => absurd full (by omega)
  | succ j =>
    have inside : j < ns.length ∧ 128 ≤ ns.length := by
      unfold lastWrap at wrap
      omega
    have here := List.getElem?_eq_getElem inside.1
    rw [wrap] at held shown
    change w.held 0 = ns[j]?.map us at held
    rw [here] at held
    rw [totalNext here] at shown
    have exact : RowRight w (printRow w.timer 0) ↔ total ns j + us ns[j] = us ns[j] := by
      constructor
      · intro right
        obtain ⟨r,same,difference⟩ := right
        cases Option.some.inj (shown.symm.trans same)
        exact difference _ held
      · intro same
        refine ⟨_,shown,fun d found => ?_⟩
        cases Option.some.inj (held.symm.trans found)
        exact same
    rw [exact,UInt32.add_eq_right]
    exact ⟨fun zero _ => zero,fun zero => zero inside.2⟩

theorem rowsRight {ns : List UInt32} {w : Traced} (h : Holds ns w ns.length)
    (rows : w.timer.counter.toNat = ns.length % 128 + 1) :
    (∀ row ∈ printTimex w.timer, RowRight w row) ↔
      (128 ≤ ns.length → total ns (lastWrap 128 ns.length - 1) = 0) := by
  rw [← firstRow h]
  unfold printTimex
  simp only [List.mem_map,List.mem_range,rows]
  constructor
  · intro all
    exact all _ ⟨0,by omega,rfl⟩
  · intro first row member
    obtain ⟨i,below,rfl⟩ := member
    by_cases zero : i = 0
    · rw [zero]
      exact first
    · exact laterRow h (by omega) zero

theorem totalsShown {ns : List UInt32} {w : Traced} (h : Holds ns w ns.length)
    (rows : w.timer.counter.toNat = ns.length % 128 + 1) (fits : ns.length ≤ 127) :
    (printTimex w.timer).map (Option.map Row.total) =
      (0 :: (List.range' 1 ns.length).map (total ns)).map some := by
  have whole : ns.length % 128 = ns.length := Nat.mod_eq_of_lt (by omega)
  have start : lastWrap 128 ns.length = 0 := by
    unfold lastWrap
    omega
  have counted : 0 :: (List.range' 1 ns.length).map (total ns) =
      (List.range (ns.length+1)).map (total ns) := by
    rw [List.range_eq_range',List.range'_succ]
    rfl
  rw [counted]
  unfold printTimex
  rw [rows,whole,List.map_map,List.map_map]
  refine List.map_congr_left fun i member => ?_
  have below := List.mem_range.mp member
  have shown := rowShown h (i := i) (by omega)
  simp only [Function.comp,shown,start,Option.map_some,Nat.zero_add]

theorem takenCount (samples : List (UInt32 × UInt32)) (last : Option UInt32) :
    (sampleOps samples last).length = (intervals samples last).length := by
  cases last <;> simp [sampleOps,intervals]

theorem emptyTable (t : MyTimer) (now : UInt32) {samples : List (UInt32 × UInt32)}
    (wrapped : (samples.length + 1) % 128 = 0) :
    TableRecords t now (sampleOps samples none) ↔ samples.length ≠ 127 := by
  have ended := runEnds t now samples none
  have count : (sampleOps samples none).length = samples.length := by simp [sampleOps]
  have empty : printTimex (tableRun t now (sampleOps samples none)).timer = [] := by
    unfold printTimex
    rw [ended.rows,listed,wrapped]
    rfl
  constructor
  · intro records lost
    have totals := records.totals (by omega)
    rw [empty] at totals
    exact absurd totals nofun
  · intro apart
    refine ⟨fun short => absurd (by omega) apart,?_⟩
    rw [empty]
    exact nofun

theorem filledTable {t : MyTimer} {now : UInt32} {samples : List (UInt32 × UInt32)}
    {last : Option UInt32}
    (rows : listed samples last = (intervals samples last).length % 128 + 1) :
    TableRecords t now (sampleOps samples last) ↔ (128 ≤ (intervals samples last).length →
      total (intervals samples last) (lastWrap 128 (intervals samples last).length - 1) = 0) := by
  have ended := runEnds t now samples last
  have taken := takenCount samples last
  have shown := ended.rows.trans rows
  rw [← rowsRight ended.holds shown]
  constructor
  · exact fun records => records.differences
  · intro differences
    refine ⟨fun short => ?_,differences⟩
    rw [ended.reported]
    exact totalsShown ended.holds shown (by omega)

/-- Exactly when the table is the record of the samples, for every earlier content of the
timer, any number of samples of any length and with or without a stop. -/
theorem tableExact (t : MyTimer) (now : UInt32) (samples : List (UInt32 × UInt32))
    (last : Option UInt32) :
    TableRecords t now (sampleOps samples last) ↔
      ¬(samples.length = 127 ∧ last = none) ∧
        (128 ≤ (intervals samples last).length →
          (last = none ∧ (samples.length + 1) % 128 = 0) ∨
            total (intervals samples last) (lastWrap 128 (intervals samples last).length - 1) = 0) := by
  by_cases empty : last = none ∧ (samples.length + 1) % 128 = 0
  · obtain ⟨rfl,wrapped⟩ := empty
    rw [emptyTable t now wrapped]
    constructor
    · exact fun apart => ⟨fun lost => apart lost.1,fun _ => .inl ⟨rfl,wrapped⟩⟩
    · exact fun kept lost => kept.1 ⟨lost,rfl⟩
  · have rows : listed samples last = (intervals samples last).length % 128 + 1 := by
      cases last with
      | none =>
        simp only [listed,intervals,Option.toList_none,List.append_nil,List.length_map]
        simp only [true_and] at empty
        omega
      | some ticks => simp [listed,intervals]
    rw [filledTable rows]
    constructor
    · exact fun zero => ⟨fun lost => empty ⟨lost.2,by omega⟩,fun long => .inr (zero long)⟩
    · exact fun kept long => (kept.2 long).resolve_left empty

theorem tableLost :
    let blank : MyTimer := ⟨⟨0⟩,0,Vector.replicate 128 0,0,false⟩
    ¬TableRecords blank 0 (sampleOps (List.replicate 127 (144,0)) none) ∧
      ¬TableRecords blank 0 (sampleOps (List.replicate 128 (144,0)) none) := by
  intro blank
  constructor
  · intro records
    have empty : printTimex (tableRun blank 0 (sampleOps (List.replicate 127 (144,0)) none)).timer =
        [] := by decide +kernel
    have totals := records.totals (by simp [sampleOps])
    rw [empty] at totals
    exact absurd totals nofun
  · intro records
    have shown : printTimex (tableRun blank 0 (sampleOps (List.replicate 128 (144,0)) none)).timer =
        [some ⟨0,128,128⟩] := by decide +kernel
    have held : (tableRun blank 0 (sampleOps (List.replicate 128 (144,0)) none)).held 0 = some 1 := by
      decide +kernel
    obtain ⟨r,same,right⟩ := records.differences (some ⟨0,128,128⟩) (by rw [shown]; exact List.mem_cons_self)
    cases Option.some.inj same
    exact absurd (right 1 held) (by decide)

end Fresknode.Timer
