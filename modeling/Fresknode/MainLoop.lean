import Fresknode.StartupIdentity
import Mathlib.Data.List.Chain

/-! main.c after dw1000_init has returned: what main still sets up, then its endless loop.
The loop runs beside the threads that main has started. `pending` is what main has still to
do before it comes to the head of the loop again, with the locals as they are then, and
`log` only remembers the calls it has made. The next one needs the last to have returned. -/
namespace Fresknode.MainLoop
open Runs Identity

inductive Action where
  | dw1000PrintConfig
  | dw1000DisableFiltering
  | dw1000GetSensors
  | dw1000TrxOff
  | dw1000SoftresetRx
  | dw1000Receive
  | chThdSleepMilliseconds (time : Nat)
  | printfRanging (dst : UInt16)
  | twowayrangingRequest (dst : UInt16)
  deriving DecidableEq, Repr

@[ext] structure Locals where
  perLoop : Int
  dst : UInt16
  deriving DecidableEq, Repr

def sleep : Nat := 100
def rangeDelay : Nat := 10

def opening (role : RangerRole) : List Action :=
  [.dw1000PrintConfig,.dw1000Receive] ++
    if role = .undefined then [.dw1000DisableFiltering] else []

def pause (role which : RangerRole) (time : Nat) : List Action :=
  if role = which then [.chThdSleepMilliseconds time] else []

def pauses (role : RangerRole) : List Action :=
  pause role .anchor0 sleep ++ pause role .anchor1 (sleep * 2) ++
    pause role .anchor2 (sleep * 3) ++ pause role .anchor3 (sleep * 4) ++ pause role .node3 2000

def Ranges (role : RangerRole) : Prop := role = .node1 ∨ role = .node2

instance (role : RangerRole) : Decidable (Ranges role) := inferInstanceAs (Decidable (_ ∨ _))

def range (dst : UInt16) : List Action :=
  [.printfRanging dst,.twowayrangingRequest dst,.chThdSleepMilliseconds rangeDelay]

def restart : List Action := [.dw1000TrxOff,.dw1000SoftresetRx,.dw1000Receive]

def turn (role : RangerRole) (ieeshortaddr : UInt16) (l : Locals) : List Action × Locals :=
  let again := l.perLoop.tmod 500 = 0
  ([.dw1000GetSensors] ++
    (if ieeshortaddr = 65001 then [.twowayrangingRequest l.dst] else []) ++
    [.chThdSleepMilliseconds 1] ++ pauses role ++
    (if Ranges role then range 0 ++ range 1 ++ range 2 ++ range 3 else []) ++
    (if again then restart else []),
    {perLoop := (if again then 0 else l.perLoop) + 1
     dst := if Ranges role then 3 else l.dst})

structure Outside extends Startup.Outside where
  actionReturns : Action → Bool

def documented : Outside := ⟨Startup.documented,fun _ => true⟩

structure State where
  startup : Startup.State
  locals : Option Locals
  pending : List Action
  log : List Action
  deriving DecidableEq, Repr

def powerOn : State := ⟨Startup.powerOn,none,[],[]⟩

def loopStep (s : State) : State :=
  match s.pending with
  | action::rest => {s with pending := rest, log := s.log ++ [action]}
  | [] =>
    match s.locals with
    | none => {s with locals := some ⟨1,65000⟩, pending := opening s.startup.role}
    | some l =>
      let r := turn s.startup.role s.startup.ieeshortaddr l
      {s with locals := some r.2, pending := r.1}

def GoesOn (out : Outside) (s : State) : Prop :=
  s.startup.fault = false ∧ s.log.getLast?.all out.actionReturns

instance (out : Outside) (s : State) : Decidable (GoesOn out s) := inferInstanceAs (Decidable (_ ∧ _))

def step (out : Outside) (uid : UInt64) (s : State) (e : Startup.Event) : Option State :=
  if e = .main ∧ s.startup.main = [] then
    if GoesOn out s then some (loopStep s) else none
  else (Startup.step out.toOutside uid s.startup e).map fun u => {s with startup := u}

inductive Stepped (out : Outside) (uid : UInt64) (s : State) : Startup.Event → State → Prop where
  | loop (finished : s.startup.main = []) (goesOn : GoesOn out s) : Stepped out uid s .main (loopStep s)
  | startup {e : Startup.Event} {u : Startup.State} (other : ¬(e = .main ∧ s.startup.main = []))
      (taken : Startup.step out.toOutside uid s.startup e = some u) :
      Stepped out uid s e {s with startup := u}

theorem stepped {out : Outside} {uid : UInt64} {s t : State} {e : Startup.Event}
    (taken : step out uid s e = some t) : Stepped out uid s e t := by
  unfold step at taken
  split at taken
  · rename_i inLoop
    split at taken <;> try contradiction
    cases Option.some.inj taken
    obtain ⟨rfl,finished⟩ := inLoop
    exact .loop finished (by assumption)
  · obtain ⟨u,moved,rfl⟩ := Option.map_eq_some_iff.mp taken
    exact .startup (by assumption) moved

def block (role : RangerRole) : Nat → List Action
  | 0 => opening role
  | n + 1 => (turn role (ieeshortaddr role) ⟨(n % 500 : Nat) + 1,0⟩).1

def history (role : RangerRole) (n : Nat) : List Action := (List.range n).flatMap (block role)

theorem historyNext (role : RangerRole) (n : Nat) :
    history role (n + 1) = history role n ++ block role n := by
  simp [history,List.range_succ]

theorem addressed (role : RangerRole) : ieeshortaddr role ≠ 65001 := by
  cases role <;> decide

theorem turnDst (role : RangerRole) (perLoop : Int) (dst other : UInt16) :
    (turn role (ieeshortaddr role) ⟨perLoop,dst⟩).1 =
      (turn role (ieeshortaddr role) ⟨perLoop,other⟩).1 := by
  simp only [turn,addressed,if_false]

theorem resetTurn (n : Nat) : ((n % 500 : Nat) + 1 : Int).tmod 500 = 0 ↔ (n + 1) % 500 = 0 := by
  rw [Int.tmod_eq_emod_of_nonneg (by omega)]
  omega

theorem turnPerLoop (role : RangerRole) (n : Nat) (dst : UInt16) :
    (turn role (ieeshortaddr role) ⟨(n % 500 : Nat) + 1,dst⟩).2.perLoop =
      ((n + 1) % 500 : Nat) + 1 := by
  simp only [turn,resetTurn]
  split <;> omega

def body (role : RangerRole) (again : Bool) : List Action :=
  [.dw1000GetSensors,.chThdSleepMilliseconds 1] ++ pauses role ++
    (if Ranges role then range 0 ++ range 1 ++ range 2 ++ range 3 else []) ++
    (if again then restart else [])

theorem blockTurn (role : RangerRole) (n : Nat) :
    block role (n + 1) = body role (decide ((n + 1) % 500 = 0)) := by
  simp only [block,turn,body,addressed,resetTurn,if_false,List.append_nil,List.cons_append,
    List.nil_append,decide_eq_true_eq]

/- n blocks are behind main, and `done` of the next one. -/
structure Looping (role : RangerRole) (s : State) (n : Nat) (done : List Action) : Prop where
  behind : s.log = history role n ++ done
  ahead : block role n = done ++ s.pending
  locals : ∃ dst, s.locals = some ⟨(n % 500 : Nat) + 1,dst⟩

structure Sound (out : Outside) (uid : UInt64) (s : State) : Prop where
  settles : Startup.Settles out.toOutside uid s.startup
  early : s.startup.main ≠ [] → s.locals = none
  before : s.locals = none → s.pending = [] ∧ s.log = []
  looping : s.locals ≠ none → ∃ n done, Looping (getRole uid) s n done

theorem loopSound {out : Outside} {uid : UInt64} {s : State} (h : Sound out uid s)
    (finished : s.startup.main = []) : Sound out uid (loopStep s) := by
  have final := Startup.settled h.settles finished
  unfold loopStep
  split
  · rename_i action rest here
    have inside : s.locals ≠ none := fun opened => by
      have none := (h.before opened).1
      rw [here] at none
      contradiction
    obtain ⟨n,done,looping⟩ := h.looping inside
    refine ⟨h.settles,h.early,fun opened => absurd opened inside,fun _ => ⟨n,done ++ [action],?_⟩⟩
    refine ⟨?_,?_,looping.locals⟩
    · change s.log ++ [action] = _
      rw [looping.behind,List.append_assoc]
    · rw [looping.ahead,here,List.append_assoc]
      rfl
  · rename_i here
    split
    · rename_i opened
      refine ⟨h.settles,fun busy => absurd finished busy,nofun,fun _ => ⟨0,[],?_⟩⟩
      refine ⟨(h.before opened).2,?_,65000,rfl⟩
      change opening (getRole uid) = opening s.startup.role
      rw [final.role]
    · rename_i l at_
      obtain ⟨n,done,looping⟩ := h.looping (by rw [at_]; exact nofun)
      obtain ⟨dst,same⟩ := looping.locals
      cases Option.some.inj (at_.symm.trans same)
      refine ⟨h.settles,fun busy => absurd finished busy,nofun,fun _ => ⟨n + 1,[],?_⟩⟩
      refine ⟨?_,?_,?_⟩
      · have whole := looping.ahead
        rw [here,List.append_nil] at whole
        change s.log = _
        rw [looping.behind,historyNext,whole,List.append_nil]
      · change block (getRole uid) (n + 1) = (turn s.startup.role s.startup.ieeshortaddr _).1
        rw [final.role,final.ieeshortaddr]
        exact turnDst _ _ _ _
      · refine ⟨_,congrArg some (Locals.ext ?_ rfl)⟩
        rw [final.role,final.ieeshortaddr]
        exact turnPerLoop _ _ _

theorem stepSound {out : Outside} {uid : UInt64} (s : State) (e : Startup.Event) (t : State)
    (h : Sound out uid s) (taken : step out uid s e = some t) : Sound out uid t := by
  cases stepped taken with
  | loop finished => exact loopSound h finished
  | startup other move =>
    refine ⟨Startup.stepSettles _ _ _ h.settles move,?_,h.before,?_⟩
    · intro busy
      refine h.early fun finished => busy ?_
      have turn : e ≠ .main := fun main => other ⟨main,finished⟩
      rw [(Startup.otherLeaves turn move).1]
      exact finished
    · intro inside
      obtain ⟨n,done,looping⟩ := h.looping inside
      exact ⟨n,done,looping.behind,looping.ahead,looping.locals⟩

theorem powerOnSound (out : Outside) (uid : UInt64) : Sound out uid powerOn :=
  ⟨rfl,fun _ => rfl,fun _ => ⟨rfl,rfl⟩,fun inside => absurd rfl inside⟩

def requested : Action → Option UInt16
  | .twowayrangingRequest dst => some dst
  | _ => none

def requests (log : List Action) : List UInt16 := log.filterMap requested

theorem bodyRequests (role : RangerRole) (again : Bool) :
    requests (body role again) = if Ranges role then [0,1,2,3] else [] := by
  cases role <;> cases again <;> rfl

theorem historyRequests (role : RangerRole) (n : Nat) : requests (history role (n + 1)) =
    if Ranges role then (List.range (4 * n)).map fun i => UInt16.ofNat (i % 4) else [] := by
  induction n with
  | zero => cases role <;> rfl
  | succ n ih =>
    have split : requests (history role (n + 2)) =
        requests (history role (n + 1)) ++ requests (block role (n + 1)) := by
      rw [historyNext,requests,List.filterMap_append]
      rfl
    rw [split,ih,blockTurn,bodyRequests]
    by_cases ranges : Ranges role
    · simp only [if_pos ranges,Nat.mul_succ,List.range_succ,List.map_append,List.map_cons,
        List.map_nil,List.append_assoc]
      simp
    · simp only [if_neg ranges,List.append_nil]

def demands : Action → Option Action
  | .printfRanging dst => some (.twowayrangingRequest dst)
  | .twowayrangingRequest _ => some (.chThdSleepMilliseconds rangeDelay)
  | .dw1000TrxOff => some .dw1000SoftresetRx
  | .dw1000SoftresetRx => some .dw1000Receive
  | _ => none

def Follows (first next : Action) : Prop := ∀ a ∈ demands first, next = a

instance : DecidableRel Follows :=
  fun first next => inferInstanceAs (Decidable (∀ a ∈ demands first, next = a))

theorem bodyOrdered (role : RangerRole) (again : Bool) : (body role again).IsChain Follows := by
  cases role <;> cases again <;> decide

def closes (a : Action) : Bool := (demands a).isNone

theorem closesFollowed {last : Action} (h : closes last) (next : Action) : Follows last next := by
  intro a demanded
  have none : demands last = none := Option.isNone_iff_eq_none.mp h
  rw [none] at demanded
  contradiction

theorem bodyCloses (role : RangerRole) (again : Bool) : (body role again).getLast?.all closes := by
  cases role <;> cases again <;> rfl

theorem blockOrdered (role : RangerRole) (n : Nat) :
    (block role n).IsChain Follows ∧ (block role n).getLast?.all closes := by
  cases n with
  | zero => cases role <;> decide
  | succ n =>
    rw [blockTurn]
    exact ⟨bodyOrdered _ _,bodyCloses _ _⟩

theorem historyOrdered (role : RangerRole) (n : Nat) :
    (history role n).IsChain Follows ∧ (history role n).getLast?.all closes := by
  induction n with
  | zero => exact ⟨.nil,rfl⟩
  | succ n ih =>
    have next := blockOrdered role n
    rw [historyNext]
    refine ⟨List.isChain_append.mpr ⟨ih.1,next.1,fun last member y _ => ?_⟩,?_⟩
    · have closed := ih.2
      rw [member] at closed
      exact closesFollowed closed y
    · rw [List.getLast?_append]
      cases found : (block role n).getLast? with
      | none => exact ih.2
      | some last =>
        have closed := next.2
        rw [found] at closed
        exact closed

def slept (log : List Action) : Nat :=
  (log.map fun | .chThdSleepMilliseconds time => time | _ => 0).sum

def turns (log : List Action) : Nat := log.count .dw1000GetSensors
def restarts (log : List Action) : Nat := log.count .dw1000SoftresetRx

theorem sleptAppend (first second : List Action) :
    slept (first ++ second) = slept first + slept second := by
  simp [slept]

theorem turnsAppend (first second : List Action) :
    turns (first ++ second) = turns first + turns second := by
  simp [turns]

theorem restartsAppend (first second : List Action) :
    restarts (first ++ second) = restarts first + restarts second := by
  simp [restarts]

def pace : RangerRole → Nat
  | .anchor0 => 101
  | .anchor1 => 201
  | .anchor2 => 301
  | .anchor3 => 401
  | .node1 | .node2 => 41
  | .node3 => 2001
  | .undefined => 1

theorem bodySlept (role : RangerRole) (again : Bool) : slept (body role again) = pace role := by
  cases role <;> cases again <;> rfl

theorem bodyTurns (role : RangerRole) (again : Bool) : turns (body role again) = 1 := by
  cases role <;> cases again <;> rfl

theorem bodyRestarts (role : RangerRole) (again : Bool) :
    restarts (body role again) = if again then 1 else 0 := by
  cases role <;> cases again <;> rfl

structure Counted (role : RangerRole) (n : Nat) (log : List Action) : Prop where
  time : slept log = pace role * n
  begun : turns log = n
  restarted : restarts log = n / 500

theorem historyCounted (role : RangerRole) (n : Nat) : Counted role n (history role (n + 1)) := by
  induction n with
  | zero => cases role <;> exact ⟨rfl,rfl,rfl⟩
  | succ n ih =>
    rw [historyNext,blockTurn]
    refine ⟨?_,?_,?_⟩
    · rw [sleptAppend,ih.time,bodySlept,Nat.mul_succ]
    · rw [turnsAppend,ih.begun,bodyTurns]
    · rw [restartsAppend,ih.restarted,bodyRestarts]
      simp only [decide_eq_true_eq]
      split <;> omega

theorem logPrefix {out : Outside} {uid : UInt64} {s : State} (h : Sound out uid s) :
    ∃ n, s.log <+: history (getRole uid) (n + 1) := by
  by_cases inside : s.locals = none
  · rw [(h.before inside).2]
    exact ⟨0,List.nil_prefix⟩
  · obtain ⟨n,done,looping⟩ := h.looping inside
    refine ⟨n,s.pending,?_⟩
    rw [looping.behind,historyNext,looping.ahead,List.append_assoc]

structure Ranging (uid : UInt64) (s : State) : Prop where
  nodes : requests s.log ≠ [] → Ranges (getRole uid)
  cyclic : ∀ i dst, (requests s.log)[i]? = some dst → dst.toNat = i % 4
  ordered : s.log.IsChain Follows

theorem soundRanging {out : Outside} {uid : UInt64} {s : State} (h : Sound out uid s) :
    Ranging uid s := by
  obtain ⟨n,rest,whole⟩ := logPrefix h
  have asked := historyRequests (getRole uid) n
  rw [← whole,requests,List.filterMap_append] at asked
  change requests s.log ++ requests rest = _ at asked
  refine ⟨?_,?_,?_⟩
  · intro some
    by_cases ranges : Ranges (getRole uid)
    · exact ranges
    · rw [if_neg ranges] at asked
      exact absurd (List.append_eq_nil_iff.mp asked).1 some
  · intro i dst found
    have inside := List.getElem?_eq_some_iff.mp found
    have there : (requests s.log ++ requests rest)[i]? = some dst := by
      rw [List.getElem?_append_left inside.1,found]
    rw [asked] at there
    split at there
    · simp only [List.getElem?_map,Option.map_eq_some_iff] at there
      obtain ⟨k,at_,rfl⟩ := there
      obtain ⟨_,same⟩ := List.getElem?_eq_some_iff.mp at_
      rw [List.getElem_range] at same
      rw [← same,UInt16.toNat_ofNat']
      omega
    · simp at there
  · have ordered := (historyOrdered (getRole uid) (n + 1)).1
    rw [← whole] at ordered
    exact (List.isChain_append.mp ordered).1

theorem rangingAlways (out : Outside) (uid : UInt64) (events : List Startup.Event) :
    Always (step out uid) (Ranging uid) powerOn events :=
  alwaysMono (fun _ => soundRanging) (invariant stepSound (powerOnSound out uid) events)

structure Paced (uid : UInt64) (s : State) : Prop where
  bounded : ∀ l, s.locals = some l → 1 ≤ l.perLoop ∧ l.perLoop ≤ 500
  atLeast : pace (getRole uid) * (turns s.log - 1) ≤ slept s.log
  atMost : slept s.log ≤ pace (getRole uid) * turns s.log
  restarted : 500 * restarts s.log ≤ turns s.log
  due : turns s.log ≤ 500 * restarts s.log + 500

theorem openingCounted {role : RangerRole} {done rest : List Action}
    (split : opening role = done ++ rest) : Counted role 0 done := by
  have none : slept (opening role) = 0 ∧ turns (opening role) = 0 ∧ restarts (opening role) = 0 := by
    cases role <;> exact ⟨rfl,rfl,rfl⟩
  rw [split,sleptAppend,turnsAppend,restartsAppend] at none
  exact ⟨by omega,by omega,by omega⟩

structure Within (role : RangerRole) (again : Bool) (done : List Action) : Prop where
  time : slept done ≤ pace role
  asleep : turns done = 0 → slept done = 0
  begun : turns done ≤ 1
  restarted : restarts done ≤ if again then 1 else 0
  later : restarts done ≤ turns done

theorem bodyWithin {role : RangerRole} {again : Bool} {done rest : List Action}
    (split : body role again = done ++ rest) : Within role again done := by
  have total := bodySlept role again
  have once := bodyTurns role again
  have restarted := bodyRestarts role again
  rw [split,sleptAppend] at total
  rw [split,turnsAppend] at once
  rw [split,restartsAppend] at restarted
  have most : restarts done ≤ if again then 1 else 0 := by omega
  cases done with
  | nil => exact ⟨Nat.zero_le _,fun _ => rfl,Nat.zero_le _,Nat.zero_le _,Nat.le_refl _⟩
  | cons first done =>
    have head : first = .dw1000GetSensors := (List.cons.inj split).1.symm
    have begun : 1 ≤ turns (first::done) := by
      rw [head,turns,List.count_cons_self]
      omega
    refine ⟨by omega,by omega,by omega,most,?_⟩
    split at most <;> omega

theorem soundPaced {out : Outside} {uid : UInt64} {s : State} (h : Sound out uid s) :
    Paced uid s := by
  by_cases inside : s.locals = none
  · have empty := (h.before inside).2
    refine ⟨fun l same => ?_,?_,?_,?_,?_⟩
    · rw [inside] at same
      contradiction
    all_goals simp [empty,slept,turns,restarts]
  · obtain ⟨n,done,looping⟩ := h.looping inside
    obtain ⟨dst,locals⟩ := looping.locals
    have bounded : ∀ l, s.locals = some l → 1 ≤ l.perLoop ∧ l.perLoop ≤ 500 := by
      intro l same
      cases Option.some.inj (locals.symm.trans same)
      simp only
      omega
    cases n with
    | zero =>
      have counted := openingCounted looping.ahead
      have here : s.log = done := looping.behind
      rw [← here] at counted
      have time := counted.time
      have begun := counted.begun
      have restarted := counted.restarted
      exact ⟨bounded,by simp [time,begun],by omega,by omega,by omega⟩
    | succ n =>
      have counted := historyCounted (getRole uid) n
      have within := bodyWithin ((blockTurn (getRole uid) n).symm.trans looping.ahead)
      have time : slept s.log = pace (getRole uid) * n + slept done := by
        rw [looping.behind,sleptAppend,counted.time]
      have begun : turns s.log = n + turns done := by
        rw [looping.behind,turnsAppend,counted.begun]
      have restarted : restarts s.log = n / 500 + restarts done := by
        rw [looping.behind,restartsAppend,counted.restarted]
      have most := within.restarted
      simp only [decide_eq_true_eq] at most
      have later := within.later
      have once := within.begun
      refine ⟨bounded,?_,?_,?_,?_⟩
      · rw [time,begun]
        exact Nat.le_add_right_of_le (Nat.mul_le_mul_left _ (by omega))
      · rw [time,begun,Nat.mul_add]
        refine Nat.add_le_add_left ?_ _
        by_cases begun : turns done = 0
        · rw [within.asleep begun]
          exact Nat.zero_le _
        · exact within.time.trans (Nat.le_mul_of_pos_right _ (by omega))
      · split at most <;> omega
      · omega

theorem paceAlways (out : Outside) (uid : UInt64) (events : List Startup.Event) :
    Always (step out uid) (Paced uid) powerOn events :=
  alwaysMono (fun _ => soundPaced) (invariant stepSound (powerOnSound out uid) events)

def anchorUid (dst : UInt16) : UInt64 :=
  if dst = 0 then 0xffff0c0412000ba3
  else if dst = 1 then 0xffff34fc11000ba3
  else if dst = 2 then 0xffff4cee11000ba3
  else 0xffff5ffc11000ba3

theorem addressUid (uid : UInt64) (peer : (ieeshortaddr (getRole uid)).toNat < 4) :
    uid = anchorUid (ieeshortaddr (getRole uid)) := by
  revert peer
  unfold getRole
  repeat' split
  all_goals
    intro peer
    first | assumption | exact absurd peer (by decide)

theorem addressOnce {dst : UInt16} (peer : dst.toNat < 4) :
    ¬Ranges (getRole (anchorUid dst)) ∧
      ∀ uid, ieeshortaddr (getRole uid) = dst ↔ uid = anchorUid dst := by
  have which : dst = 0 ∨ dst = 1 ∨ dst = 2 ∨ dst = 3 := by
    simp only [← UInt16.toNat_inj]
    change dst.toNat = 0 ∨ dst.toNat = 1 ∨ dst.toNat = 2 ∨ dst.toNat = 3
    omega
  refine ⟨?_,fun uid => ⟨?_,?_⟩⟩
  · rcases which with rfl | rfl | rfl | rfl <;> decide
  · rintro rfl
    exact addressUid uid peer
  · rintro rfl
    rcases which with rfl | rfl | rfl | rfl <;> decide

/-- Of the boards that have set up their radio exactly one has the address a request goes to,
and it is one that never makes a request. -/
theorem peersUnique {out : Outside} (keeps : Startup.KeepsShortaddr out.toOutside) {uid : UInt64}
    {events : List Startup.Event} {s : State} {dst : UInt16}
    (reached : run (step out uid) powerOn events = some s) (asked : dst ∈ requests s.log) :
    ∃ peer ≠ uid, ∀ other others t, run (step out other) powerOn others = some t →
      t.startup.main = [] → (t.startup.dw.config = some ⟨dst⟩ ↔ other = peer) ∧
        (other = peer → requests t.log = []) := by
  have ranging := soundRanging (invariantRun stepSound (powerOnSound out uid) reached)
  obtain ⟨i,found⟩ := List.getElem?_of_mem asked
  have turn := ranging.cyclic i dst found
  have peer : dst.toNat < 4 := by omega
  obtain ⟨silent,only⟩ := addressOnce peer
  refine ⟨anchorUid dst,?_,fun other others t reachedToo finished => ?_⟩
  · rintro rfl
    exact silent (ranging.nodes (List.ne_nil_of_mem asked))
  · have sound := invariantRun stepSound (powerOnSound out other) reachedToo
    refine ⟨?_,?_⟩
    · rw [(Startup.settled sound.settles finished).config,Startup.confKept keeps,← only other]
      simp
    · rintro rfl
      exact Decidable.not_not.mp fun some => silent ((soundRanging sound).nodes some)

theorem peersUniqueNode :
    let events := Startup.startToEnd ++ List.replicate 8 .main
    ∃ s, run (step documented 0xffff120b12000ba3) powerOn events = some s ∧
      ∃ peer ≠ 0xffff120b12000ba3, ∀ other others t,
        run (step documented other) powerOn others = some t → t.startup.main = [] →
          (t.startup.dw.config = some ⟨0⟩ ↔ other = peer) ∧ (other = peer → requests t.log = []) := by
  intro events
  have asks : (run (step documented 0xffff120b12000ba3) powerOn events).map
      (fun s => requests s.log) = some [0] := by
    decide +kernel
  obtain ⟨s,reached,asked⟩ := Option.map_eq_some_iff.mp asks
  refine ⟨s,reached,peersUnique (fun _ _ => rfl) reached ?_⟩
  rw [asked]
  exact List.mem_cons_self

end Fresknode.MainLoop
