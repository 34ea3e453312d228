import Fresknode.EepromRoundTrip
import Fresknode.Runs

/-! The EEPROM driver called by any number of threads. eeprom_select owns the bus before it
selects the chip and eeprom_unselect gives it up after, so the bytes of two calls never mix:
byte by byte and thread by thread, the calls come to one whole call after the other. `spi`
says of which lengths a transfer of the SPI driver returns; `log` only remembers the calls
whose chip-select period has ended, and what they read. -/
namespace Fresknode.Eeprom
open Runs

inductive Position where
  | outside
  | spiAcquireBus (c : DriverCall)
  | spiSelect (c : DriverCall)
  | header (c : DriverCall) (todo : List UInt8)
  | data (c : DriverCall) (todo : List UInt8)
  | receiving (c : DriverCall) (left : Nat) (data : List UInt8)
  | spiUnselect (c : DriverCall) (data : List UInt8)
  | spiReleaseBus

structure Bus (θ : Type) where
  chip : Chip
  line : Option Selected
  owner : Option θ
  position : θ → Position
  log : List (DriverCall × List UInt8)

def idle {θ : Type} (chip : Chip) : Bus θ := ⟨chip,none,none,fun _ => .outside,[]⟩

inductive Event (θ : Type) where
  | call (t : θ) (c : DriverCall)
  | thread (t : θ)

def headerBytes : DriverCall → List UInt8
  | .read address _ => [0x03,address]
  | .write address _ => [0x02,address]

def afterHeader (c : DriverCall) : Position :=
  match c with
  | .read _ length => .receiving c length []
  | .write _ bytes => .data c bytes

def bodyLength : DriverCall → Nat
  | .read _ length => length
  | .write _ bytes => bytes.length

def exchange (line : Option Selected) (mosi : UInt8) : Option Selected × UInt8 :=
  match line with
  | none => (none,0xff)
  | some s => (some (clock s mosi).1,(clock s mosi).2)

variable {θ : Type} [DecidableEq θ]

def Bus.goto (s : Bus θ) (t : θ) (p : Position) : Bus θ :=
  {s with position := Function.update s.position t p}

def threadStep (spi : Nat → Bool) (s : Bus θ) (t : θ) : Option (Bus θ) :=
  match s.position t with
  | .outside => none
  | .spiAcquireBus c =>
    if s.owner = none then some {s.goto t (.spiSelect c) with owner := some t} else none
  | .spiSelect c =>
    some {s.goto t (.header c (headerBytes c)) with line := some (s.line.getD (spiSelect s.chip))}
  | .header c [] =>
    if spi (headerBytes c).length then some (s.goto t (afterHeader c)) else none
  | .header c (b::todo) => some {s.goto t (.header c todo) with line := (exchange s.line b).1}
  | .data c [] => if spi (bodyLength c) then some (s.goto t (.spiUnselect c [])) else none
  | .data c (b::todo) => some {s.goto t (.data c todo) with line := (exchange s.line b).1}
  | .receiving c 0 data =>
    if spi (bodyLength c) then some (s.goto t (.spiUnselect c data)) else none
  | .receiving c (n+1) data =>
    some {s.goto t (.receiving c n (data ++ [(exchange s.line 0xff).2])) with
      line := (exchange s.line 0xff).1}
  | .spiUnselect c data =>
    some {s.goto t .spiReleaseBus with
      chip := (s.line.map spiUnselect).getD s.chip
      line := none
      log := s.log ++ [(c,data)]}
  | .spiReleaseBus => some {s.goto t .outside with owner := none}

def busStep (spi : Nat → Bool) (s : Bus θ) : Event θ → Option (Bus θ)
  | .call t c =>
    match s.position t with
    | .outside => some (s.goto t (.spiAcquireBus c))
    | _ => none
  | .thread t => threadStep spi s t

def answer (chip : Chip) : DriverCall → Chip × List UInt8
  | .read address length => eepromRead chip address length
  | .write address data => (eepromWrite chip address data,[])

def whole (chip : Chip) (c : DriverCall) : Option (Chip × List UInt8) := some (answer chip c)

def owning : Position → Bool
  | .outside | .spiAcquireBus _ => false
  | _ => true

def finish (c : DriverCall) (s : Selected) : Chip × List UInt8 :=
  match c with
  | .read _ length => (spiUnselect (spiReceive s length).1,(spiReceive s length).2)
  | .write _ bytes => (spiUnselect (spiSend s bytes),[])

/- What the owner still does ends the call as the whole call would have. -/
def Held (chip : Chip) (line : Option Selected) : Position → Prop
  | .outside | .spiAcquireBus _ => False
  | .spiSelect _ | .spiReleaseBus => line = none
  | .header c todo => ∃ s, line = some s ∧ finish c (spiSend s todo) = answer chip c
  | .data c todo => ∃ s, line = some s ∧ (spiUnselect (spiSend s todo),[]) = answer chip c
  | .receiving c left data => ∃ s, line = some s ∧
      (spiUnselect (spiReceive s left).1,data ++ (spiReceive s left).2) = answer chip c
  | .spiUnselect c data => ∃ s, line = some s ∧ (spiUnselect s,data) = answer chip c

structure Sound (before : Chip) (s : Bus θ) : Prop where
  replay : exec whole before (s.log.map Prod.fst) = some (s.chip,s.log.map Prod.snd)
  free : s.owner = none → s.line = none
  mine : ∀ t, owning (s.position t) → s.owner = some t
  held : ∀ t, s.owner = some t → Held s.chip s.line (s.position t)

theorem headerFinishes (chip : Chip) (c : DriverCall) :
    finish c (spiSend (spiSelect chip) (headerBytes c)) = answer chip c := by
  cases c <;> rfl

theorem mineNext {s : Bus θ} {t : θ} {p : Position} (mine : ∀ t, owning (s.position t) → s.owner = some t)
    (still : owning p → s.owner = some t) (n : θ) (inside : owning (Function.update s.position t p n)) :
    s.owner = some n := by
  by_cases same : n = t
  · rw [same,Function.update_self] at inside
    rw [same]
    exact still inside
  · rw [Function.update_of_ne same] at inside
    exact mine n inside

theorem ownerSound {before : Chip} {s : Bus θ} {t : θ} (h : Sound before s)
    (inside : owning (s.position t)) {p : Position} (line : Option Selected)
    (held : Held s.chip line p) : Sound before {s.goto t p with line := line} := by
  have owner := h.mine t inside
  refine ⟨h.replay,fun free => ?_,fun n => mineNext h.mine (fun _ => owner) n,fun n holds => ?_⟩
  · exact absurd (owner.symm.trans free) nofun
  · cases Option.some.inj (owner.symm.trans holds)
    change Held s.chip line (Function.update s.position t p t)
    rw [Function.update_self]
    exact held

omit [DecidableEq θ] in
theorem heldBy {before : Chip} {s : Bus θ} {t : θ} (h : Sound before s) {p : Position}
    (here : s.position t = p) (inside : owning p) : Held s.chip s.line p := by
  have owner := h.mine t (by rw [here]; exact inside)
  have held := h.held t owner
  rwa [here] at held

theorem acquireSound {before : Chip} {s : Bus θ} {t : θ} {c : DriverCall} (h : Sound before s)
    (free : s.owner = none) : Sound before {s.goto t (.spiSelect c) with owner := some t} := by
  refine ⟨h.replay,nofun,fun n inside => ?_,fun n holds => ?_⟩
  · change owning (Function.update s.position t (.spiSelect c) n) at inside
    by_cases same : n = t
    · rw [same]
    · rw [Function.update_of_ne same] at inside
      exact absurd (free.symm.trans (h.mine n inside)) nofun
  · cases Option.some.inj holds
    change Held s.chip s.line (Function.update s.position t (.spiSelect c) t)
    rw [Function.update_self]
    exact h.free free

theorem unselectSound {before : Chip} {s : Bus θ} {t : θ} {c : DriverCall} {data : List UInt8}
    (h : Sound before s) (here : s.position t = .spiUnselect c data) :
    Sound before {s.goto t .spiReleaseBus with
      chip := (s.line.map spiUnselect).getD s.chip
      line := none
      log := s.log ++ [(c,data)]} := by
  obtain ⟨sel,line,rest⟩ := heldBy h here rfl
  have owner := h.mine t (by rw [here]; rfl)
  refine ⟨?_,fun _ => rfl,fun n => mineNext h.mine (fun _ => owner) n,fun n holds => ?_⟩
  · rw [line]
    simp only [Option.map_some,Option.getD_some,List.map_append,List.map_cons,List.map_nil]
    exact execAppend.mpr ⟨_,_,_,h.replay,by rw [exec,whole,← rest]; rfl,rfl⟩
  · cases Option.some.inj (owner.symm.trans holds)
    change Held _ none (Function.update s.position t .spiReleaseBus t)
    rw [Function.update_self]
    rfl

theorem releaseSound {before : Chip} {s : Bus θ} {t : θ} (h : Sound before s)
    (here : s.position t = .spiReleaseBus) : Sound before {s.goto t .outside with owner := none} := by
  have line : s.line = none := heldBy h here rfl
  have owner := h.mine t (by rw [here]; rfl)
  refine ⟨h.replay,fun _ => line,fun n inside => ?_,nofun⟩
  change owning (Function.update s.position t .outside n) at inside
  by_cases same : n = t
  · rw [same,Function.update_self] at inside
    contradiction
  · rw [Function.update_of_ne same] at inside
    exact absurd (Option.some.inj (owner.symm.trans (h.mine n inside))).symm same

theorem threadSound {spi : Nat → Bool} {before : Chip} {s u : Bus θ} {t : θ} (h : Sound before s)
    (taken : threadStep spi s t = some u) : Sound before u := by
  unfold threadStep at taken
  cases here : s.position t with
  | outside =>
    rw [here] at taken
    contradiction
  | spiAcquireBus c =>
    simp only [here] at taken
    split at taken <;> try contradiction
    cases Option.some.inj taken
    exact acquireSound h (by assumption)
  | spiSelect c =>
    simp only [here] at taken
    cases Option.some.inj taken
    have line : s.line = none := heldBy h here rfl
    refine ownerSound h (by rw [here]; rfl) _ ⟨_,rfl,?_⟩
    rw [line]
    exact headerFinishes s.chip c
  | header c todo =>
    obtain ⟨sel,line,rest⟩ := heldBy h here rfl
    cases todo with
    | nil =>
      simp only [here] at taken
      split at taken <;> try contradiction
      cases Option.some.inj taken
      refine ownerSound h (by rw [here]; rfl) s.line ?_
      cases c with
      | read address length => exact ⟨sel,line,rest⟩
      | write address bytes => exact ⟨sel,line,rest⟩
    | cons b todo =>
      simp only [here] at taken
      cases Option.some.inj taken
      exact ownerSound h (by rw [here]; rfl) _ ⟨(clock sel b).1,by rw [line]; rfl,rest⟩
  | data c todo =>
    obtain ⟨sel,line,rest⟩ := heldBy h here rfl
    cases todo with
    | nil =>
      simp only [here] at taken
      split at taken <;> try contradiction
      cases Option.some.inj taken
      exact ownerSound h (by rw [here]; rfl) s.line ⟨sel,line,rest⟩
    | cons b todo =>
      simp only [here] at taken
      cases Option.some.inj taken
      exact ownerSound h (by rw [here]; rfl) _ ⟨(clock sel b).1,by rw [line]; rfl,rest⟩
  | receiving c left data =>
    obtain ⟨sel,line,rest⟩ := heldBy h here rfl
    cases left with
    | zero =>
      simp only [here] at taken
      split at taken <;> try contradiction
      cases Option.some.inj taken
      refine ownerSound h (by rw [here]; rfl) s.line ⟨sel,line,?_⟩
      rw [← rest]
      simp only [spiReceive,List.append_nil]
    | succ n =>
      simp only [here] at taken
      cases Option.some.inj taken
      refine ownerSound h (by rw [here]; rfl) _ ⟨(clock sel 0xff).1,by rw [line]; rfl,?_⟩
      rw [← rest,line]
      simp only [spiReceive,exchange,List.append_assoc,List.singleton_append]
  | spiUnselect c data =>
    simp only [here] at taken
    cases Option.some.inj taken
    exact unselectSound h here
  | spiReleaseBus =>
    simp only [here] at taken
    cases Option.some.inj taken
    exact releaseSound h here

theorem busSound {spi : Nat → Bool} {before : Chip} (s : Bus θ) (e : Event θ) (u : Bus θ)
    (h : Sound before s) (taken : busStep spi s e = some u) : Sound before u := by
  cases e with
  | thread t => exact threadSound h taken
  | call t c =>
    simp only [busStep] at taken
    split at taken <;> try contradiction
    rename_i here
    cases Option.some.inj taken
    refine ⟨h.replay,h.free,fun n => mineNext h.mine (fun inside => by cases inside) n,fun n holds => ?_⟩
    have apart : n ≠ t := by
      rintro rfl
      have held := h.held n holds
      rwa [here] at held
    change Held s.chip s.line (Function.update s.position t (.spiAcquireBus c) n)
    rw [Function.update_of_ne apart]
    exact h.held n holds

omit [DecidableEq θ] in
theorem idleSound (chip : Chip) : Sound chip (idle chip : Bus θ) :=
  ⟨rfl,fun _ => rfl,nofun,nofun⟩

structure OneByOne (before : Chip) (s : Bus θ) : Prop where
  replay : exec whole before (s.log.map Prod.fst) = some (s.chip,s.log.map Prod.snd)
  exclusive : ∀ t n, owning (s.position t) → owning (s.position n) → t = n

theorem callsOneByOne (spi : Nat → Bool) (chip : Chip) (events : List (Event θ)) :
    Always (busStep spi) (OneByOne chip) (idle chip) events := by
  refine alwaysMono (fun s h => ⟨h.replay,fun t n first second => ?_⟩)
    (invariant busSound (idleSound chip) events)
  exact Option.some.inj ((h.mine t first).symm.trans (h.mine n second))

theorem clearReplay {before chip : Chip} (clear : before.latch = false) {calls : List DriverCall}
    {answers : List (List UInt8)} (done : exec whole before calls = some (chip,answers)) :
    chip = before ∧ answers = calls.map fun c => (answer before c).2 := by
  induction calls generalizing answers with
  | nil =>
    cases Option.some.inj done
    exact ⟨rfl,rfl⟩
  | cons c calls ih =>
    obtain ⟨next,first,rest,taken,later,rfl⟩ := execCons.mp done
    have called : answer before c = (next,first) := Option.some.inj taken
    have same : (answer before c).1 = before := by
      cases c with
      | read address length => simp only [answer,eepromReadExact]
      | write address data => exact eepromWriteClear clear address data
    rw [called] at same
    have unchanged : next = before := same
    rw [unchanged] at later
    obtain ⟨kept,answers⟩ := ih later
    exact ⟨kept,by rw [answers,List.map_cons,called]⟩

theorem readsKept (spi : Nat → Bool) {chip : Chip} (clear : chip.latch = false)
    (events : List (Event θ)) :
    Always (busStep spi) (fun s => s.chip = chip ∧ ∀ address length data,
      (.read address length,data) ∈ s.log → data = contents chip.memory address length)
      (idle chip) events := by
  refine alwaysMono (fun s h => ?_) (invariant busSound (idleSound chip) events)
  obtain ⟨kept,answers⟩ := clearReplay clear h.replay
  refine ⟨kept,fun address length data member => ?_⟩
  rw [List.map_map] at answers
  have each := List.map_inj_left.mp answers _ member
  simp only [Function.comp,answer,eepromReadExact] at each
  exact each

theorem readsKeptTwo :
    let chip : Chip := ⟨fun a => a,false⟩
    let events : List (Event (Fin 2)) := [.call 0 (.read 0xfa 2),.call 1 (.write 0xfa [7])] ++
      List.replicate 10 (.thread 0) ++ List.replicate 8 (.thread 1)
    (run (busStep fun n => 0 < n) (idle chip) events).map Bus.log =
        some [(.read 0xfa 2,[0xfa,0xfb]),(.write 0xfa [7],[])] ∧
      Always (busStep fun n => 0 < n) (fun s => s.chip = chip ∧ ∀ address length data,
        (.read address length,data) ∈ s.log → data = contents chip.memory address length)
        (idle chip) events :=
  ⟨by rfl,readsKept _ rfl _⟩

def stepsLeft : Position → Nat
  | .outside => 0
  | .spiReleaseBus => 1
  | .spiUnselect _ _ => 2
  | .receiving _ left _ => left + 3
  | .data _ todo => todo.length + 3
  | .header c todo => todo.length + bodyLength c + 4
  | .spiSelect c => bodyLength c + 7
  | .spiAcquireBus c => bodyLength c + 8

/- What the thread has to do, and before it another one that owns the bus. -/
def rank (t : θ) (s : Bus θ) : Nat :=
  stepsLeft (s.position t) +
    match s.owner with
    | none => 0
    | some n => if n = t then 0 else stepsLeft (s.position n)

end Fresknode.Eeprom
