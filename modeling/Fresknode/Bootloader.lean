import Fresknode.Runs
import Mathlib.Data.List.Chain

/-! bootloader.c over any number of resets, with its check made in __early_init as it asks
for. The magic word lies at the end of RAM, which a reset keeps and a power-up does not, and
where the application may store for itself. `log` only remembers what became of the word and
of each start. -/
namespace Fresknode.Bootloader
open Runs

def bootloaderMagicValue : UInt32 := 0xdeadbeef

inductive Mode where
  | resetting
  | running
  | stopped
  deriving DecidableEq, Repr

inductive Mark where
  | powerUp (val : UInt32)
  | stored (val : UInt32)
  | asked
  | started
  | stopped
  deriving DecidableEq, Repr

structure Board where
  magic : UInt32
  mode : Mode
  log : List Mark
  deriving DecidableEq, Repr

def powerUp (val : UInt32) : Board := ⟨val,.resetting,[.powerUp val]⟩

def u32BootloaderGetMagicValue (s : Board) : UInt32 := s.magic
def vBootloaderSetMagicValue (s : Board) (val : UInt32) : Board := {s with magic := val}

-- the jump to the DFU is commented out, so the check ends in its loop
def vBootloaderStartupCheck (s : Board) : Board :=
  if u32BootloaderGetMagicValue s = bootloaderMagicValue then
    {vBootloaderSetMagicValue s 0 with mode := .stopped, log := s.log ++ [.stopped]}
  else {s with mode := .running, log := s.log ++ [.started]}

def vBootloaderResetAndStartDFU (s : Board) : Board :=
  {vBootloaderSetMagicValue s bootloaderMagicValue with
    mode := .resetting
    log := s.log ++ [.asked]}

inductive Event where
  | earlyInit
  | resetAndStartDFU
  | store (val : UInt32)
  | reset
  | powerUp (val : UInt32)
  deriving DecidableEq, Repr

def step (s : Board) : Event → Option Board
  | .earlyInit => if s.mode = .resetting then some (vBootloaderStartupCheck s) else none
  | .resetAndStartDFU => if s.mode = .running then some (vBootloaderResetAndStartDFU s) else none
  | .store val =>
    if s.mode = .running then some {s with magic := val, log := s.log ++ [.stored val]} else none
  | .reset => some {s with mode := .resetting}
  | .powerUp val => some ⟨val,.resetting,s.log ++ [.powerUp val]⟩

def wordAfter (word : UInt32) : Mark → UInt32
  | .powerUp val | .stored val => val
  | .asked => bootloaderMagicValue
  | .started => word
  | .stopped => 0

def word (log : List Mark) : UInt32 := log.foldl wordAfter 0

theorem wordNext (log : List Mark) (m : Mark) : word (log ++ [m]) = wordAfter (word log) m := by
  simp [word]

def openAfter (pending : Bool) : Mark → Bool
  | .asked => true
  | .stopped | .powerUp _ => false
  | .stored _ | .started => pending

def pending (log : List Mark) : Bool := log.foldl openAfter false

theorem pendingNext (log : List Mark) (m : Mark) :
    pending (log ++ [m]) = openAfter (pending log) m := by
  simp [pending]

def Decided (log : List Mark) : Prop := ∀ early m late, log = early ++ m::late →
  (m = .stopped → word early = bootloaderMagicValue) ∧ (m = .started → pending early = false)

theorem decidedNext {log : List Mark} {m : Mark} (h : Decided log)
    (stopped : m = .stopped → word log = bootloaderMagicValue)
    (started : m = .started → pending log = false) : Decided (log ++ [m]) := by
  intro early k late split
  rcases List.eq_nil_or_concat late with rfl | ⟨more,last,rfl⟩
  · obtain ⟨rfl,same⟩ := List.append_inj' split rfl
    cases same
    exact ⟨stopped,started⟩
  · rw [List.concat_eq_append,← List.cons_append,← List.append_assoc] at split
    exact h early k more (List.append_inj' split rfl).1

structure Sound (s : Board) : Prop where
  word : s.magic = word s.log
  waits : pending s.log = true → s.magic = bootloaderMagicValue ∧ s.mode = .resetting
  decided : Decided s.log

theorem closed {s : Board} (h : Sound s)
    (other : s.magic ≠ bootloaderMagicValue ∨ s.mode = .running) : pending s.log = false := by
  cases found : pending s.log with
  | false => rfl
  | true =>
    obtain ⟨magic,mode⟩ := h.waits found
    rcases other with other | running
    · exact absurd magic other
    · exact absurd (mode.symm.trans running) (by decide)

theorem checkSound {s : Board} (h : Sound s) : Sound (vBootloaderStartupCheck s) := by
  unfold vBootloaderStartupCheck u32BootloaderGetMagicValue
  split
  · rename_i magic
    have answered : pending (s.log ++ [.stopped]) = false := pendingNext _ _
    refine ⟨(wordNext s.log .stopped).symm,fun still => ?_,?_⟩
    · exact absurd (answered.symm.trans still) (by decide)
    · rw [h.word] at magic
      exact decidedNext h.decided (fun _ => magic) (by simp)
  · rename_i other
    have none := closed h (.inl other)
    have same : pending (s.log ++ [.started]) = false := (pendingNext _ _).trans none
    refine ⟨h.word.trans (wordNext s.log .started).symm,fun still => ?_,?_⟩
    · exact absurd (same.symm.trans still) (by decide)
    · exact decidedNext h.decided (by simp) (fun _ => none)

theorem stepSound (s : Board) (e : Event) (t : Board) (h : Sound s) (taken : step s e = some t) :
    Sound t := by
  cases e with
  | earlyInit =>
    simp only [step] at taken
    split at taken <;> try contradiction
    cases Option.some.inj taken
    exact checkSound h
  | resetAndStartDFU =>
    simp only [step] at taken
    split at taken <;> try contradiction
    cases Option.some.inj taken
    exact ⟨(wordNext s.log .asked).symm,fun _ => ⟨rfl,rfl⟩,decidedNext h.decided (by simp) (by simp)⟩
  | store val =>
    simp only [step] at taken
    split at taken <;> try contradiction
    rename_i running
    cases Option.some.inj taken
    have same : pending (s.log ++ [.stored val]) = false :=
      (pendingNext _ _).trans (closed h (.inr running))
    refine ⟨(wordNext s.log (.stored val)).symm,fun still => ?_,decidedNext h.decided (by simp) (by simp)⟩
    exact absurd (same.symm.trans still) (by decide)
  | reset =>
    cases Option.some.inj taken
    exact ⟨h.word,fun still => ⟨(h.waits still).1,rfl⟩,h.decided⟩
  | powerUp val =>
    cases Option.some.inj taken
    have lost : pending (s.log ++ [.powerUp val]) = false := pendingNext _ _
    refine ⟨(wordNext s.log (.powerUp val)).symm,fun still => ?_,decidedNext h.decided (by simp) (by simp)⟩
    exact absurd (lost.symm.trans still) (by decide)

def Ends (m : Mark) : Prop := m = .stopped ∨ ∃ val, m = .powerUp val

theorem pendingKept {marks : List Mark} (none : ∀ m ∈ marks, ¬Ends m) :
    marks.foldl openAfter true = true := by
  induction marks with
  | nil => rfl
  | cons m marks ih =>
    have stays : openAfter true m = true := by
      cases m with
      | stopped => exact absurd (.inl rfl) (none .stopped List.mem_cons_self)
      | powerUp val => exact absurd (.inr ⟨val,rfl⟩) (none (.powerUp val) List.mem_cons_self)
      | _ => rfl
    rw [List.foldl_cons,stays]
    exact ih fun k member => none k (List.mem_cons_of_mem m member)

def Sets (m : Mark) : Prop := ∃ before, before ≠ bootloaderMagicValue ∧
  wordAfter before m = bootloaderMagicValue

theorem unsetKept {marks : List Mark} {before : UInt32} (clear : before ≠ bootloaderMagicValue)
    (none : ∀ m ∈ marks, ¬Sets m) : marks.foldl wordAfter before ≠ bootloaderMagicValue := by
  induction marks generalizing before with
  | nil => exact clear
  | cons m marks ih =>
    have next : wordAfter before m ≠ bootloaderMagicValue :=
      fun set => none m List.mem_cons_self ⟨before,clear,set⟩
    exact ih next fun k member => none k (List.mem_cons_of_mem m member)

structure BootsOnce (log : List Mark) : Prop where
  asked : ∀ early between late, log = early ++ .asked::(between ++ .started::late) →
    ∃ m ∈ between, Ends m
  again : ∀ early between late, log = early ++ .stopped::(between ++ .stopped::late) →
    ∃ m ∈ between, Sets m

theorem soundBoots {s : Board} (h : Sound s) : BootsOnce s.log := by
  constructor
  · intro early between late split
    by_contra none
    rw [← List.cons_append,← List.append_assoc] at split
    have answered := (h.decided _ _ _ split).2 rfl
    have kept := pendingKept fun m member ends => none ⟨m,member,ends⟩
    rw [pending,List.foldl_append,List.foldl_cons] at answered
    exact absurd (kept.symm.trans answered) (by decide)
  · intro early between late split
    by_contra none
    rw [← List.cons_append,← List.append_assoc] at split
    have stopped := (h.decided _ _ _ split).1 rfl
    have clear : (0 : UInt32) ≠ bootloaderMagicValue := by decide
    rw [word,List.foldl_append,List.foldl_cons] at stopped
    exact unsetKept clear (fun m member set => none ⟨m,member,set⟩) stopped

theorem bootsAlways (val : UInt32) (events : List Event) :
    Always step (fun s => BootsOnce s.log) (powerUp val) events := by
  refine alwaysMono (fun _ => soundBoots) (invariant stepSound ⟨rfl,?_,?_⟩ events)
  · simp [powerUp,pending,openAfter]
  intro early m late split
  cases early with
  | nil =>
    cases (List.cons.inj split).1
    exact ⟨nofun,nofun⟩
  | cons k early =>
    have tail := (List.cons.inj split).2
    simp at tail

end Fresknode.Bootloader
