import Fresknode.SystemLifecycle

/-! A restart of the system. Nothing in system_init.c enables again the tick that a
shutdown disables, or takes back a shutdown request. `observe` is what a caller sees of its
calls in turn, up to the first that does not return. -/
namespace Fresknode.SystemInit
open Chains Runs

variable {ν τ : Type} [Fintype ν] [DecidableEq ν]

def tickWakes (systick : Bool) : Bool := systick

def observe (wakes : Bool → Bool) : State ν τ → List (Call ν) → List (Option (Answer τ))
  | _,[] => []
  | s,c::calls =>
    match call wakes s c with
    | none => [none]
    | some (t,o) => some o :: observe wakes t calls

theorem initSleeps {s : State ν τ} (off : s.systick = false) : call tickWakes s .init = none := by
  simp only [call,vSystemInit]
  split
  · simp [vSystemInitList,tickWakes,off]
  · rfl

theorem coldInitReturns (next : ν → Option ν) (thread : ν → τ) :
    ∃ t o, call tickWakes (coldStart next thread) .init = some (t,o) := by
  simp [call,vSystemInit,vSystemInitList,tickWakes,coldStart]

theorem requestKept {wakes} {s t : State ν τ} {c : Call ν} {o : Answer τ}
    (taken : call wakes s c = some (t,o)) : t.shutdownRequested =
      (s.shutdownRequested || c == .requestShutdown systemShutdownKey) := by
  cases c with
  | init =>
    obtain ⟨⟨u,actions⟩,began,same⟩ := Option.map_eq_some_iff.mp taken
    cases same
    unfold vSystemInit at began
    split at began <;> try contradiction
    obtain ⟨_,_,same⟩ := Option.map_eq_some_iff.mp began
    cases same
    exact (Bool.or_false _).symm
  | deinit =>
    obtain ⟨_,_,rfl,_⟩ := deinitReturned taken
    exact (Bool.or_false _).symm
  | shutdownRequested =>
    cases Option.some.inj taken
    exact (Bool.or_false _).symm
  | requestShutdown key =>
    cases Option.some.inj taken
    unfold vSystemRequestShutdown
    split
    · next same => simp [same]
    · next other => simp [other]
  | subscribe sub =>
    obtain ⟨subs,_,same⟩ := Option.map_eq_some_iff.mp taken
    cases same
    exact (Bool.or_false _).symm

theorem requestsKept {wakes} {s t : State ν τ} {calls : List (Call ν)} {answers : List (Answer τ)}
    (done : exec (call wakes) s calls = some (t,answers)) : t.shutdownRequested =
      (s.shutdownRequested || calls.any (· == .requestShutdown systemShutdownKey)) := by
  induction calls generalizing s answers with
  | nil =>
    cases Option.some.inj done
    exact (Bool.or_false _).symm
  | cons c calls ih =>
    obtain ⟨u,o,rest,taken,later,_⟩ := execCons.mp done
    rw [ih later,requestKept taken,List.any_cons,Bool.or_assoc]

/-- After any run that ends with a shutdown, vSystemInit never returns, where the first
one from cold start over the same nodes does. -/
theorem restartNeverReturns (next : ν → Option ν) (thread : ν → τ) (calls : List (Call ν))
    {s : State ν τ} {answers : List (Answer τ)}
    (stopped : exec (call tickWakes) (coldStart next thread) (calls ++ [.deinit]) = some (s,answers))
    (later : List (Call ν)) :
    observe tickWakes s (.init::later) ≠
      observe tickWakes (coldStart s.subs.next thread) (.init::later) := by
  obtain ⟨t,first,second,_,last,_⟩ := execAppend.mp stopped
  obtain ⟨u,o,rest,taken,ends,_⟩ := execCons.mp last
  cases Option.some.inj ends
  obtain ⟨l,_,rfl,_⟩ := deinitReturned taken
  obtain ⟨v,p,returned⟩ := coldInitReturns (τ := τ) t.subs.next thread
  simp [observe,initSleeps,returned]

theorem restartNeverReturnsOnce :
    ∃ s, silent (call tickWakes) (coldStart (fun _ : Fin 1 => none) id) .init = some s ∧
    ∃ t, silent (call tickWakes) s .deinit = some t ∧
      observe tickWakes t [.init] ≠ observe tickWakes (coldStart t.subs.next id) [.init] := by
  refine ⟨_,rfl,_,rfl,?_⟩
  exact restartNeverReturns (fun _ => none) id [.init] rfl []

theorem restartSleeps :
    let cold := coldStart (fun _ : Fin 1 => none) id
    (exec (call tickWakes) cold [.init,.deinit]).map (fun r => observe tickWakes r.1 [.init]) ≠
      some (observe tickWakes cold [.init]) := by
  decide

end Fresknode.SystemInit
