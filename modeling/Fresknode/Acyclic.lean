import Fresknode.Chains
import Mathlib.Data.Fintype.EquivFin
import Mathlib.Logic.Relation

/-! Memories of next pointers without a cycle. In a finite one that means that the
chain from every node ends, so a loop over any of them does. -/
namespace Fresknode.Chains
open Relation

variable {ν : Type _} {next : ν → Option ν}

def Links (next : ν → Option ν) (a b : ν) : Prop := next a = some b

def Acyclic (next : ν → Option ν) : Prop := ∀ n, ¬TransGen (Links next) n n

theorem descends [Finite ν] (h : Acyclic next) :
    WellFounded fun b a => TransGen (Links next) a b := by
  have transitive : IsTrans ν fun b a => TransGen (Links next) a b :=
    ⟨fun _ _ _ later earlier => earlier.trans later⟩
  have irreflexive : Std.Irrefl fun b a => TransGen (Links next) a b := ⟨h⟩
  exact Finite.wellFounded_of_trans_of_irrefl _

theorem chainEnds [Finite ν] (h : Acyclic next) (p : Option ν) : ∃ l, Chain next p l := by
  cases p with
  | none => exact ⟨[],.null⟩
  | some n =>
    induction n using (descends h).induction with
    | _ n ih =>
      cases link : next n with
      | none => exact ⟨[n],.node (by rw [link]; exact .null)⟩
      | some m =>
        obtain ⟨l,rest⟩ := ih m (.single link)
        exact ⟨n::l,.node (by rw [link]; exact rest)⟩

theorem chainCovers {a b : ν} {l : List ν} (path : TransGen (Links next) a b)
    (h : Chain next (next a) l) : b ∈ l := by
  induction path with
  | @single b link =>
    rw [show next a = some b from link] at h
    cases h
    exact List.mem_cons_self
  | @tail b c path link ih =>
    obtain ⟨front,rest,rfl,tail⟩ := chainTail h ih
    rw [show next b = some c from link] at tail
    cases tail
    simp

theorem acyclicOfEnds (h : ∀ n, ∃ l, Chain next (some n) l) : Acyclic next := by
  intro n cycle
  obtain ⟨l,chain⟩ := h n
  have once := chainNodup chain
  cases chain with
  | node rest => exact (List.nodup_cons.mp once).1 (chainCovers cycle rest)

theorem acyclicDecided [Fintype ν] :
    Acyclic next ↔ ∀ n, (walk next (Fintype.card ν) (some n)).isSome := by
  constructor
  · intro h n
    obtain ⟨l,chain⟩ := chainEnds h (some n)
    rw [walkExact.mpr chain]
    rfl
  · intro h
    refine acyclicOfEnds fun n => ?_
    obtain ⟨l,found⟩ := Option.isSome_iff_exists.mp (h n)
    exact ⟨l,walkExact.mp found⟩

instance [Fintype ν] : Decidable (Acyclic next) := decidable_of_iff _ acyclicDecided.symm

section Updates
variable [DecidableEq ν] {m n : ν}

theorem acyclicCut (h : Acyclic next) (n : ν) : Acyclic (Function.update next n none) := by
  have fewer : Links (Function.update next n none) ≤ Links next := by
    intro a b link
    unfold Links at link
    by_cases same : a = n
    · rw [same,Function.update_self] at link
      contradiction
    · rwa [Function.update_of_ne same] at link
  exact fun k cycle => h k (TransGen.mono fewer k k cycle)

theorem pathOverLink (ends : next n = none) (apart : n ≠ m) {a b : ν}
    (path : TransGen (Links (Function.update next m (some n))) a b) :
    TransGen (Links next) a b ∨ b = n := by
  have stuck : ∀ c, ¬Links (Function.update next m (some n)) n c := by
    intro c link
    rw [Links,Function.update_of_ne apart,ends] at link
    contradiction
  have old : ∀ b c, Links (Function.update next m (some n)) b c → Links next b c ∨ c = n := by
    intro b c link
    unfold Links at link ⊢
    by_cases same : b = m
    · rw [same,Function.update_self] at link
      exact .inr (Option.some.inj link).symm
    · rw [Function.update_of_ne same] at link
      exact .inl link
  induction path with
  | single link =>
    rcases old _ _ link with kept | reached
    · exact .inl (.single kept)
    · exact .inr reached
  | tail path link ih =>
    rcases ih with before | reached
    · rcases old _ _ link with kept | last
      · exact .inl (before.tail kept)
      · exact .inr last
    · rw [reached] at link
      exact absurd link (stuck _)

theorem acyclicLink (h : Acyclic next) (ends : next n = none) (apart : n ≠ m) :
    Acyclic (Function.update next m (some n)) := by
  intro k cycle
  rcases pathOverLink ends apart cycle with old | reached
  · exact h k old
  · obtain ⟨c,link,_⟩ := TransGen.head'_iff.mp cycle
    rw [Links,reached,Function.update_of_ne apart,ends] at link
    contradiction

theorem acyclicAppend (h : Acyclic next) (m n : ν) :
    Acyclic (Function.update (Function.update next m (some n)) n none) := by
  by_cases same : n = m
  · rw [same,Function.update_idem]
    exact acyclicCut h m
  · rw [Function.update_comm (Ne.symm same)]
    exact acyclicLink (acyclicCut h n) (Function.update_self n none next) same

end Updates

end Fresknode.Chains
