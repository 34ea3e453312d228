import Mathlib.Data.Fintype.Card
import Mathlib.Logic.Function.Basic

/-! NULL-terminated chains through a memory of next pointers: the nodes met from a
pointer on, up to the NULL that ends them. `walk` is a loop over all of them, `search`
one that stops at the last. A loop is given as many turns as there are nodes, which
decides whether it ends at all: a chain longer than that is a cycle. -/
namespace Fresknode.Chains

variable {ν : Type _}

inductive Chain (next : ν → Option ν) : Option ν → List ν → Prop where
  | null : Chain next none []
  | node {n l} (rest : Chain next (next n) l) : Chain next (some n) (n::l)

variable {next : ν → Option ν}

theorem chainUnique {p l m} (a : Chain next p l) (b : Chain next p m) : l = m := by
  induction a generalizing m with
  | null => cases b; rfl
  | node rest ih =>
    cases b with
    | node other => rw [ih other]

theorem chainEmpty {p} (h : Chain next p []) : p = none := by
  cases h
  rfl

theorem chainNull {l} (h : Chain next none l) : l = [] := by
  cases h
  rfl

theorem chainHead {p l} (h : Chain next p l) : p = l.head? := by
  cases h <;> rfl

theorem chainTail {p l} (h : Chain next p l) {n} (member : n ∈ l) :
    ∃ front rest, l = front ++ n::rest ∧ Chain next (next n) rest := by
  induction h with
  | null => simp at member
  | @node k l rest ih =>
    rcases List.mem_cons.mp member with rfl | inside
    · exact ⟨[],l,rfl,rest⟩
    · obtain ⟨front,later,split,chain⟩ := ih inside
      exact ⟨k::front,later,by rw [split]; rfl,chain⟩

theorem chainNext {p front n rest} (h : Chain next p (front ++ n::rest)) :
    next n = rest.head? := by
  induction front generalizing p with
  | nil =>
    cases h with
    | node tail => exact chainHead tail
  | cons k front ih =>
    cases h with
    | node tail => exact ih tail

theorem chainWithin {S : ν → Prop} {p l} (h : Chain next p l) (first : ∀ b, p = some b → S b)
    (later : ∀ m c, next m = some c → S c) : ∀ n ∈ l, S n := by
  induction h with
  | null => exact nofun
  | @node k l rest ih =>
    intro n member
    rcases List.mem_cons.mp member with rfl | inside
    · exact first n rfl
    · exact ih (later k) n inside

theorem chainNodup {p l} (h : Chain next p l) : l.Nodup := by
  induction h with
  | null => exact List.nodup_nil
  | @node n l rest ih =>
    refine List.nodup_cons.mpr ⟨fun again => ?_,ih⟩
    obtain ⟨front,later,split,chain⟩ := chainTail rest again
    have same := chainUnique rest chain
    have lengths := congrArg List.length split
    rw [List.length_append,List.length_cons,same] at lengths
    omega

theorem chainBehind {p front m rest c} (h : Chain next p (front ++ m::rest))
    (link : next m = some c) : c ∈ rest ∧ c ∉ front ++ [m] := by
  have once := chainNodup h
  have behind : c ∈ rest := List.mem_of_head? ((chainNext h).symm.trans link)
  refine ⟨behind,fun before => ?_⟩
  rw [← List.singleton_append,← List.append_assoc] at once
  exact (List.nodup_append.mp once).2.2 c before c behind rfl

theorem lastOnly {front rest : List ν} {n : ν} (once : (front ++ n::rest).Nodup) :
    (front ++ n::rest).getLast? = some n ↔ rest = [] := by
  constructor
  · intro last
    rcases List.eq_nil_or_concat rest with empty | ⟨behind,m,rfl⟩
    · exact empty
    · rw [List.concat_eq_append,← List.cons_append,← List.append_assoc,List.getLast?_concat] at last
      cases Option.some.inj last
      simp [List.nodup_append] at once
  · intro empty
    rw [empty]
    exact List.getLast?_concat

theorem chainBounded [Fintype ν] {p l} (h : Chain next p l) : l.length ≤ Fintype.card ν :=
  (chainNodup h).length_le_card

def walk (next : ν → Option ν) : Nat → Option ν → Option (List ν)
  | _,none => some []
  | 0,some _ => none
  | turns+1,some n => (walk next turns (next n)).map (n::·)

def search (next : ν → Option ν) : Nat → ν → Option ν
  | turns,n =>
    match next n, turns with
    | none,_ => some n
    | some _,0 => none
    | some m,turns+1 => search next turns m

theorem walkChain {p l} (h : Chain next p l) {turns : Nat} (enough : l.length ≤ turns) :
    walk next turns p = some l := by
  induction h generalizing turns with
  | null => cases turns <;> rfl
  | @node n l rest ih =>
    cases turns with
    | zero => simp at enough
    | succ turns =>
      have tail := @ih turns (by simpa using enough)
      simp [walk,tail]

theorem chainOfWalk {turns : Nat} {p l} (h : walk next turns p = some l) : Chain next p l := by
  induction turns generalizing p l with
  | zero =>
    cases p with
    | none => cases Option.some.inj h; exact .null
    | some n => simp [walk] at h
  | succ turns ih =>
    cases p with
    | none => cases Option.some.inj h; exact .null
    | some n =>
      obtain ⟨rest,found,rfl⟩ := Option.map_eq_some_iff.mp h
      exact .node (ih found)

theorem walkExact [Fintype ν] {p l} : walk next (Fintype.card ν) p = some l ↔ Chain next p l :=
  ⟨chainOfWalk,fun h => walkChain h (chainBounded h)⟩

theorem searchChain {n l} (h : Chain next (some n) l) {turns : Nat}
    (enough : l.length ≤ turns+1) : search next turns n = l.getLast? := by
  induction l generalizing n turns with
  | nil => cases h
  | cons k l ih =>
    cases h with
    | node rest =>
      unfold search
      cases l with
      | nil => rw [chainEmpty rest]; rfl
      | cons m l =>
        cases turns with
        | zero => simp at enough
        | succ turns =>
          have more : next k = some m := chainHead rest
          rw [more] at rest ⊢
          rw [List.getLast?_cons_cons]
          exact ih rest (by simpa using enough)

section Updates
variable [DecidableEq ν]

theorem chainUpdate {p l} (h : Chain next p l) {n : ν} (outside : n ∉ l) (v : Option ν) :
    Chain (Function.update next n v) p l := by
  induction h with
  | null => exact .null
  | @node k l rest ih =>
    obtain ⟨apart,later⟩ := not_or.mp (mt List.mem_cons.mpr outside)
    refine .node ?_
    rw [Function.update_of_ne (Ne.symm apart)]
    exact ih later

theorem chainJoin {p front m q l} (h : Chain next p (front ++ [m]))
    (tail : Chain next q l) (apart : ∀ n ∈ front ++ [m], n ∉ l) :
    Chain (Function.update next m q) p (front ++ m::l) := by
  induction front generalizing p with
  | nil =>
    cases h with
    | node rest =>
      refine .node ?_
      rw [Function.update_self]
      exact chainUpdate tail (apart m List.mem_cons_self) q
  | cons k front ih =>
    have once := chainNodup h
    cases h with
    | node rest =>
      have other : k ≠ m := by
        rintro rfl
        simp at once
      refine .node ?_
      rw [Function.update_of_ne other]
      exact ih rest fun n member => apart n (List.mem_cons_of_mem k member)

theorem chainAppend {p front m} {n : ν} (h : Chain next p (front ++ [m]))
    (fresh : n ∉ front ++ [m]) :
    Chain (Function.update (Function.update next m (some n)) n none) p (front ++ [m,n]) := by
  have apart : n ≠ m := by
    rintro rfl
    simp at fresh
  have cleared : Chain (Function.update next n none) p (front ++ [m]) := chainUpdate h fresh none
  have single : Chain (Function.update next n none) (some n) [n] :=
    .node (by rw [Function.update_self]; exact .null)
  have joined := chainJoin cleared single (by
    intro k member same
    cases List.mem_singleton.mp same
    exact fresh member)
  rwa [Function.update_comm apart] at joined

theorem chainCut {p front n rest} (h : Chain next p (front ++ n::rest)) :
    Chain (Function.update next n none) p (front ++ [n]) := by
  induction front generalizing p with
  | nil =>
    cases h
    exact .node (by rw [Function.update_self]; exact .null)
  | cons k front ih =>
    have once := chainNodup h
    cases h with
    | node tail =>
      have other : k ≠ n := by
        rintro rfl
        simp at once
      refine .node ?_
      rw [Function.update_of_ne other]
      exact ih tail

theorem chainRelink {p front m rest} {n : ν} (h : Chain next p (front ++ m::rest))
    (ends : next n = none) (fresh : n ∉ front ++ [m]) :
    Chain (Function.update next m (some n)) p (front ++ [m,n]) := by
  have apart : n ≠ m := by
    intro same
    rw [same] at fresh
    exact fresh (by simp)
  have tail : Chain (Function.update next m none) (some n) [n] :=
    .node (by rw [Function.update_of_ne apart,ends]; exact .null)
  have joined := chainJoin (chainCut h) tail (by
    intro k member same
    cases List.mem_singleton.mp same
    exact fresh member)
  rwa [Function.update_idem] at joined

-- the same two stores for a node the chain has already: it loses all that came behind
theorem chainReappend {p front n rest m} (h : Chain next p (front ++ n::rest))
    (last : (front ++ n::rest).getLast? = some m) :
    Chain (Function.update (Function.update next m (some n)) n none) p (front ++ [n]) := by
  have once := chainNodup h
  have cut := chainCut h
  by_cases same : n = m
  · rw [same,Function.update_idem]
    rwa [same] at cut
  · have behind : m ∈ rest := by
      rcases List.eq_nil_or_concat rest with rfl | ⟨behind,k,rfl⟩
      · rw [List.getLast?_concat] at last
        exact absurd (Option.some.inj last) same
      · rw [List.concat_eq_append,← List.cons_append,← List.append_assoc,List.getLast?_concat] at last
        cases Option.some.inj last
        simp
    have outside : m ∉ front ++ [n] := by
      intro before
      rw [← List.singleton_append,← List.append_assoc] at once
      exact (List.nodup_append.mp once).2.2 m before m behind rfl
    rw [Function.update_comm (Ne.symm same)]
    exact chainUpdate cut outside (some n)

end Updates

end Fresknode.Chains
