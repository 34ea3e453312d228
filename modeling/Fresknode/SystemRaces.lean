import Fresknode.Acyclic
import Fresknode.SystemLifecycle

/-! vSystemCriticalTaskSubscribe in small steps, called by any number of threads at once,
one for each node. No lock is held, so two calls can reach the same end of the list. A task
is lost just where a store hits a field that is not NULL any more; otherwise the calls come
to one whole call after the other. `linked` only remembers the nodes stored into the list,
in that order. -/
namespace Fresknode.SystemRaces
open SystemInit Chains Runs

inductive Position (ν : Type) where
  | entry
  | first
  | start
  | testing (tmpSub : Option ν)
  | moving (tmpSub : ν)
  | saving (tmpSub : ν)
  | closing
  | returned
  deriving DecidableEq, Repr

structure State (ν : Type) where
  subs : Subscriptions ν
  position : ν → Position ν
  linked : List ν

def before {ν : Type} [DecidableEq ν] (subs : Subscriptions ν) (l : List ν) : State ν :=
  ⟨subs,fun n => if n ∈ l then .returned else .entry,l⟩

variable {ν : Type} [DecidableEq ν]

def State.goto (s : State ν) (sub : ν) (p : Position ν) : State ν :=
  {s with position := Function.update s.position sub p}

def afterTest (tmpSub : ν) : Option ν → Position ν
  | none => .saving tmpSub
  | some _ => .moving tmpSub

-- the condition of the loop and its body load tmp_sub->next anew
def vSystemCriticalTaskSubscribeStep (s : State ν) (sub : ν) : Option (State ν) :=
  match s.position sub with
  | .entry => some (s.goto sub (if s.subs.baseSubscription = none then .first else .start))
  | .first =>
    some {s.goto sub .returned with
      subs := {s.subs with baseSubscription := some sub}
      linked := s.linked ++ [sub]}
  | .start => some (s.goto sub (.testing s.subs.baseSubscription))
  | .testing none => none
  | .testing (some tmpSub) => some (s.goto sub (afterTest tmpSub (s.subs.next tmpSub)))
  | .moving tmpSub => some (s.goto sub (.testing (s.subs.next tmpSub)))
  | .saving tmpSub =>
    some {s.goto sub .closing with
      subs := {s.subs with next := Function.update s.subs.next tmpSub (some sub)}
      linked := s.linked ++ [sub]}
  | .closing =>
    some {s.goto sub .returned with
      subs := {s.subs with next := Function.update s.subs.next sub none}}
  | .returned => none

inductive Read (s : State ν) (sub : ν) : Position ν → Prop where
  | empty (here : s.position sub = .entry) (null : s.subs.baseSubscription = none) :
      Read s sub .first
  | nonempty (here : s.position sub = .entry) {base : ν}
      (found : s.subs.baseSubscription = some base) : Read s sub .start
  | base (here : s.position sub = .start) : Read s sub (.testing s.subs.baseSubscription)
  | last {m : ν} (here : s.position sub = .testing (some m)) (null : s.subs.next m = none) :
      Read s sub (.saving m)
  | more {m k : ν} (here : s.position sub = .testing (some m)) (found : s.subs.next m = some k) :
      Read s sub (.moving m)
  | advance {m : ν} (here : s.position sub = .moving m) : Read s sub (.testing (s.subs.next m))

inductive Moved (s : State ν) (sub : ν) : State ν → Prop where
  | read {p : Position ν} (how : Read s sub p) : Moved s sub (s.goto sub p)
  | first (here : s.position sub = .first) :
      Moved s sub {s.goto sub .returned with
        subs := {s.subs with baseSubscription := some sub}
        linked := s.linked ++ [sub]}
  | save {m : ν} (here : s.position sub = .saving m) :
      Moved s sub {s.goto sub .closing with
        subs := {s.subs with next := Function.update s.subs.next m (some sub)}
        linked := s.linked ++ [sub]}
  | close (here : s.position sub = .closing) :
      Moved s sub {s.goto sub .returned with
        subs := {s.subs with next := Function.update s.subs.next sub none}}

theorem moved {s t : State ν} {sub : ν}
    (taken : vSystemCriticalTaskSubscribeStep s sub = some t) : Moved s sub t := by
  unfold vSystemCriticalTaskSubscribeStep at taken
  split at taken <;> try contradiction
  all_goals
    rename_i here
    cases Option.some.inj taken
  · cases found : s.subs.baseSubscription with
    | none => exact .read (.empty here found)
    | some b => exact .read (.nonempty here found)
  · exact .first here
  · exact .read (.base here)
  · rename_i m
    cases found : s.subs.next m with
    | none => exact .read (.last here found)
    | some k => exact .read (.more here found)
  · exact .read (.advance here)
  · exact .save here
  · exact .close here

def Position.stored : Position ν → Bool
  | .closing | .returned => true
  | _ => false

def Position.tmpSub : Position ν → Option ν
  | .testing p => p
  | .moving m | .saving m => some m
  | _ => none

omit [DecidableEq ν] in
theorem readApart {s : State ν} {sub : ν} {p : Position ν} (how : Read s sub p) :
    (s.position sub).stored = false ∧ p.stored = false := by
  cases how with
  | empty here => exact ⟨by rw [here]; rfl,rfl⟩
  | nonempty here => exact ⟨by rw [here]; rfl,rfl⟩
  | base here => exact ⟨by rw [here]; rfl,rfl⟩
  | last here => exact ⟨by rw [here]; rfl,rfl⟩
  | more here => exact ⟨by rw [here]; rfl,rfl⟩
  | advance here => exact ⟨by rw [here]; rfl,rfl⟩

structure Sound (s : State ν) : Prop where
  fresh : ∀ n, n ∉ s.linked → s.subs.next n = none
  based : ∀ b, s.subs.baseSubscription = some b → b ∈ s.linked
  targets : ∀ m c, s.subs.next m = some c → c ∈ s.linked
  stored : ∀ n, n ∈ s.linked ↔ (s.position n).stored
  walkers : ∀ n m, (s.position n).tmpSub = some m → m ∈ s.linked
  listed : ∃ l, Chain s.subs.next s.subs.baseSubscription l
  acyclic : Acyclic s.subs.next

omit [DecidableEq ν] in
theorem readWalks {s : State ν} {sub : ν} {p : Position ν} (h : Sound s) (how : Read s sub p)
    {m : ν} (at_ : p.tmpSub = some m) : m ∈ s.linked := by
  cases how with
  | empty => cases at_
  | nonempty => cases at_
  | base => exact h.based m at_
  | last here =>
    refine h.walkers sub m ?_
    rw [here]
    exact at_
  | more here =>
    refine h.walkers sub m ?_
    rw [here]
    exact at_
  | advance => exact h.targets _ m at_

theorem readSound {s : State ν} {sub : ν} {p : Position ν} (h : Sound s) (how : Read s sub p) :
    Sound (s.goto sub p) := by
  have apart := readApart how
  refine ⟨h.fresh,h.based,h.targets,?_,?_,h.listed,h.acyclic⟩
  · intro n
    change n ∈ s.linked ↔ (Function.update s.position sub p n).stored
    by_cases same : n = sub
    · rw [same,Function.update_self,h.stored,apart.1,apart.2]
    · rw [Function.update_of_ne same]
      exact h.stored n
  · intro n m at_
    change (Function.update s.position sub p n).tmpSub = some m at at_
    by_cases same : n = sub
    · rw [same,Function.update_self] at at_
      exact readWalks h how at_
    · rw [Function.update_of_ne same] at at_
      exact h.walkers n m at_

theorem storedNext {s : State ν} {sub : ν} (h : Sound s) {p : Position ν} (stored : p.stored) (n : ν) :
    n ∈ s.linked ++ [sub] ↔ (Function.update s.position sub p n).stored := by
  rw [List.mem_append,List.mem_singleton]
  by_cases same : n = sub
  · rw [same,Function.update_self]
    exact iff_of_true (.inr rfl) stored
  · rw [Function.update_of_ne same,← h.stored]
    simp [same]

theorem walkersNext {s : State ν} {sub : ν} (h : Sound s) {p : Position ν} (ended : p.tmpSub = none)
    {n m : ν} (at_ : (Function.update s.position sub p n).tmpSub = some m) : m ∈ s.linked := by
  by_cases same : n = sub
  · rw [same,Function.update_self,ended] at at_
    contradiction
  · rw [Function.update_of_ne same] at at_
    exact h.walkers n m at_

omit [DecidableEq ν] in
theorem unstored {s : State ν} (h : Sound s) (sub : ν) (early : (s.position sub).stored = false) :
    sub ∉ s.linked := by
  rw [h.stored,early]
  exact nofun

theorem firstSound {s : State ν} {sub : ν} (h : Sound s) (here : s.position sub = .first) :
    Sound {s.goto sub .returned with
      subs := {s.subs with baseSubscription := some sub}
      linked := s.linked ++ [sub]} := by
  have absent := unstored h sub (by rw [here]; rfl)
  have ends := h.fresh sub absent
  refine ⟨?_,?_,?_,storedNext h rfl,?_,?_,h.acyclic⟩
  · exact fun n outside => h.fresh n fun inside => outside (List.mem_append_left _ inside)
  · intro b same
    cases Option.some.inj same
    exact List.mem_append_right _ List.mem_cons_self
  · exact fun m c link => List.mem_append_left _ (h.targets m c link)
  · exact fun n m at_ => List.mem_append_left _ (walkersNext h rfl at_)
  · exact ⟨[sub],.node (by rw [ends]; exact .null)⟩

theorem saveSound {s : State ν} {sub m : ν} (h : Sound s) (here : s.position sub = .saving m) :
    Sound {s.goto sub .closing with
      subs := {s.subs with next := Function.update s.subs.next m (some sub)}
      linked := s.linked ++ [sub]} := by
  have absent := unstored h sub (by rw [here]; rfl)
  have ends := h.fresh sub absent
  have inside : m ∈ s.linked := h.walkers sub m (by rw [here]; rfl)
  have apart : sub ≠ m := fun same => absent (same ▸ inside)
  refine ⟨?_,?_,?_,storedNext h rfl,?_,?_,acyclicLink h.acyclic ends apart⟩
  · intro n outside
    have before : n ∉ s.linked := fun listed => outside (List.mem_append_left _ listed)
    have other : n ≠ m := fun same => before (same ▸ inside)
    change Function.update s.subs.next m (some sub) n = none
    rw [Function.update_of_ne other]
    exact h.fresh n before
  · exact fun b same => List.mem_append_left _ (h.based b same)
  · intro k c link
    change Function.update s.subs.next m (some sub) k = some c at link
    by_cases same : k = m
    · rw [same,Function.update_self] at link
      cases Option.some.inj link
      exact List.mem_append_right _ List.mem_cons_self
    · rw [Function.update_of_ne same] at link
      exact List.mem_append_left _ (h.targets k c link)
  · exact fun n k at_ => List.mem_append_left _ (walkersNext h rfl at_)
  · obtain ⟨l,chain⟩ := h.listed
    have members := chainWithin chain h.based h.targets
    by_cases there : m ∈ l
    · obtain ⟨front,rest,rfl,_⟩ := chainTail chain there
      exact ⟨_,chainRelink chain ends fun found => absent (members sub (by
        rcases List.mem_append.mp found with earlier | last
        · exact List.mem_append_left _ earlier
        · exact absurd (List.mem_singleton.mp last) apart))⟩
    · exact ⟨l,chainUpdate chain there _⟩

theorem closeSound {s : State ν} {sub : ν} (h : Sound s) (here : s.position sub = .closing) :
    Sound {s.goto sub .returned with
      subs := {s.subs with next := Function.update s.subs.next sub none}} := by
  have inside : sub ∈ s.linked := (h.stored sub).mpr (by rw [here]; rfl)
  refine ⟨?_,h.based,?_,?_,fun n m at_ => walkersNext h rfl at_,?_,acyclicCut h.acyclic sub⟩
  · intro n outside
    have other : n ≠ sub := fun same => outside (same ▸ inside)
    change Function.update s.subs.next sub none n = none
    rw [Function.update_of_ne other]
    exact h.fresh n outside
  · intro k c link
    change Function.update s.subs.next sub none k = some c at link
    by_cases same : k = sub
    · rw [same,Function.update_self] at link
      contradiction
    · rw [Function.update_of_ne same] at link
      exact h.targets k c link
  · intro n
    change n ∈ s.linked ↔ (Function.update s.position sub .returned n).stored
    rw [← storedNext h rfl,List.mem_append,List.mem_singleton]
    exact ⟨.inl,fun listed => listed.elim id fun same => same ▸ inside⟩
  · obtain ⟨l,chain⟩ := h.listed
    by_cases there : sub ∈ l
    · obtain ⟨front,rest,rfl,_⟩ := chainTail chain there
      exact ⟨_,chainCut chain⟩
    · exact ⟨l,chainUpdate chain there _⟩

theorem stepSound (s : State ν) (sub : ν) (t : State ν) (h : Sound s)
    (taken : vSystemCriticalTaskSubscribeStep s sub = some t) : Sound t := by
  cases moved taken with
  | read how => exact readSound h how
  | first here => exact firstSound h here
  | save here => exact saveSound h here
  | close here => exact closeSound h here

theorem beforeSound {subs : Subscriptions ν} {l : List ν}
    (listed : Chain subs.next subs.baseSubscription l) (fresh : ∀ n, n ∉ l → subs.next n = none) :
    Sound (before subs l) := by
  have members : ∀ n c, subs.next n = some c → c ∈ l := by
    intro n c link
    by_cases inside : n ∈ l
    · obtain ⟨front,rest,rfl,tail⟩ := chainTail listed inside
      rw [link] at tail
      exact List.mem_append_right _ (List.mem_cons_of_mem _ (List.mem_of_head? (chainHead tail).symm))
    · rw [fresh n inside] at link
      contradiction
  refine ⟨fresh,?_,members,?_,?_,⟨l,listed⟩,?_⟩
  · intro b same
    exact List.mem_of_head? ((chainHead listed).symm.trans same)
  · intro n
    by_cases inside : n ∈ l <;> simp [before,inside,Position.stored]
  · intro n m at_
    by_cases inside : n ∈ l <;> simp [before,inside,Position.tmpSub] at at_
  · refine acyclicOfEnds fun n => ?_
    by_cases inside : n ∈ l
    · obtain ⟨_,rest,_,tail⟩ := chainTail listed inside
      exact ⟨n::rest,.node tail⟩
    · have ends : (before subs l).subs.next n = none := fresh n inside
      exact ⟨[n],.node (by rw [ends]; exact .null)⟩

structure WellFormed (s : State ν) (l : List ν) : Prop where
  chain : Chain s.subs.next s.subs.baseSubscription l
  once : l.Nodup
  subscribed : ∀ n ∈ l, n ∈ s.linked
  acyclic : Acyclic s.subs.next

omit [DecidableEq ν] in
theorem soundFormed {s : State ν} (h : Sound s) : ∃ l, WellFormed s l := by
  obtain ⟨l,chain⟩ := h.listed
  exact ⟨l,chain,chainNodup chain,chainWithin chain h.based h.targets,h.acyclic⟩

theorem racesKeepList {subs : Subscriptions ν} {l : List ν}
    (listed : Chain subs.next subs.baseSubscription l) (fresh : ∀ n, n ∉ l → subs.next n = none)
    (schedule : List ν) :
    Always vSystemCriticalTaskSubscribeStep (fun s => ∃ l, WellFormed s l) (before subs l) schedule :=
  alwaysMono (fun _ => soundFormed) (invariant stepSound (beforeSound listed fresh) schedule)

theorem racesKeepListTwo :
    let subs : Subscriptions (Fin 3) := ⟨some 0,fun _ => none⟩
    Always vSystemCriticalTaskSubscribeStep (fun s => ∃ l, WellFormed s l) (before subs [0])
      [1,2,1,2,1,2,1,2,1,2] :=
  racesKeepList (.node .null) (fun _ _ => rfl) _

def NoneLost (s : State ν) : Prop :=
  ∃ l, Chain s.subs.next s.subs.baseSubscription l ∧ ∀ n ∈ s.linked, n ∈ l

/- The store of this step, if it is one, hits a field that is still NULL. -/
def OnNull (s : State ν) (sub : ν) : Prop :=
  match s.position sub with
  | .first => s.subs.baseSubscription = none
  | .saving m => s.subs.next m = none
  | .closing => s.subs.next sub = none
  | _ => True

instance (s : State ν) (sub : ν) : Decidable (OnNull s sub) := by
  unfold OnNull
  split <;> infer_instance

theorem firstLoses {s : State ν} {sub : ν} (h : Sound s) (kept : NoneLost s)
    (here : s.position sub = .first) :
    NoneLost {s.goto sub .returned with
      subs := {s.subs with baseSubscription := some sub}
      linked := s.linked ++ [sub]} ↔ s.subs.baseSubscription = none := by
  have absent := unstored h sub (by rw [here]; rfl)
  have alone : Chain s.subs.next (some sub) [sub] := .node (by rw [h.fresh sub absent]; exact .null)
  constructor
  · intro after
    obtain ⟨l,chain,all⟩ := after
    cases chainUnique alone chain
    cases base : s.subs.baseSubscription with
    | none => rfl
    | some b =>
      have inside := h.based b base
      cases List.mem_singleton.mp (all b (List.mem_append_left _ inside))
      exact absurd inside absent
  · intro null
    obtain ⟨l,chain,all⟩ := kept
    rw [null] at chain
    cases chainNull chain
    refine ⟨[sub],alone,fun n member => ?_⟩
    rcases List.mem_append.mp member with earlier | last
    · exact absurd (all n earlier) nofun
    · exact last

theorem saveLoses {s : State ν} {sub m : ν} (h : Sound s) (kept : NoneLost s)
    (here : s.position sub = .saving m) :
    NoneLost {s.goto sub .closing with
      subs := {s.subs with next := Function.update s.subs.next m (some sub)}
      linked := s.linked ++ [sub]} ↔ s.subs.next m = none := by
  have absent := unstored h sub (by rw [here]; rfl)
  have inside : m ∈ s.linked := h.walkers sub m (by rw [here]; rfl)
  obtain ⟨l,chain,all⟩ := kept
  have members := chainWithin chain h.based h.targets
  obtain ⟨front,rest,rfl,tail⟩ := chainTail chain (all m inside)
  have outside : sub ∉ front ++ [m] := by
    intro found
    refine absent (members sub ?_)
    rcases List.mem_append.mp found with earlier | last
    · exact List.mem_append_left _ earlier
    · rw [List.mem_singleton.mp last]
      exact List.mem_append_right _ List.mem_cons_self
  have relinked := chainRelink chain (h.fresh sub absent) outside
  constructor
  · intro after
    obtain ⟨k,found,whole⟩ := after
    cases chainUnique relinked found
    cases link : s.subs.next m with
    | none => rfl
    | some c =>
      -- what was behind m would have to be the new node, or in front of it
      obtain ⟨behind,cutOff⟩ := chainBehind chain link
      have known := members c (List.mem_append_right _ (List.mem_cons_of_mem m behind))
      have there := whole c (List.mem_append_left _ known)
      rw [List.append_cons front m [sub]] at there
      rcases List.mem_append.mp there with before | last
      · exact absurd before cutOff
      · rw [List.mem_singleton.mp last] at known
        exact absurd known absent
  · intro null
    rw [null] at tail
    cases chainNull tail
    refine ⟨_,relinked,fun n member => ?_⟩
    rw [List.append_cons front m [sub]]
    rcases List.mem_append.mp member with earlier | last
    · exact List.mem_append_left _ (all n earlier)
    · exact List.mem_append_right _ last

theorem closeLoses {s : State ν} {sub : ν} (h : Sound s) (kept : NoneLost s)
    (here : s.position sub = .closing) :
    NoneLost {s.goto sub .returned with
      subs := {s.subs with next := Function.update s.subs.next sub none}} ↔
        s.subs.next sub = none := by
  have inside : sub ∈ s.linked := (h.stored sub).mpr (by rw [here]; rfl)
  obtain ⟨l,chain,all⟩ := kept
  have members := chainWithin chain h.based h.targets
  obtain ⟨front,rest,rfl,tail⟩ := chainTail chain (all sub inside)
  have cut := chainCut chain
  constructor
  · intro after
    obtain ⟨k,found,whole⟩ := after
    cases chainUnique cut found
    cases link : s.subs.next sub with
    | none => rfl
    | some c =>
      obtain ⟨behind,cutOff⟩ := chainBehind chain link
      have known := members c (List.mem_append_right _ (List.mem_cons_of_mem sub behind))
      exact absurd (whole c known) cutOff
  · intro null
    rw [null] at tail
    cases chainNull tail
    exact ⟨_,cut,all⟩

theorem stepLoses {s t : State ν} {sub : ν} (h : Sound s) (kept : NoneLost s)
    (taken : vSystemCriticalTaskSubscribeStep s sub = some t) : NoneLost t ↔ OnNull s sub := by
  cases moved taken with
  | read how =>
    have idle : OnNull s sub := by
      unfold OnNull
      cases how with
      | empty here => rw [here]; trivial
      | nonempty here => rw [here]; trivial
      | base here => rw [here]; trivial
      | last here => rw [here]; trivial
      | more here => rw [here]; trivial
      | advance here => rw [here]; trivial
    exact iff_of_true kept idle
  | first here =>
    unfold OnNull
    rw [here]
    exact firstLoses h kept here
  | save here =>
    unfold OnNull
    rw [here]
    exact saveLoses h kept here
  | close here =>
    unfold OnNull
    rw [here]
    exact closeLoses h kept here

/-- Of any number of calls at once, in any order of steps, none is lost exactly when no
store of the run hits a field that another call has stored to. -/
theorem racesLoseExact {subs : Subscriptions ν} {l : List ν}
    (listed : Chain subs.next subs.baseSubscription l) (fresh : ∀ n, n ∉ l → subs.next n = none)
    (schedule : List ν) :
    Always vSystemCriticalTaskSubscribeStep NoneLost (before subs l) schedule ↔
      Along vSystemCriticalTaskSubscribeStep OnNull (before subs l) schedule := by
  refine alwaysExact stepSound ?_ (beforeSound listed fresh) ⟨l,listed,fun _ => id⟩ schedule
  exact fun s sub t h kept taken => stepLoses h kept taken

theorem racesLoseExactFirst :
    let subs : Subscriptions (Fin 2) := ⟨none,fun _ => none⟩
    ¬Always vSystemCriticalTaskSubscribeStep NoneLost (before subs []) [0,1,0,1] := by
  intro subs kept
  have onNull := (racesLoseExact .null (fun _ _ => rfl) _).mp kept
  have hits := alongReached.mp onNull [0,1,0] 1 [] _ _ rfl rfl rfl
  exact absurd hits nofun

end Fresknode.SystemRaces
