import Fresknode.SystemRaces

/-! When concurrent subscriptions come to one whole call after the other. As long as every
store hits a NULL field, the memory is at each moment what the calls that have stored would
have made of it in that order, and no thread follows a NULL. Calls that exclude each other
are such. -/
namespace Fresknode.SystemRaces
open SystemInit Chains Runs

variable {ν : Type} [DecidableEq ν]

theorem saveWhole [Fintype ν] {subs : Subscriptions ν} {l : List ν} {sub m : ν}
    (listed : Chain subs.next subs.baseSubscription l) (inside : m ∈ l)
    (null : subs.next m = none) (ends : subs.next sub = none) (apart : sub ≠ m) :
    vSystemCriticalTaskSubscribe subs sub =
      some {subs with next := Function.update subs.next m (some sub)} := by
  obtain ⟨base,next⟩ := subs
  obtain ⟨front,rest,rfl,tail⟩ := chainTail listed inside
  simp only at listed null ends tail
  rw [null] at tail
  cases chainNull tail
  cases base with
  | none => exact absurd (chainNull listed) (by simp)
  | some base =>
    have bound := chainBounded listed
    have last : search next (Fintype.card ν) base = some m := by
      rw [searchChain listed (by omega),List.getLast?_concat]
    have cleared : Function.update (Function.update next m (some sub)) sub none =
        Function.update next m (some sub) := by
      refine Function.update_eq_self_iff.mpr ?_
      rw [Function.update_of_ne apart,ends]
    simp only [vSystemCriticalTaskSubscribe,last,Option.map_some,cleared]

structure Whole [Fintype ν] (subs : Subscriptions ν) (l : List ν) (s : State ν) : Prop where
  listed : Chain s.subs.next s.subs.baseSubscription s.linked
  calls : ∃ order, s.linked = l ++ order ∧
    order.foldlM vSystemCriticalTaskSubscribe subs = some s.subs

theorem callsNext [Fintype ν] {subs : Subscriptions ν} {l : List ν} {s t : State ν} {sub : ν}
    (calls : ∃ order, s.linked = l ++ order ∧
      order.foldlM vSystemCriticalTaskSubscribe subs = some s.subs)
    (stored : t.linked = s.linked ++ [sub])
    (whole : vSystemCriticalTaskSubscribe s.subs sub = some t.subs) :
    ∃ order, t.linked = l ++ order ∧
      order.foldlM vSystemCriticalTaskSubscribe subs = some t.subs := by
  obtain ⟨order,split,memory⟩ := calls
  refine ⟨order ++ [sub],by rw [stored,split,List.append_assoc],?_⟩
  rw [List.foldlM_append,memory]
  simpa using whole

theorem stepWhole [Fintype ν] {subs : Subscriptions ν} {l : List ν} (s : State ν) (sub : ν)
    (t : State ν) (h : Sound s ∧ Whole subs l s) (onNull : OnNull s sub)
    (taken : vSystemCriticalTaskSubscribeStep s sub = some t) : Sound t ∧ Whole subs l t := by
  obtain ⟨sound,whole⟩ := h
  refine ⟨stepSound s sub t sound taken,?_⟩
  unfold OnNull at onNull
  cases moved taken with
  | read how => exact ⟨whole.listed,whole.calls⟩
  | first here =>
    rw [here] at onNull
    have absent := unstored sound sub (by rw [here]; rfl)
    have null : s.subs.baseSubscription = none := onNull
    have listed := whole.listed
    rw [null] at listed
    have empty := chainNull listed
    refine ⟨?_,callsNext whole.calls rfl ?_⟩
    · change Chain s.subs.next (some sub) (s.linked ++ [sub])
      rw [empty]
      exact .node (by rw [sound.fresh sub absent]; exact .null)
    · simp only [vSystemCriticalTaskSubscribe,null]
  | @save m here =>
    rw [here] at onNull
    have null : s.subs.next m = none := onNull
    have absent := unstored sound sub (by rw [here]; rfl)
    have inside : m ∈ s.linked := sound.walkers sub m (by rw [here]; rfl)
    have apart : sub ≠ m := fun same => absent (same ▸ inside)
    have ends := sound.fresh sub absent
    have called := saveWhole whole.listed inside null ends apart
    obtain ⟨u,same,chain,_⟩ := subscribeChain whole.listed absent fun _ => ends
    cases Option.some.inj (called.symm.trans same)
    exact ⟨chain,callsNext whole.calls rfl called⟩
  | close here =>
    rw [here] at onNull
    have null : s.subs.next sub = none := onNull
    have kept : Function.update s.subs.next sub none = s.subs.next :=
      Function.update_eq_self_iff.mpr null.symm
    refine ⟨?_,?_⟩
    · change Chain (Function.update s.subs.next sub none) s.subs.baseSubscription s.linked
      rw [kept]
      exact whole.listed
    · obtain ⟨order,split,memory⟩ := whole.calls
      refine ⟨order,split,memory.trans ?_⟩
      simp only [kept]

theorem wholeAlong [Fintype ν] {subs : Subscriptions ν} {l : List ν}
    (listed : Chain subs.next subs.baseSubscription l) (fresh : ∀ n, n ∉ l → subs.next n = none)
    {schedule : List ν}
    (onNull : Along vSystemCriticalTaskSubscribeStep OnNull (before subs l) schedule) :
    Always vSystemCriticalTaskSubscribeStep (Whole subs l) (before subs l) schedule := by
  have begun : Whole subs l (before subs l) := ⟨listed,[],(List.append_nil l).symm,rfl⟩
  exact alwaysMono (fun _ h => h.2)
    (guardedInvariant stepWhole ⟨beforeSound listed fresh,begun⟩ onNull)

theorem racesAsWholeCalls [Fintype ν] {subs : Subscriptions ν} {l : List ν}
    (listed : Chain subs.next subs.baseSubscription l) (fresh : ∀ n, n ∉ l → subs.next n = none)
    (schedule : List ν)
    (onNull : Along vSystemCriticalTaskSubscribeStep OnNull (before subs l) schedule) :
    Always vSystemCriticalTaskSubscribeStep (Whole subs l) (before subs l) schedule :=
  wholeAlong listed fresh onNull

theorem racesAsWholeCallsTwo :
    let subs : Subscriptions (Fin 3) := ⟨some 0,fun _ => none⟩
    Always vSystemCriticalTaskSubscribeStep (Whole subs [0]) (before subs [0])
      [1,1,1,1,2,2,2,1,2] := by
  exact racesAsWholeCalls (.node .null) (fun _ _ => rfl) _ (by decide)

def Follows (subs : Subscriptions ν) : Position ν → Prop
  | .start => subs.baseSubscription ≠ none
  | .testing p => p ≠ none
  | .moving m => subs.next m ≠ none
  | _ => True

omit [DecidableEq ν] in
theorem followsGrown {subs later : Subscriptions ν} {p : Position ν} (h : Follows subs p)
    (base : subs.baseSubscription ≠ none → later.baseSubscription ≠ none)
    (next : ∀ m, subs.next m ≠ none → later.next m ≠ none) : Follows later p := by
  cases p with
  | start => exact base h
  | testing => exact h
  | moving m => exact next m h
  | entry => trivial
  | first => trivial
  | saving => trivial
  | closing => trivial
  | returned => trivial

def Able (s : State ν) : Prop := ∀ n, Follows s.subs (s.position n)

theorem ableMoved {s : State ν} {sub : ν} {later : Subscriptions ν} {p : Position ν} (h : Able s)
    (base : s.subs.baseSubscription ≠ none → later.baseSubscription ≠ none)
    (next : ∀ m, s.subs.next m ≠ none → later.next m ≠ none) (here : Follows later p) (n : ν) :
    Follows later (Function.update s.position sub p n) := by
  by_cases same : n = sub
  · rw [same,Function.update_self]
    exact here
  · rw [Function.update_of_ne same]
    exact followsGrown (h n) base next

omit [DecidableEq ν] in
theorem readFollows {s : State ν} {sub : ν} {p : Position ν} (h : Able s) (how : Read s sub p) :
    Follows s.subs p := by
  have able := h sub
  cases how with
  | empty => trivial
  | nonempty here found =>
    change s.subs.baseSubscription ≠ none
    rw [found]
    exact nofun
  | base here =>
    rw [here] at able
    exact able
  | last => trivial
  | more here found =>
    change s.subs.next _ ≠ none
    rw [found]
    exact nofun
  | advance here =>
    rw [here] at able
    exact able

theorem stepAble (s : State ν) (sub : ν) (t : State ν) (h : Able s) (onNull : OnNull s sub)
    (taken : vSystemCriticalTaskSubscribeStep s sub = some t) : Able t := by
  unfold OnNull at onNull
  cases moved taken with
  | read how =>
    have here := readFollows h how
    exact ableMoved h id (fun _ => id) here
  | first here => exact ableMoved h (fun _ => nofun) (fun _ => id) trivial
  | @save m here =>
    refine ableMoved h id (fun k linked => ?_) trivial
    change Function.update s.subs.next m (some sub) k ≠ none
    by_cases same : k = m
    · rw [same,Function.update_self]
      exact nofun
    · rw [Function.update_of_ne same]
      exact linked
  | close here =>
    rw [here] at onNull
    have null : s.subs.next sub = none := onNull
    refine ableMoved h id (fun k linked => ?_) trivial
    change Function.update s.subs.next sub none k ≠ none
    rw [Function.update_eq_self_iff.mpr null.symm]
    exact linked

theorem ableStarts (subs : Subscriptions ν) (l : List ν) : Able (before subs l) := by
  intro n
  by_cases inside : n ∈ l <;> simp [before,inside,Follows]

def NoneStuck (s : State ν) : Prop :=
  ∀ sub, s.position sub ≠ .returned → (vSystemCriticalTaskSubscribeStep s sub).isSome

theorem ableNoneStuck {s : State ν} (h : Able s) : NoneStuck s := by
  intro sub within
  have able := h sub
  unfold vSystemCriticalTaskSubscribeStep
  split <;> first | rfl | (rename_i here; rw [here] at able within)
  · exact absurd rfl able
  · exact absurd rfl within

theorem noneStuckAlong {subs : Subscriptions ν} {l : List ν} {schedule : List ν}
    (onNull : Along vSystemCriticalTaskSubscribeStep OnNull (before subs l) schedule) :
    Always vSystemCriticalTaskSubscribeStep NoneStuck (before subs l) schedule :=
  alwaysMono (fun _ => ableNoneStuck) (guardedInvariant stepAble (ableStarts subs l) onNull)

theorem racesNeverStuck (subs : Subscriptions ν) (l : List ν) (schedule : List ν)
    (onNull : Along vSystemCriticalTaskSubscribeStep OnNull (before subs l) schedule) :
    Always vSystemCriticalTaskSubscribeStep NoneStuck (before subs l) schedule :=
  noneStuckAlong onNull

theorem racesNeverStuckTwo :
    let subs : Subscriptions (Fin 4) := ⟨some 0,fun n => if n = 0 then some 1 else none⟩
    let loading : List (Fin 4) := [2,2,2,3,3,3]
    (run vSystemCriticalTaskSubscribeStep (before subs [0,1]) loading).map
        (fun s => (s.position 2,s.position 3)) = some (.moving 0,.moving 0) ∧
      Always vSystemCriticalTaskSubscribeStep NoneStuck (before subs [0,1])
        (loading ++ [2,2,2,2,3,3,3,3,3,3]) := by
  exact ⟨by decide,racesNeverStuck _ _ _ (by decide)⟩

-- a store that hits a link: thread 2 is past its test when the end of call 1 takes it away
example : let subs : Subscriptions (Fin 4) := ⟨some 0,fun _ => none⟩
    (run vSystemCriticalTaskSubscribeStep (before subs [0])
      [1,1,1,1,3,3,3,3,3,3,2,2,2,2,2,1,2]).map (·.position 2) = some (.testing none) := by
  decide

def Alone (s : State ν) (sub : ν) : Prop :=
  ∀ other, other ≠ sub → s.position other = .entry ∨ s.position other = .returned

instance [Fintype ν] (s : State ν) (sub : ν) : Decidable (Alone s sub) :=
  inferInstanceAs (Decidable (∀ other, other ≠ sub →
    s.position other = .entry ∨ s.position other = .returned))

theorem aloneElsewhere {s t : State ν} {sub n : ν} {p : Position ν} (alone : Alone s sub)
    (position : t.position = Function.update s.position sub p) (other : n ≠ sub) : OnNull t n := by
  unfold OnNull
  rw [position,Function.update_of_ne other]
  rcases alone n other with outside | outside
  · rw [outside]; trivial
  · rw [outside]; trivial

theorem aloneOnNull (s : State ν) (sub : ν) (t : State ν) (h : Sound s ∧ ∀ n, OnNull s n)
    (alone : Alone s sub) (taken : vSystemCriticalTaskSubscribeStep s sub = some t) :
    Sound t ∧ ∀ n, OnNull t n := by
  obtain ⟨sound,fits⟩ := h
  refine ⟨stepSound s sub t sound taken,fun n => ?_⟩
  by_cases same : n = sub
  · subst same
    unfold OnNull
    cases moved taken with
    | @read p how =>
      simp only [State.goto,Function.update_self]
      cases how with
      | empty _ null => exact null
      | nonempty => trivial
      | base => trivial
      | last _ null => exact null
      | more => trivial
      | advance => trivial
    | first => simp only [State.goto,Function.update_self]
    | @save m here =>
      have absent := unstored sound n (by rw [here]; rfl)
      have inside : m ∈ s.linked := sound.walkers n m (by rw [here]; rfl)
      have apart : n ≠ m := fun same => absent (same ▸ inside)
      simp only [State.goto,Function.update_self]
      rw [Function.update_of_ne apart]
      exact sound.fresh n absent
    | close => simp only [State.goto,Function.update_self]
  · cases moved taken with
    | read => exact aloneElsewhere alone rfl same
    | first => exact aloneElsewhere alone rfl same
    | save => exact aloneElsewhere alone rfl same
    | close => exact aloneElsewhere alone rfl same

/-- Calls that exclude each other, in whatever order the threads come, lose nothing and
never follow a NULL: the small steps come to the whole calls in the order of their stores. -/
theorem exclusiveCalls [Fintype ν] {subs : Subscriptions ν} {l : List ν}
    (listed : Chain subs.next subs.baseSubscription l) (fresh : ∀ n, n ∉ l → subs.next n = none)
    (schedule : List ν)
    (alone : Along vSystemCriticalTaskSubscribeStep Alone (before subs l) schedule) :
    Always vSystemCriticalTaskSubscribeStep (Whole subs l) (before subs l) schedule ∧
      Always vSystemCriticalTaskSubscribeStep NoneStuck (before subs l) schedule := by
  have outside : ∀ n, OnNull (before subs l) n := by
    intro n
    by_cases inside : n ∈ l <;> simp [before,inside,OnNull]
  have onNull : Along vSystemCriticalTaskSubscribeStep OnNull (before subs l) schedule :=
    alongMono aloneOnNull (fun _ sub h _ => h.2 sub) ⟨beforeSound listed fresh,outside⟩ alone
  exact ⟨wholeAlong listed fresh onNull,noneStuckAlong onNull⟩

theorem exclusiveCallsTwo :
    let subs : Subscriptions (Fin 2) := ⟨none,fun _ => none⟩
    Always vSystemCriticalTaskSubscribeStep (Whole subs []) (before subs []) [0,0,1,1,1,1,1] ∧
      Always vSystemCriticalTaskSubscribeStep NoneStuck (before subs []) [0,0,1,1,1,1,1] := by
  exact exclusiveCalls .null (fun _ _ => rfl) _ (by decide)

end Fresknode.SystemRaces
