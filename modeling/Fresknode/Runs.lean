/-! Runs of a machine whose step may be refused. A schedule is a list of events;
a property of a run is stated over its schedule, so every interleaving of the
parties is one list. `Along` says that every step taken is taken in a state that
meets the guard, `Always` that every state reached is good. Nothing here depends
on what the machine is. -/
namespace Fresknode.Runs

variable {σ ε ω : Type _}

def run (step : σ → ε → Option σ) : σ → List ε → Option σ
  | s,[] => some s
  | s,e::es => (step s e).bind fun t => run step t es

def Along (step : σ → ε → Option σ) (guard : σ → ε → Prop) : σ → List ε → Prop
  | _,[] => True
  | s,e::es => ∀ t, step s e = some t → guard s e ∧ Along step guard t es

def Always (step : σ → ε → Option σ) (good : σ → Prop) : σ → List ε → Prop
  | s,[] => good s
  | s,e::es => good s ∧ ∀ t, step s e = some t → Always step good t es

variable {step : σ → ε → Option σ} {guard other : σ → ε → Prop} {good I : σ → Prop}

theorem runCons {s e es u} : run step s (e::es) = some u ↔
    ∃ t, step s e = some t ∧ run step t es = some u := by
  simp only [run,Option.bind_eq_some_iff]

theorem runAppend (s : σ) (es fs : List ε) :
    run step s (es ++ fs) = (run step s es).bind fun t => run step t fs := by
  induction es generalizing s with
  | nil => rfl
  | cons e es ih =>
    simp only [List.cons_append,run]
    cases step s e with
    | none => rfl
    | some t => exact ih t

theorem alwaysHere {s es} (h : Always step good s es) : good s := by
  cases es with
  | nil => exact h
  | cons e es => exact h.1

theorem alwaysReached {s es} : Always step good s es ↔
    ∀ early late t, es = early ++ late → run step s early = some t → good t := by
  induction es generalizing s with
  | nil =>
    constructor
    · intro h early late t split reached
      obtain ⟨rfl,rfl⟩ := List.append_eq_nil_iff.mp split.symm
      cases Option.some.inj reached
      exact h
    · intro h
      exact h [] [] s rfl rfl
  | cons e es ih =>
    constructor
    · intro h early late t split reached
      cases early with
      | nil => cases Option.some.inj reached; exact h.1
      | cons d early =>
        obtain ⟨rfl,rest⟩ := List.cons.inj split
        obtain ⟨u,hu,reached⟩ := runCons.mp reached
        exact ih.mp (h.2 u hu) early late t rest reached
    · intro h
      refine ⟨h [] (e::es) s rfl rfl,fun t ht => ih.mpr ?_⟩
      intro early late u split reached
      exact h (e::early) late u (by rw [split]; rfl) (runCons.mpr ⟨t,ht,reached⟩)

theorem alwaysAlong {s es} : Always step good s es ↔
    good s ∧ Along step (fun s e => ∀ t, step s e = some t → good t) s es := by
  induction es generalizing s with
  | nil => exact ⟨fun h => ⟨h,trivial⟩,fun h => h.1⟩
  | cons e es ih =>
    constructor
    · intro h
      refine ⟨h.1,fun t ht => ⟨?_,(ih.mp (h.2 t ht)).2⟩⟩
      intro u hu
      cases Option.some.inj (ht.symm.trans hu)
      exact alwaysHere (h.2 t ht)
    · intro h
      exact ⟨h.1,fun t ht => ih.mpr ⟨(h.2 t ht).1 t ht,(h.2 t ht).2⟩⟩

theorem guardedInvariant
    (keeps : ∀ s e t, I s → guard s e → step s e = some t → I t)
    {s es} (start : I s) (along : Along step guard s es) : Always step I s es := by
  induction es generalizing s with
  | nil => exact start
  | cons e es ih =>
    refine ⟨start,fun t ht => ?_⟩
    have met := along t ht
    exact ih (keeps s e t start met.1 ht) met.2

theorem alongTrivial (holds : ∀ s e, guard s e) (s : σ) (es : List ε) : Along step guard s es := by
  induction es generalizing s with
  | nil => trivial
  | cons e es ih => exact fun t _ => ⟨holds s e,ih t⟩

theorem alongEach {es} (each : ∀ e ∈ es, ∀ s, guard s e) {s} : Along step guard s es := by
  induction es generalizing s with
  | nil => trivial
  | cons e es ih =>
    exact fun t _ => ⟨each e List.mem_cons_self s,
      ih fun d member => each d (List.mem_cons_of_mem e member)⟩

theorem invariant (keeps : ∀ s e t, I s → step s e = some t → I t)
    {s} (start : I s) (es : List ε) : Always step I s es :=
  guardedInvariant (fun s e t h _ => keeps s e t h) start
    (alongTrivial (fun _ _ => trivial) s es : Along step (fun _ _ => True) s es)

theorem alwaysMono (implies : ∀ s, I s → good s) {s es} (h : Always step I s es) :
    Always step good s es :=
  alwaysReached.mpr fun early late t split reached =>
    implies t (alwaysReached.mp h early late t split reached)

theorem guardedRun (keeps : ∀ s e t, I s → guard s e → step s e = some t → I t)
    {s es t} (start : I s) (along : Along step guard s es) (reached : run step s es = some t) : I t :=
  alwaysReached.mp (guardedInvariant keeps start along) es [] t (List.append_nil es).symm reached

theorem invariantRun (keeps : ∀ s e t, I s → step s e = some t → I t)
    {s es t} (start : I s) (reached : run step s es = some t) : I t :=
  alwaysReached.mp (invariant keeps start es) es [] t (by simp) reached

/- The rule for progress: while it is not done, some allowed step brings the rank down. -/
theorem reaches {allowed : ε → Prop} {done : σ → Prop} {rank : σ → Nat}
    (descends : ∀ s, I s → ¬done s → ∃ e t, allowed e ∧ step s e = some t ∧ I t ∧ rank t < rank s)
    {s} (start : I s) : ∃ es t, (∀ e ∈ es, allowed e) ∧ es.length ≤ rank s ∧
      run step s es = some t ∧ I t ∧ done t := by
  induction found : rank s using Nat.strongRecOn generalizing s with
  | ind n ih =>
    by_cases finished : done s
    · exact ⟨[],s,nofun,Nat.zero_le n,rfl,start,finished⟩
    · obtain ⟨e,u,fine,taken,kept,less⟩ := descends s start finished
      obtain ⟨es,t,all,short,reached,last⟩ := ih (rank u) (found ▸ less) kept rfl
      refine ⟨e::es,t,?_,?_,runCons.mpr ⟨u,taken,reached⟩,last⟩
      · exact List.forall_mem_cons.mpr ⟨fine,all⟩
      · rw [List.length_cons]
        omega

theorem runAdds {α : Type _} {measure : σ → List α} {out : ε → List α}
    (adds : ∀ s e t, I s → step s e = some t → I t ∧ measure t = measure s ++ out e)
    {s es t} (start : I s) (reached : run step s es = some t) :
    measure t = measure s ++ es.flatMap out := by
  induction es generalizing s with
  | nil =>
    cases Option.some.inj reached
    simp
  | cons e es ih =>
    obtain ⟨u,taken,rest⟩ := runCons.mp reached
    obtain ⟨kept,added⟩ := adds s e u start taken
    rw [ih kept rest,added,List.flatMap_cons,List.append_assoc]

theorem alongMono (keeps : ∀ s e t, I s → guard s e → step s e = some t → I t)
    (implies : ∀ s e, I s → guard s e → other s e) {s es} (start : I s)
    (along : Along step guard s es) : Along step other s es := by
  induction es generalizing s with
  | nil => trivial
  | cons e es ih =>
    intro t ht
    have met := along t ht
    exact ⟨implies s e start met.1,ih (keeps s e t start met.1 ht) met.2⟩

theorem alongReached {s es} : Along step guard s es ↔
    ∀ early e late t u, es = early ++ e::late → run step s early = some t →
      step t e = some u → guard t e := by
  induction es generalizing s with
  | nil => exact ⟨fun _ early e late t u split => by simp at split,fun _ => trivial⟩
  | cons d es ih =>
    constructor
    · intro h early e late t u split reached taken
      cases early with
      | nil =>
        obtain ⟨rfl,rfl⟩ := List.cons.inj split
        cases Option.some.inj reached
        exact (h u taken).1
      | cons c early =>
        obtain ⟨rfl,rest⟩ := List.cons.inj split
        obtain ⟨v,hv,reached⟩ := runCons.mp reached
        exact ih.mp (h v hv).2 early e late t u rest reached taken
    · intro h t ht
      refine ⟨h [] d es s t rfl rfl ht,ih.mpr ?_⟩
      intro early e late u v split reached taken
      exact h (d::early) e late u v (by rw [split]; rfl) (runCons.mpr ⟨t,ht,reached⟩) taken

theorem runRelated {τ : Type _} {other : τ → ε → Option τ} {R : σ → τ → Prop}
    (square : ∀ s v e t, R s v → step s e = some t → ∃ u, other v e = some u ∧ R t u)
    {s v es t} (start : R s v) (reached : run step s es = some t) :
    ∃ u, run other v es = some u ∧ R t u := by
  induction es generalizing s v with
  | nil =>
    cases Option.some.inj reached
    exact ⟨v,rfl,start⟩
  | cons e es ih =>
    obtain ⟨r,hr,rest⟩ := runCons.mp reached
    obtain ⟨q,hq,related⟩ := square s v e r start hr
    obtain ⟨u,hu,last⟩ := ih related rest
    exact ⟨u,runCons.mpr ⟨q,hq,hu⟩,last⟩

theorem alongCons {s e es t} (taken : step s e = some t) :
    Along step guard s (e::es) ↔ guard s e ∧ Along step guard t es := by
  constructor
  · exact fun h => h t taken
  · intro h u other
    cases Option.some.inj (taken.symm.trans other)
    exact h

theorem alongAppend {s es fs t} (reached : run step s es = some t) :
    Along step guard s (es ++ fs) ↔ Along step guard s es ∧ Along step guard t fs := by
  induction es generalizing s with
  | nil =>
    cases Option.some.inj reached
    exact ⟨fun h => ⟨trivial,h⟩,And.right⟩
  | cons e es ih =>
    obtain ⟨u,taken,rest⟩ := runCons.mp reached
    rw [List.cons_append,alongCons taken,alongCons taken,ih rest,and_assoc]

theorem runLoses {α : Type _} {measure : σ → List α} {out : ε → List α}
    (adds : ∀ s e t, I s → step s e = some t → I t ∧ ∃ kept, kept.Sublist (measure s) ∧
      measure t = kept ++ out e ∧ (kept = measure s ↔ guard s e))
    {s es t} (start : I s) (reached : run step s es = some t) :
    (measure t).Sublist (measure s ++ es.flatMap out) ∧
      (measure t = measure s ++ es.flatMap out ↔ Along step guard s es) := by
  induction es generalizing s with
  | nil =>
    cases Option.some.inj reached
    rw [List.flatMap_nil,List.append_nil]
    exact ⟨.refl _,iff_of_true rfl trivial⟩
  | cons e es ih =>
    obtain ⟨u,taken,rest⟩ := runCons.mp reached
    obtain ⟨sound,kept,fewer,added,exact_⟩ := adds s e u start taken
    obtain ⟨within,whole⟩ := ih sound rest
    rw [added,List.append_assoc] at within whole
    rw [List.flatMap_cons,alongCons taken,← exact_,← whole]
    refine ⟨within.trans (fewer.append_right _),fun same => ?_,fun both => both.1 ▸ both.2⟩
    have all : kept = measure s := by
      refine fewer.eq_of_length_le ?_
      have longest := within.length_le
      simp only [same,List.length_append] at longest
      omega
    exact ⟨all,by rw [all]; exact same⟩

def alongDecided (decided : ∀ s e, Decidable (guard s e)) :
    (s : σ) → (es : List ε) → Decidable (Along step guard s es)
  | _,[] => isTrue trivial
  | s,e::es =>
    match taken : step s e with
    | none => isTrue fun _ moved => nomatch taken.symm.trans moved
    | some t =>
      have : Decidable (Along step guard t es) := alongDecided decided t es
      decidable_of_iff (guard s e ∧ Along step guard t es) (alongCons taken).symm

instance [∀ s e, Decidable (guard s e)] (s : σ) (es : List ε) : Decidable (Along step guard s es) :=
  alongDecided inferInstance s es

/- Two machines take the same schedule. Where they are related, their guards agree,
and a step that meets them keeps the relation: then the guards hold along the same
schedules. -/
theorem alongMatched {τ : Type _} {peer : τ → ε → Option τ} {demand : τ → ε → Prop}
    {R : σ → τ → Prop} (both : ∀ s v e, R s v → ((step s e).isSome ↔ (peer v e).isSome))
    (agree : ∀ s v e t u, R s v → step s e = some t → peer v e = some u →
      (guard s e ↔ demand v e) ∧ (guard s e → R t u))
    {s v} (start : R s v) (es : List ε) : Along step guard s es ↔ Along peer demand v es := by
  induction es generalizing s v with
  | nil => exact Iff.rfl
  | cons e es ih =>
    have enabled := both s v e start
    constructor
    · intro h u hu
      obtain ⟨t,ht⟩ := Option.isSome_iff_exists.mp (enabled.mpr (by rw [hu]; rfl))
      obtain ⟨same,keeps⟩ := agree s v e t u start ht hu
      have met := h t ht
      exact ⟨same.mp met.1,(ih (keeps met.1)).mp met.2⟩
    · intro h t ht
      obtain ⟨u,hu⟩ := Option.isSome_iff_exists.mp (enabled.mp (by rw [ht]; rfl))
      obtain ⟨same,keeps⟩ := agree s v e t u start ht hu
      have met := h u hu
      have mine := same.mpr met.1
      exact ⟨mine,(ih (keeps mine)).mpr met.2⟩

/- The rule for the exact condition of a run: under an invariant, a step leaves a
good state for a good one just when it meets the guard. -/
theorem alwaysExact (keeps : ∀ s e t, I s → step s e = some t → I t)
    (agree : ∀ s e t, I s → good s → step s e = some t → (good t ↔ guard s e))
    {s} (start : I s) (first : good s) (es : List ε) :
    Always step good s es ↔ Along step guard s es := by
  rw [alwaysAlong,and_iff_right first]
  refine alongMatched (R := fun s v => s = v ∧ I s ∧ good s) ?_ ?_ ⟨rfl,start,first⟩ es
  · rintro s v e ⟨rfl,_⟩
    exact Iff.rfl
  · rintro s v e t u ⟨rfl,sound,fine⟩ taken same
    cases Option.some.inj (taken.symm.trans same)
    have exact := agree s e t sound fine taken
    constructor
    · constructor
      · exact fun all => exact.mp (all t taken)
      · intro met u other
        cases Option.some.inj (taken.symm.trans other)
        exact exact.mpr met
    · exact fun all => ⟨rfl,keeps s e t sound taken,all t taken⟩

/-! A machine that answers: `exec` is a run with the answers collected. -/

def exec (call : σ → ε → Option (σ × ω)) : σ → List ε → Option (σ × List ω)
  | s,[] => some (s,[])
  | s,e::es => (call s e).bind fun r => (exec call r.1 es).map fun u => (u.1,r.2::u.2)

theorem execCons {call : σ → ε → Option (σ × ω)} {s e es u} {os : List ω} :
    exec call s (e::es) = some (u,os) ↔ ∃ t o rest, call s e = some (t,o) ∧
      exec call t es = some (u,rest) ∧ os = o::rest := by
  simp only [exec,Option.bind_eq_some_iff,Option.map_eq_some_iff,Prod.mk.injEq,Prod.exists]
  constructor
  · rintro ⟨t,o,ht,v,rest,hv,rfl,rfl⟩
    exact ⟨t,o,rest,ht,hv,rfl⟩
  · rintro ⟨t,o,rest,ht,hv,rfl⟩
    exact ⟨t,o,ht,u,rest,hv,rfl,rfl⟩

theorem execAppend {call : σ → ε → Option (σ × ω)} {es fs s u} {os : List ω} :
    exec call s (es ++ fs) = some (u,os) ↔ ∃ t first second, exec call s es = some (t,first) ∧
      exec call t fs = some (u,second) ∧ os = first ++ second := by
  induction es generalizing s os with
  | nil =>
    constructor
    · intro h
      exact ⟨s,[],os,rfl,h,rfl⟩
    · rintro ⟨t,first,second,ht,hu,rfl⟩
      cases Option.some.inj ht
      exact hu
  | cons e es ih =>
    simp only [List.cons_append,execCons,ih]
    constructor
    · rintro ⟨t,o,rest,ht,⟨v,first,second,hv,hu,rfl⟩,rfl⟩
      exact ⟨v,o::first,second,⟨t,o,first,ht,hv,rfl⟩,hu,rfl⟩
    · rintro ⟨v,_,second,⟨t,o,first,ht,hv,rfl⟩,hu,rfl⟩
      exact ⟨t,o,first ++ second,ht,⟨v,first,second,hv,hu,rfl⟩,rfl⟩

theorem execLength {call : σ → ε → Option (σ × ω)} {s es t} {os : List ω}
    (done : exec call s es = some (t,os)) : os.length = es.length := by
  induction es generalizing s os with
  | nil =>
    cases Option.some.inj done
    rfl
  | cons e es ih =>
    obtain ⟨u,o,rest,_,later,rfl⟩ := execCons.mp done
    rw [List.length_cons,List.length_cons,ih later]

theorem execInvariant {call : σ → ε → Option (σ × ω)} {P : σ → List ω → Prop}
    (keeps : ∀ s e t o past, P s past → call s e = some (t,o) → P t (past ++ [o]))
    {s es t} {past os : List ω} (start : P s past) (done : exec call s es = some (t,os)) :
    P t (past ++ os) := by
  induction es generalizing s past os with
  | nil =>
    cases Option.some.inj done
    rw [List.append_nil]
    exact start
  | cons e es ih =>
    obtain ⟨u,o,rest,taken,later,rfl⟩ := execCons.mp done
    rw [List.append_cons]
    exact ih (keeps s e u o past start taken) later

def silent (call : σ → ε → Option (σ × ω)) (s : σ) (e : ε) : Option σ := (call s e).map Prod.fst

/- Forward simulation: where the specification answers, so does the machine, and
alike. The square may use the guard of a step only once that step is taken. -/
theorem simulation {α : Type _} {call : σ → ε → Option (σ × ω)} {spec : α → ε → Option (α × ω)}
    {R : α → σ → Prop}
    (square : ∀ a s e b o, R a s → (∀ t, silent call s e = some t → guard s e) →
      spec a e = some (b,o) → ∃ t, call s e = some (t,o) ∧ R b t)
    {a s es b} {os : List ω} (start : R a s) (along : Along (silent call) guard s es)
    (meant : exec spec a es = some (b,os)) :
    ∃ t, exec call s es = some (t,os) ∧ R b t := by
  induction es generalizing a s os with
  | nil =>
    cases Option.some.inj meant
    exact ⟨s,rfl,start⟩
  | cons e es ih =>
    obtain ⟨c,o,rest,hc,hb,rfl⟩ := execCons.mp meant
    obtain ⟨t,ht,related⟩ := square a s e c o start (fun t ht => (along t ht).1) hc
    have taken : silent call s e = some t := by simp [silent,ht]
    obtain ⟨u,hu,last⟩ := ih related (along t taken).2 hb
    exact ⟨u,execCons.mpr ⟨t,o,rest,ht,hu,rfl⟩,last⟩

end Fresknode.Runs
