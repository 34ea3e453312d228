import Fresknode.IdentityUid
import Fresknode.Startup

/-! Which board main takes itself for. Of all that runs beside it only main's own
statements touch the identity, so its value at the end is fixed by what get_euid read, and
that depends on two bytes of user data. -/
namespace Fresknode.Startup
open Runs Identity Eeprom

structure Derived where
  devid : UInt64
  role : RangerRole
  ieeshortaddr : UInt16
  config : Config
  driverConfig : Option Config
  rangingModule : Option RangingModule
  deriving DecidableEq, Repr

structure BoardIdentity where
  role : RangerRole
  config : Option Config
  rangingModule : Option RangingModule
  deriving DecidableEq, Repr

def Derived.identity (b : Derived) : BoardIdentity := ⟨b.role,b.driverConfig,b.rangingModule⟩

def State.derived (s : State) : Derived :=
  ⟨s.devid,s.role,s.ieeshortaddr,s.config,s.dw.config,s.dw.rangingModule⟩

def State.identity (s : State) : BoardIdentity := s.derived.identity

def roleIdentity (role : RangerRole) : BoardIdentity :=
  ⟨role,some ⟨Identity.ieeshortaddr role⟩,
    some (if role = .undefined then .passiveRangingModule else .twowayrangingModule)⟩

theorem roleIdentityEq {first second : RangerRole} :
    roleIdentity first = roleIdentity second ↔ first = second :=
  ⟨fun h => congrArg BoardIdentity.role h,fun h => congrArg roleIdentity h⟩

def settle (out : Outside) (uid : UInt64) (b : Derived) : Statement → Derived
  | .getEuid => {b with devid := uid}
  | .assignRole => {b with role := getRole b.devid}
  | .assignIeeshortaddr => {b with ieeshortaddr := Identity.ieeshortaddr b.role}
  | .assignShortaddr => {b with config := {b.config with shortaddr := b.ieeshortaddr}}
  | .dw1000GenerateRecommendedConf =>
    {b with config := out.dw1000GenerateRecommendedConf b.devid b.config}
  | .assignConfig => {b with driverConfig := some b.config}
  | .assignRangingModule => {b with rangingModule := some .twowayrangingModule}
  | .assignPassiveRanging =>
    {b with rangingModule :=
      if b.role = .undefined then some .passiveRangingModule else b.rangingModule}
  | _ => b

def Settles (out : Outside) (uid : UInt64) (s : State) : Prop :=
  s.main.foldl (settle out uid) s.derived = main.foldl (settle out uid) powerOn.derived

theorem executeSettles {out : Outside} {uid : UInt64} {s t : State} {rest : List Statement}
    {c : Statement} (here : s.main = c::rest) (taken : execute out uid s rest c = some t) :
    t.main.foldl (settle out uid) t.derived = s.main.foldl (settle out uid) s.derived := by
  rw [here,List.foldl_cons]
  cases c with
  | startInterruptHandler =>
    obtain ⟨i,_,rfl⟩ := Option.map_eq_some_iff.mp taken
    by_cases returned : i.handler = .returned
    · simp only [if_pos returned,State.derived,settle]
    · simp only [if_neg returned,here,State.derived,settle,List.foldl_cons]
  | assignPassiveRanging =>
    simp only [execute] at taken
    split at taken <;> rename_i role <;> cases Option.some.inj taken
    · simp [State.derived,settle,role]
    · simp [State.derived,settle,role]
  | _ =>
    cases Option.some.inj taken
    rfl

def Leaves (s t : State) : Prop := t.main = s.main ∧ t.derived = s.derived

theorem usbLeaves {out : Outside} {s t : State} (move : UsbMove out s t) : Leaves s t := by
  cases move <;> exact ⟨rfl,rfl⟩

theorem otherLeaves {out : Outside} {uid : UInt64} {s t : State} {e : Event} (other : e ≠ .main)
    (taken : step out uid s e = some t) : Leaves s t := by
  cases (moved taken).2 with
  | main => contradiction
  | usb move => exact usbLeaves move
  | usbEvent event => cases event <;> exact ⟨rfl,rfl⟩
  | call => exact ⟨rfl,rfl⟩
  | irq => exact ⟨rfl,rfl⟩
  | byte => exact ⟨rfl,rfl⟩
  | edge => exact ⟨rfl,rfl⟩

theorem stepSettles {out : Outside} {uid : UInt64} (s : State) (e : Event) (t : State)
    (h : Settles out uid s) (taken : step out uid s e = some t) : Settles out uid t := by
  unfold Settles
  by_cases turn : e = .main
  · subst turn
    cases (moved taken).2 with
    | main here taken =>
      rw [executeSettles here taken]
      exact h
  · have leaves := otherLeaves turn taken
    rw [leaves.1,leaves.2]
    exact h

-- as documented, it fills in the other fields of the configuration
def KeepsShortaddr (out : Outside) : Prop :=
  ∀ euid config, (out.dw1000GenerateRecommendedConf euid config).shortaddr = config.shortaddr

theorem confKept {out : Outside} (keeps : KeepsShortaddr out) (euid : UInt64) (config : Config) :
    out.dw1000GenerateRecommendedConf euid config = config :=
  Config.ext (keeps euid config)

structure Settled (out : Outside) (uid : UInt64) (s : State) : Prop where
  role : s.role = getRole uid
  ieeshortaddr : s.ieeshortaddr = Identity.ieeshortaddr (getRole uid)
  config : s.dw.config =
    some (out.dw1000GenerateRecommendedConf uid ⟨Identity.ieeshortaddr (getRole uid)⟩)
  rangingModule : s.dw.rangingModule =
    if getRole uid = .undefined then some .passiveRangingModule else some .twowayrangingModule

theorem settled {out : Outside} {uid : UInt64} {s : State} (h : Settles out uid s)
    (finished : s.main = []) : Settled out uid s := by
  unfold Settles at h
  rw [finished,List.foldl_nil] at h
  exact ⟨congrArg Derived.role h,congrArg Derived.ieeshortaddr h,congrArg Derived.driverConfig h,
    congrArg Derived.rangingModule h⟩

theorem identityReached {out : Outside} (keeps : KeepsShortaddr out) {uid : UInt64}
    {events : List Event} {s : State} (reached : run (step out uid) powerOn events = some s)
    (finished : s.main = []) : s.identity = roleIdentity (getRole uid) := by
  have start : Settles out uid powerOn := rfl
  have final := settled (invariantRun stepSettles start reached) finished
  have config := final.config
  rw [confKept keeps] at config
  change BoardIdentity.mk s.role s.dw.config s.dw.rangingModule = _
  rw [final.role,config,final.rangingModule,roleIdentity,apply_ite some]

theorem identityKeptExact {out : Outside} (keeps : KeepsShortaddr out) {c d : Chip}
    (same : ∀ a, eepromUidAddress ≤ a → c.memory a = d.memory a)
    {s t : State} {events others : List Event}
    (reached : run (step out (getEuid c)) powerOn events = some s) (finished : s.main = [])
    (reachedToo : run (step out (getEuid d)) powerOn others = some t) (finishedToo : t.main = []) :
    s.identity = t.identity ↔
      (listedRole (uid c) ≠ .undefined → (userWord c = 0xffff ↔ userWord d = 0xffff)) ∧
        (uid c = 0 → (userWord c = 0 ↔ userWord d = 0)) := by
  rw [identityReached keeps reached finished,identityReached keeps reachedToo finishedToo,
    roleIdentityEq]
  exact rolesAgree same

def anchorBoard (user : UInt8 → UInt8) : Chip where
  memory a :=
    if a < eepromUidAddress then user a
    else [0xa3,0x0b,0x00,0x12,0x04,0x0c].getD (a.toNat - 0xfa) 0
  latch := false

theorem anchorBoardsAgree (user other : UInt8 → UInt8) (a : UInt8) (above : eepromUidAddress ≤ a) :
    (anchorBoard user).memory a = (anchorBoard other).memory a := by
  have inside : ¬a < eepromUidAddress := UInt8.not_lt.mpr above
  simp only [anchorBoard,if_neg inside]

def startToEnd : List Event :=
  List.replicate 18 .main ++ List.replicate 3 .irq ++ List.replicate 16 .main

def ending (s : State) : List Statement × BoardIdentity := (s.main,s.identity)

theorem identityKeptErased :
    let erased := anchorBoard fun _ => 0xff
    let written := anchorBoard fun a => if a = 2 then 0 else 0xff
    ∃ s t, run (step documented (getEuid erased)) powerOn startToEnd = some s ∧
      run (step documented (getEuid written)) powerOn startToEnd = some t ∧ s.identity = t.identity := by
  intro erased written
  have first : (run (step documented (getEuid erased)) powerOn startToEnd).map State.main = some [] := by
    decide +kernel
  have second : (run (step documented (getEuid written)) powerOn startToEnd).map State.main = some [] := by
    decide +kernel
  obtain ⟨s,reached,finished⟩ := Option.map_eq_some_iff.mp first
  obtain ⟨t,reachedToo,finishedToo⟩ := Option.map_eq_some_iff.mp second
  refine ⟨s,t,reached,reachedToo,?_⟩
  have same := anchorBoardsAgree (fun _ => 0xff) fun a => if a = 2 then 0 else 0xff
  refine (identityKeptExact (fun _ _ => rfl) same reached finished reachedToo finishedToo).mpr ⟨?_,?_⟩
  · exact fun _ => iff_of_true (by decide) (by decide)
  · exact fun blank => absurd blank (by decide)

theorem userDataMakesStranger :
    let erased := anchorBoard fun _ => 0xff
    let written := anchorBoard fun _ => 0
    (∀ a, eepromUidAddress ≤ a → erased.memory a = written.memory a) ∧
      (run (step documented (getEuid erased)) powerOn startToEnd).map ending =
        some ([],⟨.anchor0,some ⟨0⟩,some .twowayrangingModule⟩) ∧
      (run (step documented (getEuid written)) powerOn startToEnd).map ending =
        some ([],⟨.undefined,some ⟨6⟩,some .passiveRangingModule⟩) := by
  intro erased written
  refine ⟨anchorBoardsAgree _ _,?_,?_⟩
  · decide +kernel
  · decide +kernel

end Fresknode.Startup
