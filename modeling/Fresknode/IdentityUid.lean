import Fresknode.Eeprom
import Fresknode.Identity
import Mathlib.Data.Nat.Digits.Defs

/-! What get_euid reads. It takes eight bytes from the start of the six-byte UID area, so
the address rolls over and the last two are the first two bytes of user data. They are the
high half-word of the identifier that get_role compares. -/
namespace Fresknode.Identity
open Eeprom

def eepromUidAddress : UInt8 := 0xfa

/- ieee_euid_t is a union of eight bytes and a 64-bit word, on a little-endian core. -/
def u64 (u8 : List UInt8) : UInt64 := UInt64.ofNat (Nat.ofDigits 256 (u8.map UInt8.toNat))

def getEuid (chip : Chip) : UInt64 := u64 (eepromRead chip eepromUidAddress 8).2

def uid (chip : Chip) : Nat :=
  Nat.ofDigits 256 ((contents chip.memory eepromUidAddress 6).map UInt8.toNat)

def userWord (chip : Chip) : Nat := (chip.memory 0).toNat + 256 * (chip.memory 1).toNat

def listedRole (uid : Nat) : RangerRole := getRole (UInt64.ofNat (uid + 2 ^ 48 * 0xffff))

theorem bytesBound (bytes : List UInt8) :
    Nat.ofDigits 256 (bytes.map UInt8.toNat) < 256 ^ bytes.length := by
  induction bytes with
  | nil => simp
  | cons b bytes ih =>
    have low := b.toNat_lt
    simp only [List.map_cons,Nat.ofDigits_cons,List.length_cons,Nat.pow_succ]
    omega

theorem uidBound (chip : Chip) : uid chip < 2 ^ 48 := by
  have bound := bytesBound (contents chip.memory eepromUidAddress 6)
  rw [contentsLength] at bound
  exact bound

theorem uidAgrees {c d : Chip} (same : ∀ a, eepromUidAddress ≤ a → c.memory a = d.memory a) :
    uid c = uid d := by
  unfold uid
  rw [contentsAgree (by decide) same]

theorem getEuidNat (chip : Chip) : (getEuid chip).toNat = uid chip + 2 ^ 48 * userWord chip := by
  have bound := bytesBound (contents chip.memory eepromUidAddress 8)
  have wide : (256 : Nat) ^ 8 = 2 ^ 64 := rfl
  rw [contentsLength,wide] at bound
  have read : (eepromRead chip eepromUidAddress 8).2 = contents chip.memory eepromUidAddress 8 := by
    rw [eepromReadExact]
  -- after the last address the chip goes on at 0
  have rollsOver : contents chip.memory eepromUidAddress 8 =
      contents chip.memory eepromUidAddress 6 ++ [chip.memory 0,chip.memory 1] :=
    contentsAppend chip.memory eepromUidAddress 6 2
  unfold getEuid u64
  rw [read,UInt64.toNat_ofNat',Nat.mod_eq_of_lt bound,rollsOver,List.map_append,Nat.ofDigits_append,
    List.length_map,contentsLength]
  simp [uid,userWord,Nat.ofDigits_cons]

theorem getRoleSplit {id : UInt64} {low high : Nat} (bound : low < 2 ^ 48)
    (split : id.toNat = low + 2 ^ 48 * high) : getRole id =
      if high = 0xffff then listedRole low
      else if high = 0 ∧ low = 0 then .node2 else .undefined := by
  by_cases erased : high = 0xffff
  · have same : id = UInt64.ofNat (low + 2 ^ 48 * 0xffff) := by
      rw [← erased,← split,UInt64.ofNat_toNat]
    rw [if_pos erased,same]
    rfl
  · rw [if_neg erased]
    have other : ∀ k : UInt64, 0xffff * 2 ^ 48 ≤ k.toNat → id ≠ k := by
      intro k above same
      have below := id.toNat_lt
      rw [← same] at above
      omega
    have zero : id = 0 ↔ high = 0 ∧ low = 0 := by
      rw [← UInt64.toNat_inj,split]
      change low + 2 ^ 48 * high = 0 ↔ _
      omega
    unfold getRole
    rw [if_neg (other _ (by decide)),if_neg (other _ (by decide)),if_neg (other _ (by decide)),
      if_neg (other _ (by decide)),if_neg (other _ (by decide))]
    simp only [zero]
    rw [if_neg (other _ (by decide)),if_neg (other _ (by decide))]

theorem listedReal {uid : Nat} (listed : listedRole uid ≠ .undefined) : uid ≠ 0 := by
  intro blank
  rw [blank] at listed
  exact listed (by decide)

theorem roleListed (chip : Chip) (listed : listedRole (uid chip) ≠ .undefined) :
    getRole (getEuid chip) =
      if userWord chip = 0xffff then listedRole (uid chip) else .undefined := by
  have real := listedReal listed
  rw [getRoleSplit (uidBound chip) (getEuidNat chip)]
  simp only [real,and_false,if_false]

theorem roleUnlisted (chip : Chip) (unlisted : listedRole (uid chip) = .undefined) :
    getRole (getEuid chip) = if userWord chip = 0 ∧ uid chip = 0 then .node2 else .undefined := by
  rw [getRoleSplit (uidBound chip) (getEuidNat chip),unlisted]
  split
  · next erased => rw [if_neg (by omega)]
  · rfl

theorem choicesAgree {p q : Prop} [Decidable p] [Decidable q] {role other : RangerRole}
    (apart : role ≠ other) :
    (if p then role else other) = (if q then role else other) ↔ (p ↔ q) := by
  by_cases first : p <;> by_cases second : q <;> simp [first,second,apart,apart.symm]

theorem rolesAgree {c d : Chip} (same : ∀ a, eepromUidAddress ≤ a → c.memory a = d.memory a) :
    getRole (getEuid c) = getRole (getEuid d) ↔
      (listedRole (uid c) ≠ .undefined → (userWord c = 0xffff ↔ userWord d = 0xffff)) ∧
        (uid c = 0 → (userWord c = 0 ↔ userWord d = 0)) := by
  have agree := uidAgrees same
  by_cases listed : listedRole (uid c) = .undefined
  · rw [roleUnlisted c listed,roleUnlisted d (agree ▸ listed),← agree,choicesAgree (by decide)]
    simp only [listed,ne_eq,not_true_eq_false,false_implies,true_and]
    by_cases blank : uid c = 0 <;> simp [blank]
  · have real := listedReal listed
    rw [roleListed c listed,roleListed d (agree ▸ listed),← agree,choicesAgree listed]
    simp [listed,real]

end Fresknode.Identity
