import Fresknode.Eeprom

/-! Reading back what eeprom_write was given. The driver sends no write-enable
instruction, so on a chip whose latch is clear nothing it does changes the memory, and a
round trip succeeds just where the data were there before. With the latch set it would
succeed within one page. -/
namespace Fresknode.Eeprom

def outside (address : UInt8) (length : Nat) (a : UInt8) : Prop :=
  a.toNat < address.toNat ∨ address.toNat + length ≤ a.toNat

structure RoundTrip (chip : Chip) (address : UInt8) (data : List UInt8) : Prop where
  filled : (eepromRead (eepromWrite chip address data) address data.length).2 = data
  others : ∀ a, outside address data.length a →
    (eepromRead (eepromWrite chip address data) a 1).2 = (eepromRead chip a 1).2

theorem roundTripExact {chip : Chip} (clear : chip.latch = false) (address : UInt8)
    (data : List UInt8) :
    RoundTrip chip address data ↔ contents chip.memory address data.length = data := by
  have kept := eepromWriteClear clear address data
  constructor
  · intro h
    have filled := h.filled
    rwa [kept,eepromReadExact] at filled
  · intro same
    refine ⟨?_,fun a _ => by rw [kept]⟩
    rw [kept,eepromReadExact]
    exact same

theorem roundTripErased :
    RoundTrip ⟨fun _ => 0xff,false⟩ 0x10 [0xff,0xff] :=
  (roundTripExact rfl 0x10 [0xff,0xff]).mpr rfl

theorem writeWithoutEnableLost :
    ¬RoundTrip ⟨fun _ => 0xff,false⟩ 0x10 [0x42] := by
  intro trip
  have filled := trip.filled
  rw [eepromReadExact] at filled
  exact absurd filled (by decide)

inductive DriverCall where
  | read (address : UInt8) (length : Nat)
  | write (address : UInt8) (data : List UInt8)

def driverCall (chip : Chip) : DriverCall → Chip
  | .read address length => (eepromRead chip address length).1
  | .write address data => eepromWrite chip address data

theorem driverNeverStores {chip : Chip} (clear : chip.latch = false) (calls : List DriverCall) :
    calls.foldl driverCall chip = chip := by
  induction calls with
  | nil => rfl
  | cons c calls ih =>
    have same : driverCall chip c = chip := by
      cases c with
      | read address length =>
        simp only [driverCall,eepromReadExact]
      | write address data => exact eepromWriteClear clear address data
    rw [List.foldl_cons,same]
    exact ih

theorem nextInPageNat (a : UInt8) :
    (nextInPage a).toNat = a.toNat / 16 * 16 + (a.toNat + 1) % 16 := by
  have bound := a.toNat_lt
  simp only [nextInPage,UInt8.toNat_add,UInt8.toNat_mul,UInt8.toNat_div,UInt8.toNat_mod,
    UInt8.reduceToNat]
  omega

theorem nextInside {a : UInt8} (inside : a.toNat % 16 < 15) : nextInPage a = a + 1 := by
  have bound := a.toNat_lt
  have next := nextInPageNat a
  refine UInt8.toNat_inj.mp ?_
  have one : (1 : UInt8).toNat = 1 := rfl
  rw [next,UInt8.toNat_add,one]
  omega

theorem storeElsewhere {memory : UInt8 → UInt8} {address : UInt8} {data : List UInt8}
    (fits : address.toNat % 16 + data.length ≤ 16) {a : UInt8}
    (apart : outside address data.length a) : storePage memory address data a = memory a := by
  induction data generalizing memory address with
  | nil => rfl
  | cons b data ih =>
    simp only [outside,List.length_cons] at fits apart
    have other : a ≠ address := by
      rintro rfl
      omega
    cases data with
    | nil =>
      simp only [storePage]
      exact Function.update_of_ne other b memory
    | cons c data =>
      have next := nextInPageNat address
      simp only [List.length_cons] at fits apart
      unfold storePage
      rw [ih (by simp only [List.length_cons]; omega) (by simp only [outside,List.length_cons]; omega)]
      exact Function.update_of_ne other b memory

theorem storeContents {memory : UInt8 → UInt8} {address : UInt8} {data : List UInt8}
    (fits : address.toNat % 16 + data.length ≤ 16) :
    contents (storePage memory address data) address data.length = data := by
  induction data generalizing memory address with
  | nil => rfl
  | cons b data ih =>
    simp only [List.length_cons] at fits
    cases data with
    | nil => simp [contents,storePage]
    | cons c data =>
      have next := nextInPageNat address
      simp only [List.length_cons] at fits
      have rest : (nextInPage address).toNat % 16 + (c::data).length ≤ 16 := by
        simp only [List.length_cons]
        omega
      have before : outside (nextInPage address) (c::data).length address := .inl (by omega)
      have head : storePage (Function.update memory address b) (nextInPage address) (c::data)
          address = b := (storeElsewhere rest before).trans (Function.update_self address b memory)
      have tail : contents (storePage (Function.update memory address b) (nextInPage address)
          (c::data)) (nextInPage address) (c::data).length = c::data := ih rest
      rw [nextInside (by omega)] at head tail
      unfold storePage contents
      rw [nextInside (by omega),head]
      exact congrArg (b::·) tail

theorem enabledRoundTrip {chip : Chip} (set : chip.latch = true) {address : UInt8}
    {data : List UInt8} (fits : address.toNat % 16 + data.length ≤ 16) :
    RoundTrip chip address data := by
  have written := eepromWriteSet set address data
  refine ⟨?_,fun a apart => ?_⟩
  · rw [written,eepromReadExact]
    exact storeContents fits
  · rw [written,eepromReadExact,eepromReadExact]
    simp only [contents,storeElsewhere fits apart]

end Fresknode.Eeprom
