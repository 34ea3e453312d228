import Mathlib.Logic.Function.Basic

/-! The identity EEPROM on its SPI bus, and the driver of eeprom.c. A chip-select period
carries one instruction; what it writes takes effect when the period ends, within one page
and only with the write-enable latch set. eeprom_init sets up the bus alone. -/
namespace Fresknode.Eeprom

structure Chip where
  memory : UInt8 → UInt8
  latch : Bool

inductive Phase where
  | instruction
  | readAddress
  | reading (address : UInt8)
  | writeAddress
  | writing (address : UInt8) (pending : UInt8 → UInt8)
  | writeEnable
  | ignored

structure Selected where
  chip : Chip
  phase : Phase

def decode (latch : Bool) (instruction : UInt8) : Phase :=
  if instruction = 0x03 then .readAddress
  else if instruction = 0x02 then if latch then .writeAddress else .ignored
  else if instruction = 0x06 then .writeEnable
  else .ignored

def nextInPage (address : UInt8) : UInt8 := address / 16 * 16 + (address + 1) % 16

/- One byte each way. The line is pulled up while the chip does not answer. -/
def clock (s : Selected) (mosi : UInt8) : Selected × UInt8 :=
  match s.phase with
  | .instruction => ({s with phase := decode s.chip.latch mosi},0xff)
  | .readAddress => ({s with phase := .reading mosi},0xff)
  | .reading address => ({s with phase := .reading (address + 1)},s.chip.memory address)
  | .writeAddress => ({s with phase := .writing mosi s.chip.memory},0xff)
  | .writing address pending =>
    ({s with phase := .writing (nextInPage address) (Function.update pending address mosi)},0xff)
  | .writeEnable => ({s with phase := .ignored},0xff)
  | .ignored => (s,0xff)

def spiSelect (chip : Chip) : Selected := ⟨chip,.instruction⟩

def spiUnselect (s : Selected) : Chip :=
  match s.phase with
  | .writing _ pending => ⟨pending,false⟩
  | .writeEnable => {s.chip with latch := true}
  | _ => s.chip

def spiSend (s : Selected) : List UInt8 → Selected
  | [] => s
  | b::bytes => spiSend (clock s b).1 bytes

def spiReceive (s : Selected) : Nat → Selected × List UInt8
  | 0 => (s,[])
  | n+1 =>
    let (s,b) := clock s 0xff
    let (s,bytes) := spiReceive s n
    (s,b::bytes)

def eepromWrite (chip : Chip) (address : UInt8) (data : List UInt8) : Chip :=
  let s := spiSelect chip
  let s := spiSend s [0x02,address]
  let s := spiSend s data
  spiUnselect s

def eepromRead (chip : Chip) (address : UInt8) (length : Nat) : Chip × List UInt8 :=
  let s := spiSelect chip
  let s := spiSend s [0x03,address]
  let (s,data) := spiReceive s length
  (spiUnselect s,data)

def contents (memory : UInt8 → UInt8) (address : UInt8) : Nat → List UInt8
  | 0 => []
  | n+1 => memory address :: contents memory (address + 1) n

theorem contentsLength (memory : UInt8 → UInt8) (address : UInt8) (n : Nat) :
    (contents memory address n).length = n := by
  induction n generalizing address with
  | zero => rfl
  | succ n ih => simp [contents,ih]

theorem contentsAppend (memory : UInt8 → UInt8) (address : UInt8) (n k : Nat) :
    contents memory address (n + k) =
      contents memory address n ++ contents memory (address + UInt8.ofNat n) k := by
  induction n generalizing address with
  | zero => simp [contents]
  | succ n ih =>
    have next : address + 1 + UInt8.ofNat n = address + UInt8.ofNat (n+1) := by
      rw [UInt8.ofNat_add,UInt8.add_assoc,UInt8.add_comm 1]
      rfl
    rw [Nat.succ_add]
    simp only [contents,ih,List.cons_append,next]

theorem contentsAgree {memory other : UInt8 → UInt8} {address : UInt8} {n : Nat}
    (fits : address.toNat + n ≤ 256) (same : ∀ a, address ≤ a → memory a = other a) :
    contents memory address n = contents other address n := by
  induction n generalizing address with
  | zero => rfl
  | succ n ih =>
    cases n with
    | zero => simp only [contents,same address UInt8.le_rfl]
    | succ n =>
      have next : (address + 1).toNat = address.toNat + 1 := by
        rw [UInt8.toNat_add]
        exact Nat.mod_eq_of_lt (by simp; omega)
      have above : ∀ a, address + 1 ≤ a → memory a = other a := by
        intro a after
        rw [UInt8.le_iff_toNat_le] at after
        exact same a (UInt8.le_iff_toNat_le.mpr (by omega))
      have rest := ih (by omega) above
      unfold contents
      rw [same address UInt8.le_rfl,rest]

theorem receiveReading (chip : Chip) (address : UInt8) (n : Nat) :
    ∃ last, spiReceive ⟨chip,.reading address⟩ n =
      (⟨chip,.reading last⟩,contents chip.memory address n) := by
  induction n generalizing address with
  | zero => exact ⟨address,rfl⟩
  | succ n ih =>
    obtain ⟨last,rest⟩ := ih (address + 1)
    unfold spiReceive
    simp only [clock,rest]
    exact ⟨last,rfl⟩

theorem eepromReadExact (chip : Chip) (address : UInt8) (length : Nat) :
    eepromRead chip address length = (chip,contents chip.memory address length) := by
  obtain ⟨last,received⟩ := receiveReading chip address length
  have header : spiSend (spiSelect chip) [0x03,address] = ⟨chip,.reading address⟩ := by
    simp [spiSend,spiSelect,clock,decode]
  unfold eepromRead
  simp only [header,received,spiUnselect]

theorem sendIgnored (chip : Chip) (bytes : List UInt8) :
    spiSend ⟨chip,.ignored⟩ bytes = ⟨chip,.ignored⟩ := by
  induction bytes with
  | nil => rfl
  | cons b bytes ih =>
    unfold spiSend
    simp only [clock,ih]

-- the driver never sends the instruction that sets the latch
theorem eepromWriteClear {chip : Chip} (clear : chip.latch = false) (address : UInt8)
    (data : List UInt8) : eepromWrite chip address data = chip := by
  have header : spiSend (spiSelect chip) [0x02,address] = ⟨chip,.ignored⟩ := by
    simp [spiSend,spiSelect,clock,decode,clear]
  unfold eepromWrite
  simp only [header,sendIgnored,spiUnselect]

def storePage (memory : UInt8 → UInt8) (address : UInt8) : List UInt8 → UInt8 → UInt8
  | [] => memory
  | b::data => storePage (Function.update memory address b) (nextInPage address) data

theorem sendWriting (chip : Chip) (address : UInt8) (pending : UInt8 → UInt8) (data : List UInt8) :
    ∃ last, spiSend ⟨chip,.writing address pending⟩ data =
      ⟨chip,.writing last (storePage pending address data)⟩ := by
  induction data generalizing address pending with
  | nil => exact ⟨address,rfl⟩
  | cons b data ih =>
    obtain ⟨last,rest⟩ := ih (nextInPage address) (Function.update pending address b)
    unfold spiSend storePage
    simp only [clock,rest]
    exact ⟨last,rfl⟩

theorem eepromWriteSet {chip : Chip} (set : chip.latch = true) (address : UInt8)
    (data : List UInt8) :
    eepromWrite chip address data = ⟨storePage chip.memory address data,false⟩ := by
  obtain ⟨last,sent⟩ := sendWriting chip address chip.memory data
  have header : spiSend (spiSelect chip) [0x02,address] =
      ⟨chip,.writing address chip.memory⟩ := by
    simp [spiSend,spiSelect,clock,decode,set]
  unfold eepromWrite
  simp only [header,sent,spiUnselect]

end Fresknode.Eeprom
