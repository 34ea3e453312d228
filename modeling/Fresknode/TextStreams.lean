import Mathlib.Data.List.Infix

/-! Streams of printed records. A code that no record's text begins another's can be read
back from a concatenation. Decimal fields padded to a least width hold no mark, so a text
of fields and marks is cut at its marks, however wide the numbers are. -/
namespace Fresknode.TextStreams

variable {α β : Type _}

def PrefixFree (code : α → List β) : Prop := ∀ a b, code a <+: code b → a = b

def stream (code : α → List β) (records : List α) : List β := records.flatMap code

theorem headAgrees {code : α → List β} (free : PrefixFree code) {a b : α} {rest more : List β}
    (same : code a ++ rest = code b ++ more) : a = b ∧ rest = more := by
  have first : code a <+: code b ++ more := ⟨rest,same⟩
  have agree : a = b := by
    rcases List.prefix_or_prefix_of_prefix first (List.prefix_append (code b) more) with h | h
    · exact free a b h
    · exact (free b a h).symm
  refine ⟨agree,?_⟩
  rw [agree] at same
  exact List.append_cancel_left same

theorem streamInjective {code : α → List β} (free : PrefixFree code)
    (nonempty : ∀ a, code a ≠ []) : Function.Injective (stream code) := by
  intro records others same
  induction records generalizing others with
  | nil =>
    cases others with
    | nil => rfl
    | cons b others => exact absurd (List.append_eq_nil_iff.mp same.symm).1 (nonempty b)
  | cons a records ih =>
    cases others with
    | nil => exact absurd (List.append_eq_nil_iff.mp same).1 (nonempty a)
    | cons b others =>
      obtain ⟨rfl,rest⟩ := headAgrees free same
      rw [ih rest]

theorem streamPrefix {code : α → List β} (free : PrefixFree code) (nonempty : ∀ a, code a ≠ [])
    {records others : List α} {rest : List β} (same : stream code others = stream code records ++ rest) :
    records <+: others := by
  induction records generalizing others with
  | nil => exact List.nil_prefix
  | cons a records ih =>
    have first : stream code (a::records) ++ rest = code a ++ (stream code records ++ rest) :=
      List.append_assoc _ _ _
    rw [first] at same
    cases others with
    | nil => exact absurd (List.append_eq_nil_iff.mp same.symm).1 (nonempty a)
    | cons b others =>
      obtain ⟨rfl,later⟩ := headAgrees free same
      exact List.cons_prefix_cons.mpr ⟨rfl,ih later⟩

def numeric (b : UInt8) : Bool := b == 0x20 || (0x30 ≤ b && b ≤ 0x39)

def numeral (n : Nat) : List UInt8 := (Nat.toDigits 10 n).map Char.toUInt8

def padded (width n : Nat) : List UInt8 := (numeral n).leftpad width 0x20

inductive Piece where
  | literal (b : UInt8)
  | unsigned (width : Nat)
  deriving DecidableEq, Repr

def print : List Piece → List Nat → List UInt8
  | [],_ => []
  | .literal b::format,args => b :: print format args
  | .unsigned width::format,n::args => padded width n ++ print format args
  | .unsigned _::format,[] => print format []

def fields : List Piece → Nat
  | [] => 0
  | .literal _::format => fields format
  | .unsigned _::format => fields format + 1

def marks : List Piece → List UInt8
  | [] => []
  | .literal b::format => b :: marks format
  | .unsigned _::format => marks format

theorem digitByte {c : Char} (digit : c.isDigit) :
    0x30 ≤ c.toUInt8.toNat ∧ c.toUInt8.toNat ≤ 0x39 ∧ Char.ofUInt8 c.toUInt8 = c := by
  simp only [Char.isDigit,ge_iff_le,Bool.and_eq_true,decide_eq_true_eq,UInt32.le_iff_toNat_le] at digit
  obtain ⟨low,high⟩ := digit
  have byte : c.toUInt8.toNat = c.val.toNat := by
    unfold Char.toUInt8
    rw [UInt32.toNat_toUInt8]
    exact Nat.mod_eq_of_lt (Nat.lt_of_le_of_lt high (by decide))
  refine ⟨byte ▸ low,byte ▸ high,Char.ext (UInt32.toNat_inj.mp ?_)⟩
  unfold Char.ofUInt8
  rw [UInt8.toNat_toUInt32,byte]

theorem numeralDigits {n : Nat} {b : UInt8} (member : b ∈ numeral n) :
    0x30 ≤ b.toNat ∧ b.toNat ≤ 0x39 := by
  obtain ⟨c,inside,rfl⟩ := List.mem_map.mp member
  have digit := digitByte (Nat.isDigit_of_mem_toDigits (by decide) (by decide) inside)
  exact ⟨digit.1,digit.2.1⟩

theorem numeralInjective : Function.Injective numeral := by
  intro n k same
  have back : ∀ m, (numeral m).map Char.ofUInt8 = Nat.toDigits 10 m := by
    intro m
    unfold numeral
    rw [List.map_map]
    refine (List.map_congr_left fun c inside => ?_).trans (List.map_id _)
    exact (digitByte (Nat.isDigit_of_mem_toDigits (by decide) (by decide) inside)).2.2
  have digits : Nat.toDigits 10 n = Nat.toDigits 10 k := by rw [← back,← back,same]
  rw [← Nat.ofDigitChars_ten_toDigits (n := n),digits,Nat.ofDigitChars_ten_toDigits]

theorem paddedNumeral (width n : Nat) : (padded width n).dropWhile (· == 0x20) = numeral n := by
  have blanks : ∀ b ∈ List.replicate (width - (numeral n).length) (0x20 : UInt8), b == 0x20 := by
    intro b member
    simp [List.eq_of_mem_replicate member]
  unfold padded List.leftpad
  rw [List.dropWhile_append_of_pos blanks]
  cases found : numeral n with
  | nil => rfl
  | cons b rest =>
    have digit := numeralDigits (n := n) (b := b) (by rw [found]; exact List.mem_cons_self)
    refine List.dropWhile_cons_of_neg ?_
    intro blank
    rw [eq_of_beq blank] at digit
    exact absurd digit (by decide)

theorem paddedInjective {width other n k : Nat} (same : padded width n = padded other k) : n = k := by
  refine numeralInjective ?_
  rw [← paddedNumeral width n,same,paddedNumeral]

theorem paddedNumeric {width n : Nat} {b : UInt8} (member : b ∈ padded width n) : numeric b := by
  unfold padded List.leftpad at member
  unfold numeric
  rcases List.mem_append.mp member with blank | digit
  · simp [List.eq_of_mem_replicate blank]
  · have bounds := numeralDigits digit
    simp only [Bool.or_eq_true,Bool.and_eq_true,decide_eq_true_eq,UInt8.le_iff_toNat_le]
    exact .inr bounds

def Delimited : List Piece → Prop
  | [] => True
  | .literal b::format => ¬numeric b ∧ Delimited format
  | .unsigned _::.literal b::format => ¬numeric b ∧ Delimited format
  | .unsigned _::_ => False

theorem cutAgrees {x y rest more : List UInt8} {p q : UInt8} (left : ∀ b ∈ x, numeric b)
    (right : ∀ b ∈ y, numeric b) (stop : ¬numeric p) (stopToo : ¬numeric q)
    (same : x ++ p::rest = y ++ q::more) : x = y ∧ p::rest = q::more := by
  induction x generalizing y with
  | nil =>
    cases y with
    | nil => exact ⟨rfl,same⟩
    | cons c y =>
      obtain ⟨rfl,_⟩ := List.cons.inj same
      exact absurd (right p List.mem_cons_self) stop
  | cons b x ih =>
    cases y with
    | nil =>
      obtain ⟨rfl,_⟩ := List.cons.inj same
      exact absurd (left b List.mem_cons_self) stopToo
    | cons c y =>
      rw [List.cons_append,List.cons_append] at same
      obtain ⟨rfl,after⟩ := List.cons.inj same
      obtain ⟨rfl,tails⟩ := ih (fun b h => left b (List.mem_cons_of_mem _ h))
        (fun b h => right b (List.mem_cons_of_mem _ h)) after
      exact ⟨rfl,tails⟩

theorem fieldsRead {format : List Piece} (delimited : Delimited format) {args others : List Nat}
    (count : args.length = fields format) (countToo : others.length = fields format)
    {rest more : List UInt8} (same : print format args ++ rest = print format others ++ more) :
    args = others ∧ rest = more := by
  induction format using Delimited.induct generalizing args others with
  | case1 =>
    rw [List.eq_nil_of_length_eq_zero count,List.eq_nil_of_length_eq_zero countToo]
    exact ⟨rfl,same⟩
  | case2 b format ih =>
    exact ih delimited.2 count countToo (List.cons.inj same).2
  | case3 width b format ih =>
    obtain ⟨n,args,rfl⟩ := List.exists_cons_of_length_eq_add_one count
    obtain ⟨k,others,rfl⟩ := List.exists_cons_of_length_eq_add_one countToo
    simp only [print,List.append_assoc,List.cons_append] at same
    obtain ⟨field,tails⟩ := cutAgrees (fun _ h => paddedNumeric h) (fun _ h => paddedNumeric h)
      delimited.1 delimited.1 same
    obtain ⟨rfl,rests⟩ := ih delimited.2 (Nat.succ.inj count) (Nat.succ.inj countToo)
      (List.cons.inj tails).2
    exact ⟨by rw [paddedInjective field],rests⟩
  | case4 width format other =>
    rw [Delimited.eq_4 width format other] at delimited
    exact delimited.elim

theorem marksPrinted {format : List Piece} (delimited : Delimited format) (args : List Nat) :
    (print format args).filter (!numeric ·) = marks format := by
  induction format using Delimited.induct generalizing args with
  | case1 => rfl
  | case2 b format ih =>
    unfold print marks
    rw [List.filter_cons_of_pos (by simp [delimited.1]),ih delimited.2]
  | case3 width b format ih =>
    have later : (b :: print format args.tail).filter (!numeric ·) = b :: marks format := by
      rw [List.filter_cons_of_pos (by simp [delimited.1]),ih delimited.2]
    cases args with
    | nil => exact later
    | cons n args =>
      have field : (padded width n).filter (!numeric ·) = [] := by
        refine List.filter_eq_nil_iff.mpr fun b member => ?_
        simp [paddedNumeric member]
      simp only [print,marks,List.filter_append,field,List.nil_append]
      exact later
  | case4 width format other =>
    rw [Delimited.eq_4 width format other] at delimited
    exact delimited.elim

end Fresknode.TextStreams
