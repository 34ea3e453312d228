import Fresknode.SerialPump
import Fresknode.TextStreams

/-! The bytes the data pump thread writes. Both frames start with s and end with e, and
their widths are least widths only; it is the marks between the numbers that tell one kind
from the other and where a frame ends. -/
namespace Fresknode.SerialPump
open TextStreams

def literal (c : Char) : Piece := .literal c.toUInt8

/- "s%5u,%5u,%5u,%5ue" -/
def roundFormat : List Piece :=
  [literal 's',.unsigned 5,literal ',',.unsigned 5,literal ',',.unsigned 5,literal ',',
    .unsigned 5,literal 'e']

/- "s%6u,%6u,%6ue\n" -/
def rangeFormat : List Piece :=
  [literal 's',.unsigned 6,literal ',',.unsigned 6,literal ',',.unsigned 6,literal 'e',
    literal '\n']

def frameBytes : Frame → List UInt8
  | .roundResults ranges => print roundFormat (ranges.toList.map UInt32.toNat)
  | .rangeResult data => print rangeFormat [data.node.toNat,data.range.toNat,data.rssi.toNat]

theorem roundDelimited : Delimited roundFormat :=
  ⟨by decide,by decide,by decide,by decide,by decide,trivial⟩

theorem rangeDelimited : Delimited rangeFormat :=
  ⟨by decide,by decide,by decide,by decide,by decide,trivial⟩

theorem roundCount (ranges : Vector UInt32 4) :
    (ranges.toList.map UInt32.toNat).length = fields roundFormat := by
  rw [List.length_map,Vector.length_toList]
  rfl

theorem roundValues {a b : Vector UInt32 4}
    (same : a.toList.map UInt32.toNat = b.toList.map UInt32.toNat) : a = b := by
  have entries := (List.map_inj_right fun _ _ h => UInt32.toNat_inj.mp h).mp same
  exact Vector.toList_inj.mp entries

theorem rangeValues {a b : RangeInfo}
    (same : [a.node.toNat,a.range.toNat,a.rssi.toNat] =
      [b.node.toNat,b.range.toNat,b.rssi.toNat]) : a = b := by
  simp only [List.cons.injEq,UInt16.toNat_inj,UInt32.toNat_inj,and_true] at same
  obtain ⟨node,range,rssi⟩ := same
  cases a
  cases b
  simp_all

/- Cut at the marks, a round frame has a third comma where a range frame ends. -/
theorem kindsApart {ranges : Vector UInt32 4} {data : RangeInfo} {rest more : List UInt8} :
    frameBytes (.roundResults ranges) ++ rest ≠ frameBytes (.rangeResult data) ++ more := by
  intro same
  have cut := congrArg (List.filter (!numeric ·)) same
  simp only [frameBytes,List.filter_append,marksPrinted roundDelimited,marksPrinted rangeDelimited] at cut
  have third : (marks roundFormat ++ rest.filter (!numeric ·))[3]? =
      (marks rangeFormat ++ more.filter (!numeric ·))[3]? := by rw [cut]
  exact absurd (Option.some.inj third) (by decide)

theorem framesFree : PrefixFree frameBytes := by
  intro a b begins
  obtain ⟨more,same⟩ := begins
  rw [← List.append_nil (frameBytes b)] at same
  cases a with
  | roundResults ranges =>
    cases b with
    | roundResults others =>
      have read := fieldsRead roundDelimited (roundCount ranges) (roundCount others) same
      exact congrArg Frame.roundResults (roundValues read.1)
    | rangeResult data => exact absurd same kindsApart
  | rangeResult data =>
    cases b with
    | roundResults ranges => exact absurd same.symm kindsApart
    | rangeResult other =>
      exact congrArg Frame.rangeResult (rangeValues (fieldsRead rangeDelimited rfl rfl same).1)

theorem frameNonempty (frame : Frame) : frameBytes frame ≠ [] := by
  cases frame <;> exact List.cons_ne_nil _ _

theorem streamDecodable : Function.Injective (stream frameBytes) ∧ PrefixFree frameBytes :=
  ⟨streamInjective framesFree frameNonempty,framesFree⟩

example : frameBytes (.rangeResult ⟨7,123,4294967295⟩) =
    [0x73,0x20,0x20,0x20,0x20,0x20,0x37,0x2c,0x20,0x20,0x20,0x31,0x32,0x33,0x2c,0x34,0x32,
      0x39,0x34,0x39,0x36,0x37,0x32,0x39,0x35,0x65,0x0a] := by
  decide

end Fresknode.SerialPump
