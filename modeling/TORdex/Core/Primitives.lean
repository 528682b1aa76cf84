import Mathlib.Algebra.Ring.Int.Defs
import Mathlib.Data.List.DropRight
import Mathlib.Order.Lattice
import TORdex.Core.Json

/-! Operations of the standard library on characters and floats, and bounds of its integers. -/

namespace TORdex

/-- `usize::MAX`. -/
def usizeMax : ℕ := 2 ^ 64 - 1

/-- The Unicode property `White_Space`. -/
def isWhiteSpace (c : Char) : Bool :=
  let n := c.toNat
  (9 ≤ n && n ≤ 13) || n = 0x20 || n = 0x85 || n = 0xA0 || n = 0x1680 || (0x2000 ≤ n && n ≤ 0x200A) ||
    n = 0x2028 || n = 0x2029 || n = 0x202F || n = 0x205F || n = 0x3000

/-- The lower case of an ASCII text. -/
def asciiLowercase (s : String) : String := String.ofList (s.toList.map Char.toLower)

/-- `str::trim`. -/
def trimText (s : List Char) : List Char := (s.dropWhile isWhiteSpace).rdropWhile isWhiteSpace

/-- `str::lines`: each line ends before a line feed, or before the carriage return in front of it; there is no
line after the last line feed. -/
def textLines (s : List Char) : List (List Char) :=
  let parts := s.splitOn '\n'
  let strip (line : List Char) := if line.getLast? = some '\r' then line.dropLast else line
  parts.dropLast.map strip ++ (parts.getLast?.filter fun line => !line.isEmpty).toList

example : textLines "a\r\n\nb".toList = ["a".toList, [], "b".toList] := by decide

/-- `str::split_whitespace`. -/
def splitWhitespace (text : String) : List (List Char) :=
  (text.toList.splitOnP isWhiteSpace).filter fun word => !word.isEmpty

/-- `parse::<usize>()`. -/
def parseUsize (text : String) : Option ℕ :=
  let digits := match text.toList with
    | '+' :: digits => digits
    | digits => digits
  if digits.all Char.isDigit && !digits.isEmpty then
    let n := digits.foldl (fun n c => 10 * n + (c.toNat - '0'.toNat)) 0
    if n ≤ usizeMax then some n else none
  else none

/-- The integer `± mantissa * 10 ^ (exponent - unit)`. -/
def Decimal.scaled (d : Decimal) (unit : ℤ) : ℤ :=
  let whole : ℤ := d.mantissa * 10 ^ (d.exponent - unit).toNat
  if d.negative then -whole else whole

/-- The order of decimals. -/
def Decimal.le (a b : Decimal) : Bool :=
  let unit := min a.exponent b.exponent
  a.scaled unit ≤ b.scaled unit

/-- `b >= a`; false when one of them is not a number. -/
def F64.le : F64 → F64 → Bool
  | .finite a, .finite b => a.le b
  | .infinite true, .finite _ => true
  | .finite _, .infinite negative => !negative
  | .infinite a, .infinite b => a || !b
  | _, _ => false

/-- `time::Duration::whole_seconds`. -/
def wholeSeconds (nanoseconds : ℤ) : ℤ := nanoseconds.tdiv (10 ^ 9)

end TORdex
