import Mathlib.Data.Finmap

/-! The JSON values of `serde_json`, their compact rendering, and 64-bit floats as the JSON layer
sees them. -/

namespace TORdex

/-- A `std::collections::HashMap`: a finite map without an order. -/
abbrev HashMap (K V : Type) := Finmap fun _ : K => V

/-- `time::OffsetDateTime`, in nanoseconds since the Unix epoch. -/
abbrev OffsetDateTime := ℤ

/-- A finite float by its shortest decimal: `± mantissa * 10 ^ exponent`. -/
structure Decimal where
  negative : Bool
  mantissa : ℕ
  exponent : ℤ
  deriving DecidableEq, Repr

/-- An `f64`.  JSON has numbers for the finite ones only. -/
inductive F64 where
  | finite (d : Decimal)
  | infinite (negative : Bool)
  | nan
  deriving DecidableEq, Repr

/-- `f64::is_finite`. -/
def F64.isFinite : F64 → Bool
  | .finite _ => true
  | _ => false

/-- What `serde_json` writes for an `f64`: the number, or `null` when it is not finite. -/
def F64.toJson : F64 → Option Decimal
  | .finite d => some d
  | _ => none

/-- The integer part. -/
def Decimal.truncate (d : Decimal) : ℤ :=
  let whole : ℕ := if 0 ≤ d.exponent then d.mantissa * 10 ^ d.exponent.toNat
    else d.mantissa / 10 ^ (-d.exponent).toNat
  if d.negative then -whole else whole

/-- A float cast to a signed integer type: truncated, saturated at the bounds, zero for `NaN`. -/
def F64.saturate (low high : ℤ) : F64 → ℤ
  | .finite d => max low (min high d.truncate)
  | .infinite negative => if negative then low else high
  | .nan => 0

@[simp] theorem F64.toJson_isSome (x : F64) : x.toJson.isSome = x.isFinite := by cases x <;> rfl

/-- `serde_json::Value`.  An object keeps its keys in the order of the map behind it. -/
inductive Json where
  | null
  | bool (b : Bool)
  | int (n : ℤ)
  | float (d : Decimal)
  | str (s : String)
  | arr (items : List Json)
  | obj (fields : List (String × Json))
  deriving Repr

namespace Json

/-- `Value::as_str`. -/
def asStr : Json → Option String
  | .str s => some s
  | _ => none

/-- `Value::as_array`. -/
def asArray : Json → Option (List Json)
  | .arr items => some items
  | _ => none

/-- `Value::as_u64`. -/
def asU64 : Json → Option ℕ
  | .int n => if 0 ≤ n then some n.toNat else none
  | _ => none

/-- `Value::as_f64`. -/
def asF64 : Json → Option F64
  | .float d => some (.finite d)
  | .int n => some (.finite ⟨n < 0, n.natAbs, 0⟩)
  | _ => none

/-- `Value::get` with a string key: a lookup in an object, `None` for every other value. -/
def get (key : String) : Json → Option Json
  | .obj fields => (fields.find? fun f => f.1 == key).map (·.2)
  | _ => none

/-- Zeros in a row. -/
def zeros (n : ℕ) : String := String.ofList (List.replicate n '0')

/-- An exponent with its sign. -/
def renderExponent (k : ℤ) : String := (if 0 ≤ k then "+" else "") ++ toString k

/-- A decimal as `serde_json` writes a float: plain notation for decimal points between `-5` and `16`, scientific
notation with the sign of the exponent elsewhere. -/
def renderDecimal (d : Decimal) : String :=
  let digits := toString d.mantissa
  let point : ℤ := digits.length + d.exponent
  let body :=
    if d.mantissa = 0 then "0.0"
    else if 0 ≤ d.exponent ∧ point ≤ 16 then digits ++ zeros d.exponent.toNat ++ ".0"
    else if 0 < point ∧ point ≤ 16 then
      String.ofList (digits.toList.take point.toNat) ++ "." ++
        String.ofList (digits.toList.drop point.toNat)
    else if -5 < point ∧ point ≤ 0 then "0." ++ zeros (-point).toNat ++ digits
    else
      let fraction := String.ofList (digits.toList.drop 1)
      String.ofList (digits.toList.take 1) ++ (if fraction = "" then "" else "." ++ fraction) ++
        "e" ++ renderExponent (point - 1)
  if d.negative then "-" ++ body else body

/-- A hexadecimal digit, in lower case. -/
def hexDigit (n : ℕ) : Char := Char.ofNat (if n < 10 then 48 + n else 87 + n)

/-- The escapes of a JSON string. -/
def escape (c : Char) : List Char :=
  match c.toNat with
  | 0x22 => ['\\', '"']
  | 0x5c => ['\\', '\\']
  | 0x08 => ['\\', 'b']
  | 0x0c => ['\\', 'f']
  | 0x0a => ['\\', 'n']
  | 0x0d => ['\\', 'r']
  | 0x09 => ['\\', 't']
  | n => if n < 0x20 then ['\\', 'u', '0', '0', hexDigit (n / 16), hexDigit (n % 16)] else [c]

/-- A string in quotes. -/
def renderStr (s : String) : String := "\"" ++ String.ofList (s.toList.flatMap escape) ++ "\""

mutual

/-- The compact rendering, with floats written as `write` does. -/
def renderWith (write : Decimal → String) : Json → String
  | .null => "null"
  | .bool b => if b then "true" else "false"
  | .int n => toString n
  | .float d => write d
  | .str s => renderStr s
  | .arr items => "[" ++ renderItems write items ++ "]"
  | .obj fields => "\x7b" ++ renderFields write fields ++ "\x7d"

/-- The items of an array, with commas. -/
def renderItems (write : Decimal → String) : List Json → String
  | [] => ""
  | [x] => x.renderWith write
  | x :: xs => x.renderWith write ++ "," ++ renderItems write xs

/-- The fields of an object, with commas. -/
def renderFields (write : Decimal → String) : List (String × Json) → String
  | [] => ""
  | [(k, v)] => renderStr k ++ ":" ++ v.renderWith write
  | (k, v) :: fs => renderStr k ++ ":" ++ v.renderWith write ++ "," ++ renderFields write fs

end

/-- `Value::to_string`: the compact rendering. -/
def render (v : Json) : String := v.renderWith renderDecimal

/-- `serde_json::to_vec`, with floats written as `write` does. -/
def toVecWith (write : Decimal → String) (v : Json) : List UInt8 := (v.renderWith write).toUTF8.toList

/-- `serde_json::to_vec`. -/
def toVec (v : Json) : List UInt8 := v.toVecWith renderDecimal

end Json

end TORdex
