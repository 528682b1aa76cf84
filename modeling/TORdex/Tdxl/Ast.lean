import TORdex.Core.Json

/-! The syntax of TDXL. -/

namespace TORdex.Ast

/-- A comparison or a connective between two operands. -/
inductive BinOp where
  | eq
  | neq
  | ge
  | le
  | gt
  | lt
  | and
  | or
  deriving DecidableEq, Repr

/-- `format!("{:?}", op).to_lowercase()`. -/
def BinOp.lowercase : BinOp → String
  | .eq => "eq"
  | .neq => "neq"
  | .ge => "ge"
  | .le => "le"
  | .gt => "gt"
  | .lt => "lt"
  | .and => "and"
  | .or => "or"

/-- A literal or a name. -/
inductive Value where
  | integer (v : ℤ)
  | float (v : F64)
  | string (s : String)
  | bool (b : Bool)
  | null
  | ident (s : String)
  deriving DecidableEq, Repr

/-- `Display` of an `f64`: the shortest decimal without an exponent. -/
def displayFloat : F64 → String
  | .nan => "NaN"
  | .infinite negative => if negative then "-inf" else "inf"
  | .finite d =>
    let digits := toString d.mantissa
    let point : ℤ := digits.length + d.exponent
    let body :=
      if d.mantissa = 0 then "0"
      else if 0 ≤ d.exponent then digits ++ Json.zeros d.exponent.toNat
      else if 0 < point then
        String.ofList (digits.toList.take point.toNat) ++ "." ++
          String.ofList (digits.toList.drop point.toNat)
      else "0." ++ Json.zeros (-point).toNat ++ digits
    if d.negative then "-" ++ body else body

namespace Value

/-- The text of a value. -/
def asString : Value → String
  | integer v => toString v
  | float v => displayFloat v
  | string s => s
  | bool b => if b then "true" else "false"
  | null => "null"
  | ident s => s

end Value

/-- A condition. -/
inductive BinExpr where
  | field (field : String) (op : BinOp) (value : Value)
  | expr (left : BinExpr) (op : BinOp) (right : BinExpr)
  | value (value : Value)
  deriving DecidableEq, Repr

/-- The direction of `SORT BY`. -/
inductive Order where
  | asc
  | desc
  deriving DecidableEq, Repr

/-- A statement. -/
inductive Stmt where
  | fromSource (source : Value)
  | matchExpr (expr : BinExpr)
  | whereExpr (expr : BinExpr)
  | traverse (relation : Value) (depth : Option ℕ)
  | summarize
  | infer (rule : Value)
  | correlate (target : Value)
  | similar (target : Value)
  | classify (cls : Value)
  | timeline (start stop : Option Value)
  | sort (field : Value) (order : Order)
  | limit (n : ℕ)
  | store (name : Value)
  | exportTo (format : Value)
  | load (source : Value)
  | filter (expr : BinExpr)
  deriving DecidableEq, Repr

end TORdex.Ast
