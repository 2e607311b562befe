import OpGraph.Types
import OpGraph.Decimal.Layout

/-!
# Scalar values

The values that literals carry and that operators compute: doubles, 64-bit
integers, truth values and texts.
-/

namespace OpGraph

inductive Value where
  | double (x : Float)
  | int (n : Int64)
  | boolean (b : Bool)
  | string (s : String)
deriving DecidableEq, Repr

namespace Value

/-- The type of a value. No value has the type `unknown`. -/
def type : Value → ValueType
  | double _ => .double
  | int _ => .int
  | boolean _ => .boolean
  | string _ => .string

/-- Doubles from `10 ^ -4` up to, but not including, `10 ^ 16` are written
positionally. -/
def layout : Decimal.Layout := ⟨-4, 15, "NaN", "Infinity"⟩

/-- The text of a value. A string is its own text, without quotes. -/
def text : Value → String
  | double x => layout.write x
  | int n => toString n.toInt
  | boolean true => "TRUE"
  | boolean false => "FALSE"
  | string s => s

/-- The text of a value where it stands for itself in code: a string is put
between quotes, and nothing in it is escaped. -/
def quoted : Value → String
  | string s => "\"" ++ s ++ "\""
  | v => v.text

def isString : Value → Bool
  | string _ => true
  | _ => false

/-- The truth value that a value is, if it is one. Nothing is converted. -/
def boolean? : Value → Option Bool
  | boolean b => some b
  | _ => none

end Value

end OpGraph
