import OpGraph.Scalar.Error

/-!
# Conversions between scalar values

A value can be used as a number, as an integer or as a truth value when it is
not a string, and every value has a text. `Value.coerce` converts a result to
the type its node declares, which is how declared types take effect.
-/

namespace OpGraph.Value

/-- The number `2 ^ 63`. Doubles from here on are too great to be a 64-bit
integer. -/
def integerBound : Float := 9223372036854775808.0

/-- The integer part of a double, if it is a 64-bit integer. -/
def truncate (x : Float) : Except EvalError Int64 :=
  if x.isNaN || x.isInf then .error (.cast (.notFinite x))
  else if integerBound ≤ x || x < -integerBound then .error (.overflow (.double x))
  else .ok x.toInt64

/-- The number that a value is; `TRUE` counts as one and `FALSE` as zero. -/
def asDouble : Value → Except EvalError Float
  | double x => .ok x
  | int n => .ok n.toFloat
  | boolean b => .ok (if b then 1.0 else 0.0)
  | string s => .error (.mismatch (.asNumber s))

/-- The integer that a value is; doubles lose their fraction. -/
def asInteger : Value → Except EvalError Int64
  | double x => truncate x
  | int n => .ok n
  | boolean b => .ok (if b then 1 else 0)
  | string s => .error (.mismatch (.asInteger s))

/-- The truth value that a value is; a number is true when it is not zero. -/
def asBoolean : Value → Except EvalError Bool
  | double x => .ok (x != 0.0)
  | int n => .ok (n != 0)
  | boolean b => .ok b
  | string s => .error (.mismatch (.asBoolean s))

/-- A value of the given type. A value that has the type already is kept, and
`unknown` keeps every value. -/
def coerce (type : ValueType) (v : Value) : Except EvalError Value :=
  match type with
  | .double => v.asDouble.map double
  | .int => v.asInteger.map int
  | .boolean => v.asBoolean.map boolean
  | .string => .ok (string v.text)
  | .unknown => .ok v

/-- The literal that a node of the given type becomes when it is known to have
this value. A literal has a type, so the declared one must be known. -/
def toLiteral (type : ValueType) (v : Value) : Except EvalError Value :=
  if type = .unknown then .error (.untyped type) else v.coerce type

end OpGraph.Value
