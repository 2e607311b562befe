import OpGraph.Decimal.Reader
import OpGraph.Scalar.Convert
import OpGraph.Scalar.Word
import OpGraph.Text.Blank

/-!
# What the operators compute

`applyUnary` and `applyBinary` are the only definitions of what an operator does
to scalars. Code that runs and constant folding both go through them, so a
folded literal is what the program would have computed.

`+`, `-`, `*`, `%/%`, `%%`, `min` and `max` stay with integers when both operands
are integers, and fail when the exact result is out of range; otherwise they
work on doubles. `+` joins texts as soon as one operand is a string. `/`, `^`
and `log` work on doubles always. Comparisons give truth values, and compare
two strings by their characters.
-/

namespace OpGraph

namespace Value

/-- An operation on two numbers. The left operand is converted first. -/
def onDoubles (f : Float → Float → Float) (l r : Value) : Except EvalError Value := do
  let x ← l.asDouble
  let y ← r.asDouble
  return double (f x y)

/-- An operation that stays with integers when both operands are integers. -/
def onNumbers (ints : Int64 → Int64 → Except EvalError Int64) (f : Float → Float → Float) :
    Value → Value → Except EvalError Value
  | int m, int n => (ints m n).map int
  | l, r => onDoubles f l r

/-- An operation on two truth values. Both operands are converted, whatever the
first one is. -/
def onBooleans (f : Bool → Bool → Bool) (l r : Value) : Except EvalError Value := do
  let x ← l.asBoolean
  let y ← r.asBoolean
  return boolean (f x y)

def onDouble (f : Float → Float) (v : Value) : Except EvalError Value :=
  v.asDouble.map fun x => double (f x)

/-- An operation on one number that leaves integers as they are. -/
def onFraction (f : Float → Float) : Value → Except EvalError Value
  | int n => .ok (int n)
  | v => onDouble f v

/-- How two doubles compare. A NaN is not comparable with anything. -/
def compareDoubles (x y : Float) : Option Ordering :=
  if x < y then some .lt
  else if x == y then some .eq
  else if y < x then some .gt
  else none

/-- How two values compare, if they can be compared. -/
def order : Value → Value → Except EvalError (Option Ordering)
  | string s, string t => .ok (some (compare s t))
  | string s, r => .error (.mismatch (.comparison (string s).type r.type))
  | l, string t => .error (.mismatch (.comparison l.type (string t).type))
  | int m, int n => .ok (some (compare m n))
  | l, r => do
      let x ← l.asDouble
      let y ← r.asDouble
      return compareDoubles x y

/-- A comparison, as a test on how the operands compare. -/
def onOrder (holds : Option Ordering → Bool) (l r : Value) : Except EvalError Value :=
  (order l r).map fun o => boolean (holds o)

def concat (l r : Value) : Value := string (l.text ++ r.text)

/-- The lesser of two doubles; a NaN wins over everything. -/
def lesser (x y : Float) : Float :=
  if x.isNaN || y.isNaN then 0.0 / 0.0 else if y < x then y else x

/-- The greater of two doubles; a NaN wins over everything. -/
def greater (x y : Float) : Float :=
  if x.isNaN || y.isNaN then 0.0 / 0.0 else if x < y then y else x

/-- The double that a value is cast to. A string has to be the text of one,
with blanks around it or without. -/
def castDouble : Value → Except EvalError Float
  | string s =>
      match Decimal.readDouble (Text.trim s.toList) with
      | some x => .ok x
      | none => .error (.cast (.notDouble s))
  | v => v.asDouble

/-- The integer that a value is cast to. A string that is no 64-bit integer is
read as a double and loses its fraction. -/
def castInteger : Value → Except EvalError Int64
  | string s =>
      let cs := Text.trim s.toList
      match (Decimal.readInteger cs).bind Word.ofInt? with
      | some n => .ok n
      | none =>
          match Decimal.readDouble cs with
          | some x => truncate x
          | none => .error (.cast (.notInteger (String.ofList cs)))
  | v => v.asInteger

/-- The truth value that a value is cast to. The two words are known in upper
and in lower case. -/
def castBoolean : Value → Except EvalError Bool
  | string s =>
      let word := String.ofList (Text.trim s.toList)
      if word = "TRUE" ∨ word = "true" then .ok true
      else if word = "FALSE" ∨ word = "false" then .ok false
      else .error (.cast (.notBoolean word))
  | v => v.asBoolean

end Value

/-- The result of an operation on words, or the overflow that it is. -/
def exactly (op : BinaryOp) (f : Int64 → Int64 → Option Int64) (l r : Int64) :
    Except EvalError Int64 :=
  match f l r with
  | some n => .ok n
  | none => .error (.overflow (.binary op l r))

/-- The floor of a quotient of integers. -/
def intQuotient (l r : Int64) : Except EvalError Int64 :=
  if r = 0 then .error (.divisionByZero .intDivide l)
  else exactly .intDivide Word.floorDiv? l r

/-- What the floor of a quotient of integers leaves over. -/
def intRemainder (l r : Int64) : Except EvalError Int64 :=
  if r = 0 then .error (.divisionByZero .modulus l) else .ok (Word.floorMod l r)

def applyUnary (op : UnaryOp) (v : Value) : Except EvalError Value :=
  match op with
  | .not => v.asBoolean.map fun b => .boolean (!b)
  | .abs =>
      match v with
      | .int n =>
          match Word.abs? n with
          | some m => .ok (.int m)
          | none => .error (.overflow (.abs n))
      | v => v.onDouble Float.abs
  | .sqrt => v.onDouble Float.sqrt
  | .exp => v.onDouble Float.exp
  | .log => v.onDouble Float.log
  | .round => v.onFraction Float.round
  | .floor => v.onFraction Float.floor
  | .ceil => v.onFraction Float.ceil
  | .sin => v.onDouble Float.sin
  | .cos => v.onDouble Float.cos
  | .asScalar => .ok v
  | .asMatrix => .error (.unsupported .matrixResult)
  | .asDouble => v.castDouble.map .double
  | .asInteger => v.castInteger.map .int
  | .asLogical => v.castBoolean.map .boolean

def applyBinary (op : BinaryOp) (l r : Value) : Except EvalError Value :=
  match op with
  | .plus =>
      if l.isString || r.isString then .ok (l.concat r)
      else l.onNumbers (exactly .plus Word.add?) (fun x y => x + y) r
  | .minus => l.onNumbers (exactly .minus Word.sub?) (fun x y => x - y) r
  | .times => l.onNumbers (exactly .times Word.mul?) (fun x y => x * y) r
  | .divide => l.onDoubles (fun x y => x / y) r
  | .intDivide => l.onNumbers intQuotient (fun x y => (x / y).floor) r
  | .modulus => l.onNumbers intRemainder (fun x y => x - y * (x / y).floor) r
  | .power => l.onDoubles Float.pow r
  | .log => l.onDoubles (fun x y => x.log / y.log) r
  | .min => l.onNumbers (fun m n => .ok (if n < m then n else m)) Value.lesser r
  | .max => l.onNumbers (fun m n => .ok (if m < n then n else m)) Value.greater r
  | .less => l.onOrder (· == some .lt) r
  | .lessEqual => l.onOrder (fun o => o == some .lt || o == some .eq) r
  | .greater => l.onOrder (· == some .gt) r
  | .greaterEqual => l.onOrder (fun o => o == some .gt || o == some .eq) r
  | .equal => l.onOrder (· == some .eq) r
  | .notEqual => l.onOrder (· != some .eq) r
  | .and => l.onBooleans (fun x y => x && y) r
  | .or => l.onBooleans (fun x y => x || y) r
  | .cbind => .error (.unsupported (.structural .cbind))
  | .rbind => .error (.unsupported (.structural .rbind))

end OpGraph
