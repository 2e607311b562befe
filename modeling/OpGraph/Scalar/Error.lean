import OpGraph.Graph.Error
import OpGraph.Operator
import OpGraph.Value

/-!
# Why a scalar has no value

An expression may fail to have a value at compile time for three kinds of
reason: the graph around it is broken, it cannot be compiled to scalar code, or
the code it compiles to fails when run.
-/

namespace OpGraph

/-- Why a node cannot be compiled to scalar code. -/
inductive CompileFault where
  /-- The result is not a scalar. -/
  | shape (type : DataType)
  /-- The node stands for a variable of the running program. -/
  | liveVariable (name : String)
  /-- An operator has the wrong number of inputs. -/
  | arity (expected found : Nat)
  /-- No operand is known for an input. -/
  | unresolved (input : NodeId)
deriving DecidableEq, Repr

/-- An operation that scalars do not have. -/
inductive Unsupported where
  | structural (op : BinaryOp)
  | matrixResult
deriving DecidableEq, Repr

/-- A value of a type that an operation cannot use. -/
inductive Mismatch where
  | asNumber (s : String)
  | asInteger (s : String)
  | asBoolean (s : String)
  | comparison (left right : ValueType)
deriving DecidableEq, Repr

/-- An integer result outside the 64-bit range. -/
inductive Overflow where
  | binary (op : BinaryOp) (left right : Int64)
  | abs (n : Int64)
  | double (x : Float)
deriving DecidableEq, Repr

/-- A value that a cast cannot convert. -/
inductive CastFault where
  | notFinite (x : Float)
  | notDouble (s : String)
  | notInteger (s : String)
  | notBoolean (s : String)
deriving DecidableEq, Repr

/-- Why an expression has no value. -/
inductive EvalError where
  | graph (cause : GraphError)
  | compile (id : NodeId) (fault : CompileFault)
  | unsupported (what : Unsupported)
  | mismatch (what : Mismatch)
  | divisionByZero (op : BinaryOp) (dividend : Int64)
  | overflow (what : Overflow)
  | cast (fault : CastFault)
  | undefined (name : String)
  | untyped (type : ValueType)
deriving DecidableEq, Repr

def CompileFault.message : CompileFault → String
  | shape type => type.text ++ " output is not a scalar"
  | liveVariable name => s!"variable '{name}' has no compile-time value"
  | arity expected found => s!"expected {expected} input(s), found {found}"
  | unresolved input => s!"input {input} was not lowered"

def Unsupported.message : Unsupported → String
  | structural op => op.symbol ++ " is not defined on scalars"
  | matrixResult => "as.matrix produces a matrix"

def Mismatch.message : Mismatch → String
  | asNumber s => s!"string '{s}' used as a number"
  | asInteger s => s!"string '{s}' used as an integer"
  | asBoolean s => s!"string '{s}' used as a boolean"
  | comparison left right => "cannot compare " ++ left.text ++ " with " ++ right.text

/-- The wording of an overflow: the operation that has no result. -/
def Overflow.message : Overflow → String
  | binary op left right =>
      (Value.int left).text ++ " " ++ op.symbol ++ " " ++ (Value.int right).text
  | abs n => "abs(" ++ (Value.int n).text ++ ")"
  | double x => (Value.double x).text ++ " does not fit into a 64-bit integer"

def CastFault.message : CastFault → String
  | notFinite x => (Value.double x).text ++ " cannot be converted to an integer"
  | notDouble s => s!"'{s}' is not a double"
  | notInteger s => s!"'{s}' is not an integer"
  | notBoolean s => s!"'{s}' is not a boolean"

/-- The wording of an error. An error of the graph is passed on as it is. -/
def EvalError.message : EvalError → String
  | graph cause => cause.message
  | compile id fault => s!"cannot lower hop {id}: " ++ fault.message
  | unsupported what => "unsupported scalar operation: " ++ what.message
  | mismatch what => "type mismatch: " ++ what.message
  | divisionByZero op dividend =>
      "division by zero: " ++ (Value.int dividend).text ++ " " ++ op.symbol ++ " 0"
  | overflow what => "integer overflow: " ++ what.message
  | cast fault => "invalid cast: " ++ fault.message
  | undefined name => s!"undefined variable '{name}'"
  | untyped type => "unsupported literal value type: " ++ type.text

end OpGraph
