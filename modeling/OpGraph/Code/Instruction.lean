import OpGraph.Operator
import OpGraph.Value

/-!
# Instructions

Straight-line code over named variables. An operator instruction carries the
type that its node declares; the result is converted to it.
-/

namespace OpGraph

/-- What an instruction works on. -/
inductive Operand where
  | literal (value : Value)
  | var (name : String)
deriving DecidableEq, Repr

inductive Instruction where
  | unary (op : UnaryOp) (input : Operand) (out : String) (type : ValueType)
  | binary (op : BinaryOp) (left right : Operand) (out : String) (type : ValueType)
  | assign (input : Operand) (out : String)
  | remove (name : String)
deriving DecidableEq, Repr

/-- The text of an operand. A string literal is quoted. -/
def Operand.text : Operand → String
  | literal value => value.quoted
  | var name => name

def Instruction.text : Instruction → String
  | unary op input out type =>
      "CP " ++ op.symbol ++ " " ++ input.text ++ " " ++ out ++ "." ++ type.text
  | binary op left right out type =>
      "CP " ++ op.symbol ++ " " ++ left.text ++ " " ++ right.text ++ " " ++ out ++ "." ++ type.text
  | assign input out => "CP assignvar " ++ input.text ++ " " ++ out
  | remove name => "CP rmvar " ++ name

end OpGraph
