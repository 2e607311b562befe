/-!
# Operators

The unary and binary operators of the source language, with the symbols under
which they appear in listings, instructions and messages.
-/

namespace OpGraph

inductive UnaryOp where
  | not
  | abs
  | sqrt
  | exp
  | log
  | round
  | floor
  | ceil
  | sin
  | cos
  | asScalar
  | asMatrix
  | asDouble
  | asInteger
  | asLogical
deriving DecidableEq, Repr

inductive BinaryOp where
  | plus
  | minus
  | times
  | divide
  | modulus
  | intDivide
  | power
  | less
  | lessEqual
  | greater
  | greaterEqual
  | equal
  | notEqual
  | and
  | or
  | min
  | max
  | log
  | cbind
  | rbind
deriving DecidableEq, Repr

namespace UnaryOp

def symbol : UnaryOp → String
  | not => "!"
  | abs => "abs"
  | sqrt => "sqrt"
  | exp => "exp"
  | log => "log"
  | round => "round"
  | floor => "floor"
  | ceil => "ceil"
  | sin => "sin"
  | cos => "cos"
  | asScalar => "as.scalar"
  | asMatrix => "as.matrix"
  | asDouble => "as.double"
  | asInteger => "as.integer"
  | asLogical => "as.logical"

/-- Whether an operator converts a scalar to another value type. -/
def isValueCast : UnaryOp → Bool
  | asDouble | asInteger | asLogical => true
  | _ => false

end UnaryOp

namespace BinaryOp

def symbol : BinaryOp → String
  | plus => "+"
  | minus => "-"
  | times => "*"
  | divide => "/"
  | modulus => "%%"
  | intDivide => "%/%"
  | power => "^"
  | less => "<"
  | lessEqual => "<="
  | greater => ">"
  | greaterEqual => ">="
  | equal => "=="
  | notEqual => "!="
  | and => "&"
  | or => "|"
  | min => "min"
  | max => "max"
  | log => "log"
  | cbind => "cbind"
  | rbind => "rbind"

/-- Whether an operator puts its operands side by side or on top of each other.
Such an operator has no meaning on scalars. -/
def isStructural : BinaryOp → Bool
  | cbind | rbind => true
  | _ => false

end BinaryOp

end OpGraph
