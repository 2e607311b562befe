/-!
# Types of values and of data

Every node of an operator graph declares two things about its result: what a
single cell of it holds (`ValueType`) and what shape it comes in (`DataType`).
Both have a fixed upper-case spelling, used in listings, in instructions and in
messages.
-/

namespace OpGraph

/-- What one cell of a result holds. `unknown` is the type of a result about
which nothing was declared. -/
inductive ValueType where
  | double
  | int
  | boolean
  | string
  | unknown
deriving DecidableEq, Repr, Inhabited

/-- The shape in which a result comes. -/
inductive DataType where
  | scalar
  | matrix
  | frame
deriving DecidableEq, Repr, Inhabited

namespace ValueType

def text : ValueType → String
  | double => "DOUBLE"
  | int => "INT"
  | boolean => "BOOLEAN"
  | string => "STRING"
  | unknown => "UNKNOWN"

end ValueType

/-- The size of a result: rows and columns, then rows and columns of a block of
it. A size that is not known at compile time is `-1`. -/
structure Extent where
  rows : Int
  cols : Int
  blockRows : Int
  blockCols : Int
deriving DecidableEq, Repr

namespace DataType

def text : DataType → String
  | scalar => "SCALAR"
  | matrix => "MATRIX"
  | frame => "FRAME"

/-- A scalar has no rows and no columns; the size of anything else is unknown
until it runs. -/
def extent : DataType → Extent
  | scalar => ⟨0, 0, -1, -1⟩
  | matrix => ⟨-1, -1, -1, -1⟩
  | frame => ⟨-1, -1, -1, -1⟩

end DataType

end OpGraph
