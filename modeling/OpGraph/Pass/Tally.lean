/-!
# What a pass has done

Counts of the nodes that a pass has looked at and of what it did to them. They
have no upper limit: the overflow of counters of 64 bits is left out.
-/

namespace OpGraph

/-- Counts of a pass, or of several passes together. -/
structure Tally where
  /-- Nodes handed to a rule. -/
  visited : Nat
  /-- Binary operators replaced by their value. -/
  binaryFolds : Nat
  /-- Casts replaced by their value. -/
  unaryFolds : Nat
  /-- Conjunctions and disjunctions decided by one of their operands. -/
  predicateFolds : Nat
  /-- Operators that were tried and have no value. -/
  failures : Nat
deriving DecidableEq, Repr

namespace Tally

def zero : Tally := ⟨0, 0, 0, 0, 0⟩

/-- How many nodes were replaced by literals. -/
def folds (t : Tally) : Nat := t.binaryFolds + t.unaryFolds + t.predicateFolds

def add (s t : Tally) : Tally where
  visited := s.visited + t.visited
  binaryFolds := s.binaryFolds + t.binaryFolds
  unaryFolds := s.unaryFolds + t.unaryFolds
  predicateFolds := s.predicateFolds + t.predicateFolds
  failures := s.failures + t.failures

def countVisit (t : Tally) : Tally := { t with visited := t.visited + 1 }

def countFold (t : Tally) (binary : Bool) : Tally :=
  if binary then { t with binaryFolds := t.binaryFolds + 1 }
  else { t with unaryFolds := t.unaryFolds + 1 }

def countPredicate (t : Tally) : Tally := { t with predicateFolds := t.predicateFolds + 1 }

def countFailure (t : Tally) : Tally := { t with failures := t.failures + 1 }

def text (t : Tally) : String :=
  "visited=" ++ toString t.visited ++ " folded=" ++ toString t.folds ++
    " (binary=" ++ toString t.binaryFolds ++ ", unary=" ++ toString t.unaryFolds ++
    ", predicate=" ++ toString t.predicateFolds ++ ") eval_failures=" ++ toString t.failures

end Tally

end OpGraph
