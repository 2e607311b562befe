import OpGraph.Graph.Error

/-!
# What an optimizer is asked to do
-/

namespace OpGraph

/-- Which rules run, and whether blocks are checked before and after them. -/
structure Settings where
  constantFolding : Bool
  foldPredicates : Bool
  verify : Bool
deriving DecidableEq, Repr

/-- Why an optimizer gave up. -/
inductive OptimizeError where
  /-- Predicates are to be folded, but nothing else. -/
  | predicatesAlone
  /-- The part of the graph below a block is broken. -/
  | malformed (block : String) (cause : GraphError)
  /-- A rule found the graph broken. -/
  | rule (name block : String) (cause : GraphError)
deriving DecidableEq, Repr

def OptimizeError.message : OptimizeError → String
  | predicatesAlone =>
      "invalid rewriter configuration: fold_predicates requires constant_folding"
  | malformed block cause =>
      "statement block '" ++ block ++ "' is malformed: " ++ cause.message
  | rule name block cause =>
      "rule '" ++ name ++ "' failed on statement block '" ++ block ++ "': " ++ cause.message

namespace Settings

def all : Settings := ⟨true, true, true⟩

def none : Settings := ⟨false, false, false⟩

/-- Folding predicates is a part of constant folding. -/
def validate (s : Settings) : Except OptimizeError Unit :=
  if s.foldPredicates && !s.constantFolding then .error .predicatesAlone else .ok ()

end Settings

end OpGraph
