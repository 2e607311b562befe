import OpGraph.Graph.Check
import OpGraph.Pass.Folding
import OpGraph.Program.Block
import OpGraph.Program.Settings

/-!
# Optimizing a program

An optimizer applies a list of rules to the blocks of a program, one block after
the other. The graph and the memory of the rules are carried from block to
block. The roots of a block are updated after each rule. The first error ends
the work, and what was done up to then stays.
-/

namespace OpGraph

/-- The rules that settings select, and the rules added to them. -/
structure Optimizer (σ : Type) where
  settings : Settings
  rules : List (Rule σ)

/-- The work on one block: the block as it is now, and what the rules work on,
with the counts of the whole program. -/
structure Job (σ : Type) extends Session σ where
  block : Block

namespace Optimizer

variable {σ : Type}

/-- An optimizer with the rules that the settings select. -/
def new (settings : Settings) (evaluate : Evaluator σ) : Except OptimizeError (Optimizer σ) :=
  match settings.validate with
  | .error e => .error e
  | .ok _ =>
      if settings.constantFolding then
        .ok ⟨settings, [Folding.rule evaluate settings.foldPredicates]⟩
      else .ok ⟨settings, []⟩

def withRule (o : Optimizer σ) (rule : Rule σ) : Optimizer σ :=
  { o with rules := o.rules ++ [rule] }

def ruleNames (o : Optimizer σ) : List String := o.rules.map Rule.name

/-- Checks the part of the graph below the block, if that is asked for. -/
def verify (o : Optimizer σ) : EStateM OptimizeError (Job σ) Unit := fun j =>
  if o.settings.verify then
    match j.graph.check j.block.roots with
    | .ok _ => .ok () j
    | .error e => .error (.malformed j.block.name e) j
  else .ok () j

/-- Applies a rule to the block. The counts of the rule are added when it has
succeeded, and the roots are replaced only then. -/
def applyRule (rule : Rule σ) : EStateM OptimizeError (Job σ) Unit := fun j =>
  match rule.apply j.block.roots { j.toSession with tally := .zero } with
  | .ok roots s =>
      .ok () ⟨{ s with tally := j.tally.add s.tally }, { j.block with roots }⟩
  -- What the rule has done to the graph stays, what it has counted does not.
  | .error e s =>
      .error (.rule rule.name j.block.name e) ⟨{ s with tally := j.tally }, j.block⟩

def applyRules : List (Rule σ) → EStateM OptimizeError (Job σ) Unit
  | [] => pure ()
  | rule :: rest => do
      applyRule rule
      applyRules rest

/-- Checks a block, applies all rules to it, and checks it again. -/
def runBlock (o : Optimizer σ) : EStateM OptimizeError (Job σ) Unit := do
  o.verify
  applyRules o.rules
  o.verify

/-- Works through the blocks. The outcome comes with all the blocks, changed or
not. -/
def runBlocks (o : Optimizer σ) (s : Session σ) :
    List Block → Except OptimizeError Unit × List Block × Session σ
  | [] => (.ok (), [], s)
  | b :: rest =>
      match o.runBlock ⟨s, b⟩ with
      | .error e j => (.error e, j.block :: rest, j.toSession)
      | .ok _ j =>
          match o.runBlocks j.toSession rest with
          | (outcome, rest', s') => (outcome, j.block :: rest', s')

/-- Optimizes a program. The outcome is the counts of all rules on all blocks. -/
def run (o : Optimizer σ) (p : Program) (memory : σ) :
    Except OptimizeError Tally × Program × σ :=
  match o.runBlocks ⟨p.graph, .zero, memory⟩ p.blocks with
  | (outcome, blocks, s) => (outcome.map fun _ => s.tally, ⟨s.graph, blocks⟩, s.memory)

end Optimizer

end OpGraph
