import NormalGrammar.Grammar.Validation
import NormalGrammar.Listing
import NormalGrammar.Stage

/-!
# Runs

A run passes a valid grammar through the stages in order.  Removing non-productive symbols can leave symbols that were
accessible only through them, so if that stage changed the grammar the inaccessible symbols are removed once more.
Every run numbers its new names from one.
-/

namespace NormalGrammar

/-- One application of a stage. -/
structure Pass where
  stage : Stage
  before : Draft

namespace Pass

def after (p : Pass) : Draft := p.stage.apply p.before

def result (p : Pass) : Grammar := p.after.grammar

/-- The pass that goes on where `p` ended. -/
def followedBy (p : Pass) (stage : Stage) : Pass := ⟨stage, p.after⟩

/-- The reports of the stage, then the size and the text of its result. -/
def events (p : Pass) : List Event :=
  let G := p.result
  let sizes := s!"{G.nonterminals.size} non-terminals, {G.productions.size} productions"
  p.stage.events p.before ++
    [⟨.debug, .run, s!"After {p.stage.title}: {sizes}"⟩, ⟨.trace, .run, G.definition⟩]

end Pass

/-- The grammar that a run starts from, its passes, and the grammar it ends with. -/
structure Run where
  source : Grammar
  passes : List Pass
  result : Grammar

/-- What a run reports: the size of the grammar, all passes, and whether nothing is left. -/
def Run.events (run : Run) : List Event :=
  let G := run.source
  let sizes := s!"{G.nonterminals.size} non-terminals, {G.terminals.size} terminals"
  [⟨.info, .run, s!"Normalizing grammar with {sizes} and {G.productions.size} productions"⟩] ++
    run.passes.flatMap Pass.events ++
    if run.result.startOwnsNothing then [⟨.info, .run, "Grammar generates the empty language"⟩] else []

namespace Grammar

/-- Sends the grammar through all stages, valid or not. -/
def passThrough (G : Grammar) : Run :=
  let erasure : Pass := ⟨.erasure, G, {}⟩
  let units := erasure.followedBy .units
  let accessibility := units.followedBy .accessibility
  let productivity := accessibility.followedBy .productivity
  let sweep := productivity.followedBy .accessibility
  let swept := decide (¬ productivity.result ≈ accessibility.result)
  let binarization := (if swept then sweep else productivity).followedBy .binarization
  let isolation := binarization.followedBy .isolation
  { source := G
    passes := [erasure, units, accessibility, productivity] ++ (if swept then [sweep] else []) ++
      [binarization, isolation]
    result := isolation.result }

def run (G : Grammar) : Except ValidationError Run :=
  match G.validate with
  | .ok () => .ok G.passThrough
  | .error e => .error e

end Grammar

end NormalGrammar
