import NormalGrammar.Accessibility
import NormalGrammar.Binarization
import NormalGrammar.Erasure
import NormalGrammar.Isolation
import NormalGrammar.Productivity
import NormalGrammar.UnitPairs

/-!
# The stages of normalization

Six stages bring a grammar into normal form.  The last two need new names and draw them from the draft, the others
leave it alone.
-/

namespace NormalGrammar

inductive Stage
  | erasure
  | units
  | accessibility
  | productivity
  | binarization
  | isolation
  deriving DecidableEq

namespace Stage

def title : Stage → String
  | erasure => "ε-production elimination"
  | units => "unit production elimination"
  | accessibility => "inaccessible symbol removal"
  | productivity => "non-productive symbol removal"
  | binarization => "binarization"
  | isolation => "terminal isolation"

def apply (stage : Stage) (d : Draft) : Draft :=
  match stage with
  | erasure => { d with grammar := d.grammar.withoutErasing }
  | units => { d with grammar := d.grammar.withoutUnits }
  | accessibility => { d with grammar := d.grammar.withoutInaccessible }
  | productivity => { d with grammar := d.grammar.withoutUnproductive }
  | binarization => d.binarize
  | isolation => d.isolate

/-- What the stage reports when it is applied to `d`. -/
def events (stage : Stage) (d : Draft) : List Event :=
  match stage with
  | erasure => d.grammar.erasureEvents
  | units => d.grammar.unitEvents
  | accessibility => d.grammar.accessibilityEvents
  | productivity => d.grammar.productivityEvents
  | binarization => d.binarizationEvents
  | isolation => d.isolationEvents

end Stage

end NormalGrammar
