import NormalGrammar.Event
import NormalGrammar.FreshNames

/-!
# Bodies of at most two symbols

A production with a longer body is replaced by a chain: `A → s₁ s₂ … sₖ` becomes `A → s₁ X₁`, `X₁ → s₂ X₂`, and so on
up to a body of the last two symbols, with a fresh nonterminal for every link.
-/

namespace NormalGrammar

/-- A production and the chain that replaces it.  A short production is a chain by itself. -/
structure Chain where
  production : Rule Body
  links : List (Rule Body)

namespace Draft

/-- The links of a chain for `A → w`. -/
def chainLinks (A : Nonterminal) : Body → Draft → List (Rule Body) × Draft
  | s :: t :: u :: w, d =>
    let (X, d) := d.newNonterminal
    let (links, d) := chainLinks X (t :: u :: w) d
    (⟨A, [s, .nonterminal X]⟩ :: links, d)
  | w, d => ([⟨A, w⟩], d)

/-- The chains of productions, one after the other. -/
def chains : List (Rule Body) → Draft → List Chain × Draft
  | [], d => ([], d)
  | r :: rules, d =>
    let (links, d) := chainLinks r.owner r.body d
    let (rest, d) := chains rules d
    (⟨r, links⟩ :: rest, d)

def binarize (d : Draft) : Draft :=
  let (chains, d) := chains d.grammar.rules d
  d.withProductions (chains.flatMap Chain.links)

end Draft

namespace Chain

/-- Reports a production that was split, with the owner of the last link. -/
def event? (c : Chain) : Option Event :=
  if c.production.body.length ≤ 2 then none
  else c.links.getLast?.map fun last =>
    let r := c.production
    ⟨.trace, .binarization, s!"Split {r.owner.text} → {r.body.text} ending in {last.owner.text}"⟩

end Chain

def Draft.binarizationEvents (d : Draft) : List Event :=
  ⟨.debug, .binarization, "Binarizing productions"⟩ :: (chains d.grammar.rules d).1.filterMap Chain.event?

end NormalGrammar
