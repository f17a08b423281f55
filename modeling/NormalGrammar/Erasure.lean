import NormalGrammar.Event
import NormalGrammar.Grammar.Marking

/-!
# Erasing productions

A nonterminal is nullable if it derives the empty word.  `withoutErasing` replaces every body by its variants, in
which some occurrences of nullable symbols are left out, and drops the empty ones.  Only the start symbol keeps an
empty body, if it is nullable.
-/

namespace NormalGrammar

namespace Grammar

/-- Whether a symbol is a nonterminal among those given. -/
def isMarked (marked : OrderedSet Nonterminal) : Symbol → Bool
  | .terminal _ => false
  | .nonterminal A => decide (A ∈ marked)

/-- The nonterminals that derive the empty word. -/
def nullable (G : Grammar) : Saturated Nonterminal := G.mark isMarked

/-- What is left of a body when nullable occurrences may be left out, the later ones first. -/
def variants (nullable : OrderedSet Nonterminal) : Body → List Body
  | [] => [[]]
  | s :: w =>
    let kept := (variants nullable w).map (s :: ·)
    if isMarked nullable s then kept ++ variants nullable w else kept

def nonemptyVariants (nullable : OrderedSet Nonterminal) (w : Body) : List Body :=
  (variants nullable w).filter fun v => !v.isEmpty

/-- The bodies that are left for `A`. -/
def expandedBodies (G : Grammar) (nullable : OrderedSet Nonterminal) (A : Nonterminal) : OrderedSet Body :=
  .ofList ((G.bodies A).toList.flatMap (nonemptyVariants nullable))

def withoutErasing (G : Grammar) : Grammar :=
  let nullable := G.nullable.facts
  let expanded := Productions.ofFamily G.owners (G.expandedBodies nullable)
  { G with productions := if G.start ∈ nullable then expanded.insert ⟨G.start, []⟩ else expanded }

def erasureEvents (G : Grammar) : List Event :=
  let nullable := G.nullable
  let names := braced (nullable.facts.toList.map Nonterminal.text)
  let emptied := G.owners.toList.filter fun A => (G.expandedBodies nullable.facts A).isEmpty
  [⟨.debug, .erasure, "Eliminating ε-productions"⟩,
    ⟨.trace, .erasure, s!"Nullable non-terminals after {nullable.rounds} rounds: {names}"⟩] ++
  emptied.map (fun A => ⟨.debug, .erasure, s!"{A.text} has no productions left"⟩) ++
  if G.start ∈ nullable.facts then [⟨.trace, .erasure, s!"Keeping {G.start.text} → ε"⟩] else []

end Grammar

end NormalGrammar
