import NormalGrammar.Event
import NormalGrammar.Grammar.Marking

/-!
# Productive symbols

A nonterminal is productive if it derives some word.  `withoutUnproductive` keeps the productive nonterminals and the
productions that mention no other, and the terminals that still occur.  The start symbol stays declared, so a grammar
of the empty language is left without productions.
-/

namespace NormalGrammar

namespace Grammar

/-- The nonterminals that derive some word. -/
def productive (G : Grammar) : Saturated Nonterminal :=
  G.mark fun marked s => s.nonterminal?.all fun A => decide (A ∈ marked)

def withoutUnproductive (G : Grammar) : Grammar :=
  let productive := G.productive.facts
  withUsedTerminals { G with
    nonterminals := G.nonterminals.filter fun A => decide (A ∈ productive ∨ A = G.start)
    productions := G.productions.arranged.filter fun r =>
      decide (r.owner ∈ productive) && r.body.nonterminals.all fun A => decide (A ∈ productive) }

def productivityEvents (G : Grammar) : List Event :=
  let productive := G.productive
  let names := braced (productive.facts.toList.map Nonterminal.text)
  let removed := (G.nonterminals.toList.filter fun A => decide (¬ A ∈ productive.facts)).map Nonterminal.text
  [⟨.debug, .productivity, "Removing non-productive symbols"⟩,
    ⟨.trace, .productivity, s!"Productive non-terminals after {productive.rounds} rounds: {names}"⟩] ++
  (if removed.isEmpty then [] else [⟨.debug, .productivity, s!"Removing {commaSeparated removed}"⟩]) ++
  if G.start ∈ productive.facts then []
  else [⟨.debug, .productivity, s!"Start symbol {G.start.text} is not productive, the language is empty"⟩]

end Grammar

end NormalGrammar
