import NormalGrammar.Grammar

/-!
# How a grammar is written down

A listing shows the symbols of a grammar and one line for every nonterminal that owns a body.  The start symbol
stands first and all else is in order of the names, so the text does not depend on the order in which symbols and
owners were given.  The bodies of an owner keep their order, and `ε` is the last of them.
-/

namespace NormalGrammar

/-- What a definition shows of a grammar.  The rules are those whose body is not empty. -/
structure Listing where
  start : Nonterminal
  nonterminals : List Nonterminal
  terminals : List Terminal
  rules : List (Rule Body)
  erasing : List Nonterminal

namespace Listing

/-- The start symbol comes first, then the others in order of their names. -/
def nonterminalLe (start A B : Nonterminal) : Bool :=
  if A = start then true
  else if B = start then false
  else decide (A.text ≤ B.text)

def terminalLe (s t : Terminal) : Bool := decide (s.text ≤ t.text)

/-- The bodies of `A` as they are shown, `ε` last. -/
def alternatives (g : Listing) (A : Nonterminal) : List String :=
  (g.rules.filter fun r => r.owner = A).map (fun r => r.body.text) ++
    if A ∈ g.erasing then [epsilon] else []

def owners (g : Listing) : List Nonterminal :=
  (OrderedSet.ofList (g.rules.map Rule.owner ++ g.erasing)).toList.mergeSort (nonterminalLe g.start)

def line (g : Listing) (A : Nonterminal) : String :=
  "  " ++ A.text ++ " → " ++ " | ".intercalate (g.alternatives A) ++ "\n"

def heading (g : Listing) : String :=
  let nonterminals := braced ((g.nonterminals.mergeSort (nonterminalLe g.start)).map Nonterminal.text)
  let terminals := braced ((g.terminals.mergeSort terminalLe).map Terminal.text)
  s!"G = ({nonterminals}, {terminals}, P, {g.start.text})\n"

def text (g : Listing) : String :=
  g.heading ++ "\nP = \x7b\n" ++ String.join (g.owners.map g.line) ++ "\x7d\n"

end Listing

namespace Grammar

def listing (G : Grammar) : Listing where
  start := G.start
  nonterminals := G.nonterminals.toList
  terminals := G.terminals.toList
  rules := G.rules.filter fun r => !r.body.isEmpty
  erasing := G.erasingOwners.toList

/-- The grammar as text. -/
def definition (G : Grammar) : String := G.listing.text

end Grammar

end NormalGrammar
