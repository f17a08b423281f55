import NormalGrammar.Rule

/-!
# How grammars are written

A symbol is written as a letter with any digits and primes behind it.  A body is a spelling of the empty body or a
sequence of symbols, and a line has an owner, an arrow and one or more bodies with bars between them.  Blanks may stand
around owners, symbols and bodies.  The relations below say which text is a way to write what, without saying how it is
read.
-/

namespace NormalGrammar

namespace Notation

/-- Nothing but spaces and tabs. -/
def Blanks (cs : List Char) : Prop := ∀ c ∈ cs, c = ' ' ∨ c = '\t'

/-- Nothing but digits and primes. -/
def NameTail (cs : List Char) : Prop := ∀ c ∈ cs, c.isDigit ∨ c = '\''

/-- A letter with digits and primes behind it: a nonterminal if the letter is upper-case, else a terminal. -/
inductive SymbolText : List Char → Symbol → Prop
  | nonterminal {c : Char} {tail : List Char} (upper : c.isUpper) (rest : NameTail tail) :
    SymbolText (c :: tail) (.nonterminal ⟨.ofChars c tail⟩)
  | terminal {c : Char} {tail : List Char} (lower : c.isLower) (rest : NameTail tail) :
    SymbolText (c :: tail) (.terminal ⟨.ofChars c tail⟩)

/-- Symbols in a row, blanks behind each of them. -/
inductive SymbolsText : List Char → Body → Prop
  | nil : SymbolsText [] []
  | cons {name blanks cs : List Char} {s : Symbol} {w : Body} (first : SymbolText name s) (gap : Blanks blanks)
    (rest : SymbolsText cs w) : SymbolsText (name ++ (blanks ++ cs)) (s :: w)

/-- The letters that spell the empty body. -/
def epsilonLetters : List Char := ['e', 'p', 's', 'i', 'l', 'o', 'n']

/-- A spelling of the empty body, or symbols that do not start with the letters of one. -/
inductive BodyText : List Char → Body → Prop
  | sign {before after : List Char} (front : Blanks before) (back : Blanks after) :
    BodyText (before ++ ('ε' :: after)) []
  | letters {before after : List Char} (front : Blanks before) (back : Blanks after) :
    BodyText (before ++ (epsilonLetters ++ after)) []
  | symbols {before cs after : List Char} {w : Body} (front : Blanks before) (text : SymbolsText cs w)
    (nonempty : w ≠ []) (other : ¬ epsilonLetters <+: cs) (back : Blanks after) : BodyText (before ++ (cs ++ after)) w

/-- One or more bodies with bars between them. -/
inductive BodiesText : List Char → List Body → Prop
  | one {cs : List Char} {w : Body} (text : BodyText cs w) : BodiesText cs [w]
  | more {cs rest : List Char} {w : Body} {ws : List Body} (text : BodyText cs w) (others : BodiesText rest ws) :
    BodiesText (cs ++ ('|' :: rest)) (w :: ws)

inductive ArrowText : List Char → Prop
  | sign : ArrowText ['→']
  | ascii : ArrowText ['-', '>']

/-- A nonterminal between blanks. -/
inductive OwnerText : List Char → Nonterminal → Prop
  | intro {before name after : List Char} {A : Nonterminal} (front : Blanks before)
    (text : SymbolText name (.nonterminal A)) (back : Blanks after) : OwnerText (before ++ (name ++ after)) A

/-- An owner, an arrow and the bodies that it owns. -/
inductive ProductionText : List Char → List (Rule Body) → Prop
  | intro {front arrow rest : List Char} {A : Nonterminal} {ws : List Body} (owner : OwnerText front A)
    (between : ArrowText arrow) (bodies : BodiesText rest ws) :
    ProductionText (front ++ (arrow ++ rest)) (ws.map (Rule.mk A))

end Notation

end NormalGrammar
