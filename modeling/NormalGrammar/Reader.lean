import NormalGrammar.Grammar
import NormalGrammar.Reader.Misread
import NormalGrammar.Reader.Scan

/-!
# Reading grammars

One line holds the bodies of one nonterminal, such as `S → aB | D1 A`.  A text is read only as a whole, and a grammar
declares every symbol of its lines.
-/

namespace NormalGrammar

/-- Reads the whole text or reports where reading stopped. -/
def readAll {α : Type} (scan : List Char → Scan α) (text : String) : Except Misread α :=
  (scan text.toList).complete.mapError (Misread.mk text)

namespace Body

def read (text : String) : Except Misread Body := readAll Scan.body text

end Body

namespace Grammar

/-- Reads the start symbol, then one line of productions after the other. -/
def read (start : String) (lines : List String) : Except Misread Grammar := do
  let S ← readAll Scan.owner start
  let rules ← lines.mapM (readAll Scan.production)
  .ok ((ofStart S).addAll rules.flatten)

end Grammar

end NormalGrammar
