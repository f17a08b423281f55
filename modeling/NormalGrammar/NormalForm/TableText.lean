import NormalGrammar.NormalForm.WordTable
import NormalGrammar.Text.Grid

/-!
# The table of a word as text

Rows and columns are counted from one.  A cell shows its nonterminals, or `∅` if there are none, and below the
diagonal nothing is shown.  A last line tells whether the word is accepted.
-/

namespace NormalGrammar

namespace WordTable

def cellText (i j : Nat) (cell : Cell) : String :=
  let names := if cell.isEmpty then "∅" else braced (cell.toList.map Nonterminal.text)
  s!"V_{i + 1},{j + 1} = {names}"

/-- Row `i`, headed by its number and filled up on the left. -/
def rowTexts (i : Nat) (row : List Cell) : List String :=
  s!"i = {i + 1}" :: List.replicate i "" ++ row.mapIdx fun k cell => cellText i (i + k) cell

def grid (T : WordTable) : Text.Grid where
  headings := "" :: (List.range T.rows.length).map fun j => s!"j = {j + 1}"
  rows := T.rows.mapIdx rowTexts

def text (T : WordTable) : String :=
  let verdict := if T.accepted then "accepted" else "not accepted"
  let table := if T.rows.isEmpty then "" else T.grid.text ++ "\n"
  s!"CYK Table for word \"{T.word.text}\":\n" ++ table ++
    s!"The word \"{T.word.text}\" is {verdict} in the language defined by the grammar.\n"

end WordTable

end NormalGrammar
