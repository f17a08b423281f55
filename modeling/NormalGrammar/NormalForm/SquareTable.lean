import NormalGrammar.NormalForm.WordTable

/-!
# The table filled in place

The table of a word with `n` letters can also be filled in place.  One starts with a square of `n` by `n` empty cells,
enters the owners of the single letters on the diagonal, and then goes through the factors in order of their length.
Cells are read and changed by their indices, and doing so outside the square gives no result.
-/

namespace NormalGrammar

/-- The rows of a square of cells. -/
abbrev Square := List (List Cell)

namespace Square

def blank (n : Nat) : Square := List.replicate n (List.replicate n .empty)

def cell? (T : Square) (i j : Nat) : Option Cell := T[i]?.bind fun row => row[j]?

/-- Adds a nonterminal to the cell `(i, j)`, if there is such a cell. -/
def insert? (T : Square) (i j : Nat) (A : Nonterminal) : Option Square :=
  T[i]?.bind fun row => row[j]?.map fun cell => T.set i (row.set j (cell.insert A))

end Square

namespace NormalForm

/-- The places of a letter in a word. -/
def positions (w : Word) (t : Terminal) : List Nat := (List.range w.length).filter fun i => w[i]? = some t

/-- Enters the owner of a terminal on the diagonal, wherever the word has that letter. -/
def insertLetters (w : Word) (T : Square) (r : Rule NormalBody) : Option Square :=
  match r.body with
  | .terminal t => (positions w t).foldlM (fun T i => T.insert? i i r.owner) T
  | .pair _ _ => some T

/-- Enters the owner of a pair in the cell `(i, j)` if its halves are found in front of the cut behind `k` and behind
it.  The second half is only looked up if the first one is there. -/
def insertCut (i j k : Nat) (T : Square) (r : Rule NormalBody) : Option Square :=
  match r.body with
  | .terminal _ => some T
  | .pair B C =>
    (T.cell? i k).bind fun left =>
      if B ∈ left then
        (T.cell? (k + 1) j).bind fun right => if C ∈ right then T.insert? i j r.owner else some T
      else some T

/-- Tries all cuts of the factor from `i` to `j`. -/
def fillCell (rules : List (Rule NormalBody)) (i j : Nat) (T : Square) : Option Square :=
  (List.range' i (j - i)).foldlM (fun T k => rules.foldlM (insertCut i j k) T) T

/-- Fills the cells of all factors whose last letter is `d` places behind the first, in a word of `n` letters. -/
def fillSpan (rules : List (Rule NormalBody)) (n : Nat) (T : Square) (d : Nat) : Option Square :=
  (List.range (n - d)).foldlM (fun T i => fillCell rules i (i + d) T) T

def fillSquare (N : NormalForm) (w : Word) : Option Square :=
  (N.rules.foldlM (insertLetters w) (.blank w.length)).bind fun T =>
    (List.range' 1 (w.length - 1)).foldlM (fillSpan N.rules w.length) T

end NormalForm

end NormalGrammar
