import NormalGrammar.NormalForm

/-!
# The table of a word

The cell `(i, j)` of the table of a word holds the nonterminals that derive its letters from `i` to `j`, counted from
zero.  Row `i` begins with the cell `(i, i)`.  The table grows by one letter at a time: the new letter ends every row
with one more cell and begins a new row.  A nonterminal derives a factor of several letters if the two halves of one of
its bodies derive the two parts of some cut of the factor.
-/

namespace NormalGrammar

/-- The nonterminals that derive one factor of a word. -/
abbrev Cell := OrderedSet Nonterminal

namespace Cell

/-- The nonterminals that own the terminal `t`. -/
def ofLetter (rules : List (Rule NormalBody)) (t : Terminal) : Cell :=
  .ofList ((rules.filter fun r => r.body = .terminal t).map Rule.owner)

/-- Whether `w` is a pair whose halves lie in the two cells. -/
def joins (left right : Cell) : NormalBody → Bool
  | .terminal _ => false
  | .pair A B => decide (A ∈ left) && decide (B ∈ right)

/-- The nonterminals that derive a factor, given the cells of both parts for every cut. -/
def ofCuts (rules : List (Rule NormalBody)) (cuts : List (Cell × Cell)) : Cell :=
  .ofList (cuts.flatMap fun cut => (rules.filter fun r => joins cut.1 cut.2 r.body).map Rule.owner)

end Cell

namespace NormalForm

/-- The cells of the factors that end with the new letter `t`, the longest factor first.  A row holds the first parts
of the cuts, and the cells below hold the second parts. -/
def lastColumn (rules : List (Rule NormalBody)) (t : Terminal) : List (List Cell) → List Cell
  | [] => [Cell.ofLetter rules t]
  | row :: rows =>
    let below := lastColumn rules t rows
    Cell.ofCuts rules (row.zip below) :: below

def addLetter (rules : List (Rule NormalBody)) (rows : List (List Cell)) (t : Terminal) : List (List Cell) :=
  (rows ++ [[]]).zipWith (fun row cell => row ++ [cell]) (lastColumn rules t rows)

/-- The rows of the table of a word. -/
def tableRows (N : NormalForm) (w : Word) : List (List Cell) := w.foldl (addLetter N.rules) []

end NormalForm

structure WordTable where
  word : Word
  start : Nonterminal
  erasable : Bool
  rows : List (List Cell)

def NormalForm.table (N : NormalForm) (w : Word) : WordTable := ⟨w, N.start, N.erasable, N.tableRows w⟩

namespace WordTable

/-- The cell `(i, j)`, which is empty below the diagonal.  There is none outside the word. -/
def cell? (T : WordTable) (i j : Nat) : Option Cell :=
  if i < T.word.length ∧ j < T.word.length then
    if j < i then some .empty else T.rows[i]?.bind fun row => row[j - i]?
  else none

/-- Whether the start symbol derives the word. -/
def accepted (T : WordTable) : Bool :=
  if T.word.isEmpty then T.erasable
  else (T.cell? 0 (T.word.length - 1)).any fun cell => decide (T.start ∈ cell)

end WordTable

def NormalForm.accepts (N : NormalForm) (w : Word) : Bool := (N.table w).accepted

/-! ### The shape of the table -/

namespace NormalForm

theorem length_lastColumn (rules : List (Rule NormalBody)) (t : Terminal) (rows : List (List Cell)) :
    (lastColumn rules t rows).length = rows.length + 1 := by
  induction rows with
  | nil => rfl
  | cons row rows ih => simp [lastColumn, ih]

theorem tableRows_append (N : NormalForm) (w : Word) (t : Terminal) :
    N.tableRows (w ++ [t]) = addLetter N.rules (N.tableRows w) t :=
  List.foldl_append

/-- The table has one row for every letter. -/
theorem length_tableRows (N : NormalForm) (w : Word) : (N.tableRows w).length = w.length := by
  suffices ∀ rows, (w.foldl (addLetter N.rules) rows).length = rows.length + w.length by
    simpa [tableRows] using this []
  induction w with
  | nil => simp
  | cons t w ih =>
    intro rows
    rw [List.foldl_cons, ih]
    simp only [addLetter, List.length_zipWith, List.length_append, length_lastColumn, List.length_cons]
    omega

end NormalForm

end NormalGrammar
