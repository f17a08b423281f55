import Mathlib.Data.List.Induction
import NormalGrammar.NormalForm.WordTable

/-!
# How the cells of a table depend on each other

The table of a word grows letter by letter, and the cells that are there stay as they are (`Built.addLetter`).  So in
the end a cell on the diagonal holds the owners of its letter (`tableCell_self`), and a cell above it comes from the
cells for both parts of every cut (`tableCell_of_cuts`).
-/

namespace NormalGrammar

namespace NormalForm

variable {rules : List (Rule NormalBody)} {rows : List (List Cell)}

/-- A cell of some rows that begin on the diagonal, empty where there is none. -/
def rowCell (rows : List (List Cell)) (i j : Nat) : Cell := (rows[i]?.bind fun row => row[j - i]?).getD .empty

/-- The cells of both parts for the cuts of the factor from `i` to `j`, up to the cut in front of `k`. -/
def cutsUpTo (f : Nat → Nat → Cell) (i j k : Nat) : List (Cell × Cell) :=
  (List.range' i (k - i)).map fun m => (f i m, f (m + 1) j)

theorem cutsUpTo_self (f : Nat → Nat → Cell) (i j : Nat) : cutsUpTo f i j i = [] := by
  rw [cutsUpTo, Nat.sub_self]
  rfl

theorem cutsUpTo_succ (f : Nat → Nat → Cell) {i k : Nat} (hik : i ≤ k) (j : Nat) :
    cutsUpTo f i j (k + 1) = cutsUpTo f i j k ++ [(f i k, f (k + 1) j)] := by
  rw [cutsUpTo, Nat.succ_sub hik, List.range'_1_concat, List.map_append, Nat.add_sub_cancel' hik]
  rfl

/-- The cuts of a factor only look at shorter factors. -/
theorem cutsUpTo_congr {f g : Nat → Nat → Cell} {i j : Nat} (hleft : ∀ k, i ≤ k → k < j → f i k = g i k)
    (hright : ∀ k, i ≤ k → k < j → f (k + 1) j = g (k + 1) j) : cutsUpTo f i j j = cutsUpTo g i j j := by
  refine List.map_congr_left fun k hk => ?_
  obtain ⟨hik, hkj⟩ := List.mem_range'_1.1 hk
  rw [hleft k hik (by omega), hright k hik (by omega)]

/-- The rows, which end with the word, have their cells from single letters and from cuts. -/
structure Built (rules : List (Rule NormalBody)) (w : Word) (rows : List (List Cell)) : Prop where
  length : rows.length = w.length
  rowLength : ∀ i row, rows[i]? = some row → row.length = w.length - i
  letter : ∀ i t, w[i]? = some t → rowCell rows i i = Cell.ofLetter rules t
  cuts : ∀ i j, i < j → j < w.length →
    rowCell rows i j = Cell.ofCuts rules (cutsUpTo (rowCell rows) i j j)

/-! ### A new column -/

theorem getElem?_lastColumn_length (t : Terminal) :
    (lastColumn rules t rows)[rows.length]? = some (Cell.ofLetter rules t) := by
  induction rows with
  | nil => rfl
  | cons row rows ih => exact ih

/-- A new cell comes from its row and what is below it in the new column. -/
theorem getElem?_lastColumn (t : Terminal) {i : Nat} {row : List Cell} (hrow : rows[i]? = some row) :
    (lastColumn rules t rows)[i]? =
      some (Cell.ofCuts rules (row.zip ((lastColumn rules t rows).drop (i + 1)))) := by
  induction rows generalizing i with
  | nil => simp at hrow
  | cons first rows ih =>
    cases i with
    | zero =>
      cases hrow
      rfl
    | succ i => exact ih hrow

/-- Every row gets one more cell. -/
theorem getElem?_addLetter (rules : List (Rule NormalBody)) (t : Terminal) {i : Nat} {row : List Cell}
    (hrow : (rows ++ [[]])[i]? = some row) :
    ∃ cell, (lastColumn rules t rows)[i]? = some cell ∧ (addLetter rules rows t)[i]? = some (row ++ [cell]) := by
  have hi : i < (lastColumn rules t rows).length := by
    have hlt := (List.getElem?_eq_some_iff.1 hrow).1
    rw [length_lastColumn]
    simpa using hlt
  refine ⟨(lastColumn rules t rows)[i], List.getElem?_eq_getElem hi, ?_⟩
  rw [addLetter, List.getElem?_zipWith, hrow, List.getElem?_eq_getElem hi]

section

variable {w : Word} (h : Built rules w rows) (t : Terminal)
include h

/-- In front of the new column there are the old rows and an empty one. -/
private theorem Built.exists_row {i : Nat} (hi : i ≤ w.length) :
    ∃ row, (rows ++ [[]])[i]? = some row ∧ row.length = w.length - i := by
  by_cases hlt : i < rows.length
  · have hrow : rows[i]? = some rows[i] := List.getElem?_eq_getElem hlt
    exact ⟨rows[i], (List.getElem?_append_left hlt).trans hrow, h.rowLength i _ hrow⟩
  · have hend : i = rows.length := by
      rw [h.length] at hlt ⊢
      omega
    refine ⟨[], ?_, ?_⟩
    · rw [hend]
      exact List.getElem?_concat_length
    · rw [hend, h.length, Nat.sub_self, List.length_nil]

/-- The old cells stay. -/
private theorem Built.rowCell_of_lt {i j : Nat} (hij : i ≤ j) (hj : j < w.length) :
    rowCell (addLetter rules rows t) i j = rowCell rows i j := by
  have hi : i < rows.length := by
    rw [h.length]
    omega
  have hrow : rows[i]? = some rows[i] := List.getElem?_eq_getElem hi
  have hlen := h.rowLength i _ hrow
  obtain ⟨cell, -, hnew⟩ := getElem?_addLetter rules t ((List.getElem?_append_left hi).trans hrow)
  have hcell : (rows[i] ++ [cell])[j - i]? = rows[i][j - i]? := List.getElem?_append_left (by omega)
  simp only [rowCell, hnew, hrow, Option.bind_some, hcell]

/-- The new cells are those of the new column. -/
private theorem Built.rowCell_length {i : Nat} (hi : i ≤ w.length) :
    (lastColumn rules t rows)[i]? = some (rowCell (addLetter rules rows t) i w.length) := by
  obtain ⟨row, hrow, hlen⟩ := h.exists_row hi
  obtain ⟨cell, hcell, hnew⟩ := getElem?_addLetter rules t hrow
  have hlast : (row ++ [cell])[w.length - i]? = some cell := by
    rw [← hlen]
    exact List.getElem?_concat_length
  simp only [rowCell, hnew, Option.bind_some, hlast, Option.getD_some, hcell]

/-- The cuts of a factor that ends with the new letter. -/
private theorem Built.zip_column {i : Nat} {row : List Cell} (hrow : rows[i]? = some row) :
    row.zip ((lastColumn rules t rows).drop (i + 1)) =
      cutsUpTo (rowCell (addLetter rules rows t)) i w.length w.length := by
  have hlen := h.rowLength i row hrow
  have hi : i < w.length := by
    rw [← h.length]
    exact (List.getElem?_eq_some_iff.1 hrow).1
  apply List.ext_getElem?
  intro m
  by_cases hm : m < w.length - i
  · have hleft : row[m]? = some (rowCell (addLetter rules rows t) i (i + m)) := by
      have hget : row[m]? = some row[m] := List.getElem?_eq_getElem (by omega)
      rw [h.rowCell_of_lt t (by omega) (by omega)]
      simp only [rowCell, hrow, Option.bind_some, Nat.add_sub_cancel_left, hget, Option.getD_some]
    have hright : ((lastColumn rules t rows).drop (i + 1))[m]? =
        some (rowCell (addLetter rules rows t) (i + m + 1) w.length) := by
      rw [List.getElem?_drop, show i + 1 + m = i + m + 1 by omega]
      exact h.rowCell_length t (by omega)
    rw [List.zip, List.getElem?_zipWith, hleft, hright, cutsUpTo, List.getElem?_map, List.getElem?_range' hm,
      Nat.one_mul]
    rfl
  · rw [List.getElem?_eq_none, List.getElem?_eq_none]
    · simp only [cutsUpTo, List.length_map, List.length_range']
      omega
    · rw [List.length_zip]
      omega

/-- With one more letter the new cells are built like the old ones. -/
theorem Built.addLetter : Built rules (w ++ [t]) (addLetter rules rows t) where
  length := by simp [NormalForm.addLetter, length_lastColumn, h.length]
  rowLength := by
    intro i row' hrow'
    have hi : i ≤ w.length := by
      have hlt := (List.getElem?_eq_some_iff.1 hrow').1
      simp only [NormalForm.addLetter, List.length_zipWith, List.length_append, length_lastColumn, h.length] at hlt
      omega
    obtain ⟨row, hrow, hlen⟩ := h.exists_row hi
    obtain ⟨cell, -, hnew⟩ := getElem?_addLetter rules t hrow
    cases hrow'.symm.trans hnew
    simp only [List.length_append, List.length_singleton, hlen]
    omega
  letter := by
    intro i u hu
    have hi : i ≤ w.length := by
      have hlt := (List.getElem?_eq_some_iff.1 hu).1
      simpa [Nat.lt_succ_iff] using hlt
    by_cases hlt : i < w.length
    · rw [List.getElem?_append_left hlt] at hu
      rw [h.rowCell_of_lt t (Nat.le_refl i) hlt]
      exact h.letter i u hu
    · obtain rfl : i = w.length := by omega
      rw [List.getElem?_concat_length] at hu
      cases hu
      have hcell := h.rowCell_length t hi
      rw [← h.length, getElem?_lastColumn_length] at hcell
      rw [← h.length]
      exact (Option.some.inj hcell).symm
  cuts := by
    intro i j hij hj
    have hj : j ≤ w.length := by simpa [Nat.lt_succ_iff] using hj
    by_cases hlt : j < w.length
    · rw [h.rowCell_of_lt t (Nat.le_of_lt hij) hlt, h.cuts i j hij hlt]
      exact congrArg _ (cutsUpTo_congr (fun k hik hkj => (h.rowCell_of_lt t hik (by omega)).symm)
        fun k hik hkj => (h.rowCell_of_lt t hkj hlt).symm)
    · obtain rfl : j = w.length := by omega
      have hi : i < rows.length := by
        rw [h.length]
        exact hij
      have hrow : rows[i]? = some rows[i] := List.getElem?_eq_getElem hi
      have hcell := h.rowCell_length t (Nat.le_of_lt hij)
      rw [getElem?_lastColumn t hrow, h.zip_column t hrow] at hcell
      exact (Option.some.inj hcell).symm

end

/-- All cells of a table have been built from single letters and from cuts. -/
theorem tableRows_built (N : NormalForm) (w : Word) : Built N.rules w (N.tableRows w) := by
  induction w using List.reverseRecOn with
  | nil => exact ⟨rfl, by simp [tableRows], by simp, by simp⟩
  | append_singleton w t ih =>
    rw [tableRows_append]
    exact ih.addLetter t

/-- The contents of a cell of the table, empty below the diagonal. -/
def tableCell (N : NormalForm) (w : Word) (i j : Nat) : Cell :=
  if j < i then .empty else rowCell (N.tableRows w) i j

theorem tableCell_of_lt {N : NormalForm} {w : Word} {i j : Nat} (h : j < i) : N.tableCell w i j = .empty := if_pos h

theorem tableCell_self {N : NormalForm} {w : Word} {i : Nat} {t : Terminal} (ht : w[i]? = some t) :
    N.tableCell w i i = Cell.ofLetter N.rules t := by
  rw [tableCell, if_neg (Nat.lt_irrefl i)]
  exact (N.tableRows_built w).letter i t ht

/-- A cell above the diagonal comes from both parts of every cut. -/
theorem tableCell_of_cuts {N : NormalForm} {w : Word} {i j : Nat} (hij : i < j) (hj : j < w.length) :
    N.tableCell w i j = Cell.ofCuts N.rules (cutsUpTo (N.tableCell w) i j j) := by
  rw [tableCell, if_neg (by omega), (N.tableRows_built w).cuts i j hij hj]
  refine congrArg _ (cutsUpTo_congr (fun k hik hkj => ?_) fun k hik hkj => ?_)
  · rw [tableCell, if_neg (by omega)]
  · rw [tableCell, if_neg (by omega)]

theorem cell?_eq (N : NormalForm) (w : Word) (i j : Nat) :
    (N.table w).cell? i j = if i < w.length ∧ j < w.length then some (N.tableCell w i j) else none := by
  have hbuilt := N.tableRows_built w
  unfold WordTable.cell? tableCell table
  by_cases hinside : i < w.length ∧ j < w.length
  · rw [if_pos hinside, if_pos hinside]
    by_cases hbelow : j < i
    · rw [if_pos hbelow, if_pos hbelow]
    · rw [if_neg hbelow, if_neg hbelow]
      have hi : i < (N.tableRows w).length := by
        rw [length_tableRows]
        exact hinside.1
      have hrow : (N.tableRows w)[i]? = some (N.tableRows w)[i] := List.getElem?_eq_getElem hi
      have hlen := hbuilt.rowLength i _ hrow
      have hcell : (N.tableRows w)[i][j - i]? = some (N.tableRows w)[i][j - i] := List.getElem?_eq_getElem (by omega)
      simp only [rowCell, hrow, Option.bind_some, hcell, Option.getD_some]
  · rw [if_neg hinside, if_neg hinside]

end NormalForm

end NormalGrammar
