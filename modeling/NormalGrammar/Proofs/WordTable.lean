import Mathlib.Data.List.Induction
import NormalGrammar.NormalForm.WordTable

/-!
# What the table of a word holds

A nonterminal of a grammar in normal form covers a word if the stored productions derive it, a terminal or a pair at a
time (`NormalForm.Covers`).  The table is built letter by letter; after each letter the cell `k` of the row `i` holds
the nonterminals that cover the `k + 1` letters from `i` on (`tableRows_hold`).  So a nonempty word is accepted if and
only if the start symbol covers it (`accepts_iff`).
-/

namespace NormalGrammar

namespace NormalForm

/-- The stored productions derive the word from `A`.  The empty body of the start symbol is not among them. -/
inductive Covers (N : NormalForm) : Nonterminal → Word → Prop
  | letter {A : Nonterminal} {t : Terminal} (rule : ⟨A, .terminal t⟩ ∈ N.productions) : Covers N A [t]
  | pair {A B C : Nonterminal} {x y : Word} (rule : ⟨A, .pair B C⟩ ∈ N.productions) (left : Covers N B x)
      (right : Covers N C y) : Covers N A (x ++ y)

variable {N : NormalForm}

theorem Covers.length_pos {A : Nonterminal} {x : Word} (h : N.Covers A x) : 0 < x.length := by
  induction h with
  | letter => simp
  | pair _ _ _ ihleft _ =>
    rw [List.length_append]
    omega

@[simp] theorem mem_rules {q : Rule NormalBody} : q ∈ N.rules ↔ q ∈ N.productions := Productions.mem_rules

theorem covers_letter {A : Nonterminal} {t : Terminal} : N.Covers A [t] ↔ ⟨A, .terminal t⟩ ∈ N.productions := by
  constructor
  · intro h
    generalize e : [t] = x at h
    cases h with
    | letter rule =>
      cases e
      exact rule
    | pair _ left right =>
      have hleft := left.length_pos
      have hright := right.length_pos
      have hlen := congrArg List.length e
      simp only [List.length_cons, List.length_nil, List.length_append] at hlen
      omega
  · exact .letter

/-- A word of several letters is covered through a pair and a cut. -/
theorem covers_iff_cut {A : Nonterminal} {x : Word} (hx : 2 ≤ x.length) :
    N.Covers A x ↔ ∃ k, k + 1 < x.length ∧ ∃ B C, ⟨A, .pair B C⟩ ∈ N.productions ∧
      N.Covers B (x.take (k + 1)) ∧ N.Covers C (x.drop (k + 1)) := by
  constructor
  · intro h
    cases h with
    | letter => simp at hx
    | @pair _ B C y z rule left right =>
      have hy := left.length_pos
      have hz := right.length_pos
      -- The cut is where the left factor ends.
      have hk : y.length - 1 + 1 = y.length := by omega
      refine ⟨y.length - 1, ?_, B, C, rule, ?_, ?_⟩
      · rw [hk, List.length_append]
        omega
      · rwa [hk, List.take_left]
      · rwa [hk, List.drop_left]
  · rintro ⟨k, -, B, C, rule, left, right⟩
    have h := Covers.pair rule left right
    rwa [List.take_append_drop] at h

/-! ### Cells -/

/-- The cell holds what covers the word. -/
def Holds (N : NormalForm) (cell : Cell) (x : Word) : Prop := ∀ A, A ∈ cell ↔ N.Covers A x

theorem holds_ofLetter (t : Terminal) : N.Holds (Cell.ofLetter N.rules t) [t] := by
  intro A
  rw [covers_letter]
  simp only [Cell.ofLetter, OrderedSet.mem_ofList, List.mem_map, List.mem_filter, decide_eq_true_eq, mem_rules]
  constructor
  · rintro ⟨⟨B, w⟩, ⟨hr, rfl⟩, rfl⟩
    exact hr
  · intro h
    exact ⟨_, ⟨h, rfl⟩, rfl⟩

theorem mem_ofCuts {cuts : List (Cell × Cell)} {A : Nonterminal} : A ∈ Cell.ofCuts N.rules cuts ↔
    ∃ cut ∈ cuts, ∃ B C, ⟨A, .pair B C⟩ ∈ N.productions ∧ B ∈ cut.1 ∧ C ∈ cut.2 := by
  simp only [Cell.ofCuts, OrderedSet.mem_ofList, List.mem_flatMap, List.mem_map, List.mem_filter, mem_rules]
  constructor
  · rintro ⟨cut, hcut, ⟨D, w⟩, ⟨hr, hjoins⟩, rfl⟩
    cases w with
    | terminal t => simp [Cell.joins] at hjoins
    | pair B C =>
      simp only [Cell.joins, Bool.and_eq_true, decide_eq_true_eq] at hjoins
      exact ⟨cut, hcut, B, C, hr, hjoins⟩
  · rintro ⟨cut, hcut, B, C, hr, hB, hC⟩
    exact ⟨cut, hcut, ⟨A, .pair B C⟩, ⟨hr, by simp [Cell.joins, hB, hC]⟩, rfl⟩

/-! ### Rows and columns -/

/-- The row of a word holds what covers its prefixes, the shortest first. -/
def RowHolds (N : NormalForm) (w : Word) (row : List Cell) : Prop :=
  row.length = w.length ∧ ∀ k cell, row[k]? = some cell → N.Holds cell (w.take (k + 1))

/-- The last column of a word holds what covers its suffixes, the longest first. -/
def ColumnHolds (N : NormalForm) (w : Word) (column : List Cell) : Prop :=
  column.length = w.length ∧ ∀ k cell, column[k]? = some cell → N.Holds cell (w.drop k)

/-- Every row is the row of a suffix. -/
def RowsHold (N : NormalForm) : Word → List (List Cell) → Prop
  | [], rows => rows = []
  | t :: w, rows => ∃ row rest, rows = row :: rest ∧ N.RowHolds (t :: w) row ∧ RowsHold N w rest

/-- The cuts of a factor pair the cells of its prefixes with those of the suffixes behind them. -/
private theorem holds_ofCuts {w : Word} {s t : Terminal} {row below : List Cell} (hrow : N.RowHolds (s :: w) row)
    (hbelow : N.ColumnHolds (w ++ [t]) below) : N.Holds (Cell.ofCuts N.rules (row.zip below)) (s :: w ++ [t]) := by
  intro A
  have hlen : (s :: w ++ [t]).length = w.length + 2 := by simp
  have hlen' : below.length = row.length := by
    rw [hbelow.1, hrow.1]
    simp
  have htake : ∀ k, k < row.length → (s :: w ++ [t]).take (k + 1) = (s :: w).take (k + 1) := fun k hk => by
    rw [hrow.1] at hk
    exact List.take_append_of_le_length hk
  rw [mem_ofCuts, covers_iff_cut (by omega)]
  constructor
  · rintro ⟨cut, hcut, B, C, rule, hB, hC⟩
    obtain ⟨k, hk⟩ := List.mem_iff_getElem?.1 hcut
    obtain ⟨hleft, hright⟩ := List.getElem?_zip_eq_some.1 hk
    have hkr : k < row.length := (List.getElem?_eq_some_iff.1 hleft).1
    have hkw := hrow.1
    rw [List.length_cons] at hkw
    refine ⟨k, by omega, B, C, rule, ?_, ?_⟩
    · rw [htake k hkr]
      exact (hrow.2 k _ hleft B).1 hB
    · exact (hbelow.2 k _ hright C).1 hC
  · rintro ⟨k, hk, B, C, rule, hB, hC⟩
    have hkw := hrow.1
    rw [List.length_cons] at hkw
    have hkr : k < row.length := by omega
    have hkb : k < below.length := by omega
    have hleft : row[k]? = some row[k] := List.getElem?_eq_getElem hkr
    have hright : below[k]? = some below[k] := List.getElem?_eq_getElem hkb
    rw [htake k hkr] at hB
    refine ⟨(row[k], below[k]), ?_, B, C, rule, (hrow.2 k _ hleft B).2 hB, (hbelow.2 k _ hright C).2 hC⟩
    exact List.mem_iff_getElem?.2 ⟨k, List.getElem?_zip_eq_some.2 ⟨hleft, hright⟩⟩

/-- The new column holds what covers the suffixes that end with the new letter. -/
theorem lastColumn_holds (t : Terminal) {w : Word} {rows : List (List Cell)} (h : N.RowsHold w rows) :
    N.ColumnHolds (w ++ [t]) (lastColumn N.rules t rows) := by
  induction w generalizing rows with
  | nil =>
    obtain rfl : rows = [] := h
    refine ⟨rfl, fun k cell hk => ?_⟩
    rw [lastColumn, List.getElem?_singleton] at hk
    split at hk
    · rename_i hzero
      cases hk
      rw [hzero]
      exact holds_ofLetter t
    · simp at hk
  | cons s w ih =>
    obtain ⟨row, rest, rfl, hrow, hrest⟩ := h
    have hbelow := ih hrest
    refine ⟨by simp [lastColumn, hbelow.1], fun k cell hk => ?_⟩
    cases k with
    | zero =>
      rw [lastColumn, List.getElem?_cons_zero] at hk
      cases hk
      exact holds_ofCuts hrow hbelow
    | succ k =>
      rw [lastColumn, List.getElem?_cons_succ] at hk
      exact hbelow.2 k cell hk

/-- A row that is continued by the cell of the whole word is the row of the longer word. -/
private theorem rowHolds_append {w : Word} {t : Terminal} {row : List Cell} {cell : Cell} (hrow : N.RowHolds w row)
    (hcell : N.Holds cell (w ++ [t])) : N.RowHolds (w ++ [t]) (row ++ [cell]) := by
  refine ⟨by simp [hrow.1], fun k c hk => ?_⟩
  by_cases hlt : k < row.length
  · rw [List.getElem?_append_left hlt] at hk
    have hle : k + 1 ≤ w.length := by
      rw [← hrow.1]
      omega
    rw [List.take_append_of_le_length hle]
    exact hrow.2 k c hk
  · rw [List.getElem?_append_right (by omega), List.getElem?_singleton] at hk
    split at hk
    · cases hk
      have hwhole : (w ++ [t]).take (k + 1) = w ++ [t] := by
        apply List.take_of_length_le
        rw [List.length_append, List.length_singleton, ← hrow.1]
        omega
      rwa [hwhole]
    · simp at hk

/-- One more letter makes the rows those of the longer word. -/
theorem addLetter_holds (t : Terminal) {w : Word} {rows : List (List Cell)} (h : N.RowsHold w rows) :
    N.RowsHold (w ++ [t]) (addLetter N.rules rows t) := by
  have hcolumn := lastColumn_holds t h
  unfold addLetter
  generalize lastColumn N.rules t rows = column at hcolumn
  induction w generalizing rows column with
  | nil =>
    obtain rfl : rows = [] := h
    obtain ⟨cell, rfl⟩ := List.length_eq_one_iff.1 hcolumn.1
    have hempty : N.RowHolds [] [] := ⟨rfl, fun k c hk => by simp at hk⟩
    exact ⟨[cell], [], rfl, rowHolds_append hempty (hcolumn.2 0 cell rfl), rfl⟩
  | cons s w ih =>
    obtain ⟨row, rest, rfl, hrow, hrest⟩ := h
    cases column with
    | nil => simp [ColumnHolds] at hcolumn
    | cons cell column =>
      have htail : N.ColumnHolds (w ++ [t]) column :=
        ⟨Nat.succ.inj hcolumn.1, fun k c hk => hcolumn.2 (k + 1) c hk⟩
      exact ⟨row ++ [cell], _, rfl, rowHolds_append hrow (hcolumn.2 0 cell rfl), ih hrest column htail⟩

/-- The table of a word holds what it should. -/
theorem tableRows_hold (N : NormalForm) (w : Word) : N.RowsHold w (N.tableRows w) := by
  induction w using List.reverseRecOn with
  | nil => rfl
  | append_singleton w t ih =>
    rw [tableRows_append]
    exact addLetter_holds t ih

/-- The row `i` is the row of what is left of the word from its letter `i` on. -/
theorem RowsHold.getElem? {w : Word} {rows : List (List Cell)} (h : N.RowsHold w rows) {i : Nat}
    (hi : i < w.length) : ∃ row, rows[i]? = some row ∧ N.RowHolds (w.drop i) row := by
  induction w generalizing rows i with
  | nil => simp at hi
  | cons s w ih =>
    obtain ⟨row, rest, rfl, hrow, hrest⟩ := h
    cases i with
    | zero => exact ⟨row, rfl, hrow⟩
    | succ i => exact ih hrest (Nat.lt_of_succ_lt_succ hi)

/-- The cell `(i, j)` holds what covers the letters from `i` to `j`. -/
theorem cell?_table {w : Word} {i j : Nat} (hij : i ≤ j) (hj : j < w.length) :
    ∃ cell, (N.table w).cell? i j = some cell ∧ N.Holds cell ((w.drop i).take (j - i + 1)) := by
  obtain ⟨row, hget, hlen, hcells⟩ := (N.tableRows_hold w).getElem? (i := i) (by omega)
  have hlt : j - i < row.length := by
    rw [hlen, List.length_drop]
    omega
  have hcell : row[j - i]? = some row[j - i] := List.getElem?_eq_getElem hlt
  refine ⟨row[j - i], ?_, hcells _ _ hcell⟩
  have hinside : i < w.length ∧ j < w.length := ⟨by omega, hj⟩
  have hupper : ¬ j < i := by omega
  simp only [WordTable.cell?, table, hinside, and_self, ↓reduceIte, hupper, hget, Option.bind_some, hcell]

/-- The empty word is accepted if the start symbol is erasable, any other word if the start symbol covers it. -/
theorem accepts_iff {w : Word} :
    N.accepts w = true ↔ (w = [] ∧ N.erasable = true) ∨ (w ≠ [] ∧ N.Covers N.start w) := by
  cases w with
  | nil => simp [accepts, WordTable.accepted, table]
  | cons t w =>
    obtain ⟨cell, hcell, hholds⟩ :=
      cell?_table (N := N) (w := t :: w) (i := 0) (j := (t :: w).length - 1) (Nat.zero_le _) (by simp)
    have hwhole : ((t :: w).drop 0).take ((t :: w).length - 1 - 0 + 1) = t :: w := by
      simp [List.take_of_length_le]
    rw [hwhole] at hholds
    have haccepts : N.accepts (t :: w) = decide (N.start ∈ cell) := by
      show ((N.table (t :: w)).cell? 0 ((t :: w).length - 1)).any (fun cell => decide (N.start ∈ cell)) = _
      rw [hcell]
      rfl
    rw [haccepts, decide_eq_true_eq, hholds N.start]
    simp

end NormalForm

end NormalGrammar
