import Mathlib.Data.List.TakeWhile
import NormalGrammar.Reader.Notation
import NormalGrammar.Reader.Scan

/-!
# Reading blanks and symbols

What a scan takes from the front of a text is a text for what it gives (`symbol?_sound`, `symbols_sound`), and it takes
the whole of such a text if what stands behind cannot belong to it (`symbol?_append`, `symbols_append`).  Symbols need
no separators: behind a name there is never a digit or a prime (`not_isNameTail_behind`), so no name is cut short.
-/

namespace NormalGrammar

open Notation

theorem Notation.blanks_nil : Blanks [] := by
  simp [Blanks]

theorem Notation.blanks_space : Blanks [' '] := by
  simp [Blanks]

namespace Scan

/-! ### What stands behind -/

/-- The text starts with nothing that could belong to a name or be skipped. -/
def Stops (cs : List Char) : Prop :=
  ∀ c ∈ cs.head?, isBlank c = false ∧ isNameTail c = false ∧ c.isAlpha = false

theorem stops_nil : Stops [] := by
  intro c hc
  cases hc

theorem stops_bar (cs : List Char) : Stops ('|' :: cs) := by
  intro c hc
  cases hc
  decide

theorem stops_arrow {arrow : List Char} (h : ArrowText arrow) (cs : List Char) : Stops (arrow ++ cs) := by
  intro c hc
  cases h <;> cases hc <;> decide

theorem isBlank_iff {c : Char} : isBlank c = true ↔ c = ' ' ∨ c = '\t' := by
  simp [isBlank]

theorem isNameTail_iff {c : Char} : isNameTail c = true ↔ c.isDigit ∨ c = '\'' := by
  simp [isNameTail]

private theorem takeWhile_append {p : Char → Bool} {front rest : List Char} (hfront : ∀ c ∈ front, p c = true)
    (hrest : ∀ c ∈ rest.head?, p c = false) : (front ++ rest).takeWhile p = front := by
  rw [List.takeWhile_append_of_pos hfront]
  cases rest with
  | nil => simp
  | cons c rest => simp [hrest c rfl]

private theorem dropWhile_append {p : Char → Bool} {front rest : List Char} (hfront : ∀ c ∈ front, p c = true)
    (hrest : ∀ c ∈ rest.head?, p c = false) : (front ++ rest).dropWhile p = rest := by
  rw [List.dropWhile_append_of_pos hfront]
  cases rest with
  | nil => rfl
  | cons c rest => simp [hrest c rfl]

/-! ### Blanks -/

theorem skipBlanks_append {blanks : List Char} (h : Blanks blanks) (cs : List Char) :
    skipBlanks (blanks ++ cs) = skipBlanks cs :=
  List.dropWhile_append_of_pos fun c hc => isBlank_iff.2 (h c hc)

theorem skipBlanks_of_head {cs : List Char} (h : ∀ c ∈ cs.head?, isBlank c = false) : skipBlanks cs = cs := by
  have hnone : ∀ c ∈ ([] : List Char), isBlank c = true := by simp
  exact dropWhile_append hnone h

theorem skipBlanks_append_of_stops {blanks rest : List Char} (h : Blanks blanks) (hrest : Stops rest) :
    skipBlanks (blanks ++ rest) = rest := by
  rw [skipBlanks_append h]
  exact skipBlanks_of_head fun c hc => (hrest c hc).1

theorem skipBlanks_skipBlanks (cs : List Char) : skipBlanks (skipBlanks cs) = skipBlanks cs := by
  refine skipBlanks_of_head fun c hc => ?_
  have hhead := List.head?_dropWhile_not isBlank cs
  rw [← skipBlanks, hc] at hhead
  simpa using hhead

theorem exists_skipBlanks (cs : List Char) : ∃ blanks, Blanks blanks ∧ cs = blanks ++ skipBlanks cs := by
  refine ⟨cs.takeWhile isBlank, fun c hc => isBlank_iff.1 (List.mem_takeWhile_imp hc), ?_⟩
  exact List.takeWhile_append_dropWhile.symm

/-! ### Symbols -/

/-- The capital letters as a range of codes. -/
theorem isUpper_iff {c : Char} : c.isUpper = true ↔ 65 ≤ c.val.toNat ∧ c.val.toNat ≤ 90 := by
  show decide ('A'.val ≤ c.val ∧ c.val ≤ 'Z'.val) = true ↔ _
  rw [decide_eq_true_iff, UInt32.le_iff_toNat_le, UInt32.le_iff_toNat_le]
  rfl

/-- The small letters as a range of codes. -/
theorem isLower_iff {c : Char} : c.isLower = true ↔ 97 ≤ c.val.toNat ∧ c.val.toNat ≤ 122 := by
  show (decide ('a'.val ≤ c.val) && decide (c.val ≤ 'z'.val)) = true ↔ _
  rw [Bool.and_eq_true_iff, decide_eq_true_iff, decide_eq_true_iff, UInt32.le_iff_toNat_le, UInt32.le_iff_toNat_le]
  rfl

theorem isAlpha_iff {c : Char} : c.isAlpha = true ↔ c.isUpper = true ∨ c.isLower = true := Bool.or_eq_true_iff

theorem not_isUpper_of_isLower {c : Char} (h : c.isLower = true) : c.isUpper = false := by
  rw [Bool.eq_false_iff]
  intro hupper
  have hlow := isLower_iff.1 h
  have hup := isUpper_iff.1 hupper
  omega

/-- A symbol is written as a letter and the end of a name, and read from them. -/
theorem symbolText_iff {name : List Char} {s : Symbol} :
    SymbolText name s ↔ ∃ c tail, name = c :: tail ∧ c.isAlpha = true ∧ NameTail tail ∧ symbolOf c tail = s := by
  constructor
  · intro h
    cases h with
    | @nonterminal c tail upper rest =>
      exact ⟨c, tail, rfl, isAlpha_iff.2 (Or.inl upper), rest, by simp [symbolOf, upper]⟩
    | @terminal c tail lower rest =>
      exact ⟨c, tail, rfl, isAlpha_iff.2 (Or.inr lower), rest, by simp [symbolOf, not_isUpper_of_isLower lower]⟩
  · rintro ⟨c, tail, rfl, halpha, htail, rfl⟩
    unfold symbolOf
    split
    · rename_i hupper
      exact .nonterminal hupper htail
    · rename_i hupper
      have hlower : c.isLower = true := (isAlpha_iff.1 halpha).resolve_left hupper
      exact .terminal hlower htail

theorem not_isBlank_of_isAlpha {c : Char} (h : c.isAlpha = true) : isBlank c = false := by
  rw [Bool.eq_false_iff]
  intro hblank
  rcases isBlank_iff.1 hblank with rfl | rfl <;> revert h <;> decide

theorem not_isNameTail_of_isAlpha {c : Char} (h : c.isAlpha = true) : isNameTail c = false := by
  rw [Bool.eq_false_iff]
  intro htail
  rcases isNameTail_iff.1 htail with hdigit | rfl
  · rw [isAlpha_iff, isUpper_iff, isLower_iff] at h
    simp only [Char.isDigit, ge_iff_le, Bool.and_eq_true, decide_eq_true_eq, UInt32.le_iff_toNat_le] at hdigit
    have : '9'.val.toNat = 57 := rfl
    omega
  · revert h
    decide

/-- A name is taken as a whole, as no digit or prime stands behind it. -/
theorem symbol?_append {name rest : List Char} {s : Symbol} (h : SymbolText name s)
    (hrest : ∀ c ∈ rest.head?, isNameTail c = false) : symbol? (name ++ rest) = some (s, rest) := by
  obtain ⟨c, tail, rfl, halpha, htail, rfl⟩ := symbolText_iff.1 h
  have hall : ∀ d ∈ tail, isNameTail d = true := fun d hd => isNameTail_iff.2 (htail d hd)
  rw [List.cons_append, symbol?, if_pos halpha, takeWhile_append hall hrest, dropWhile_append hall hrest]

theorem symbol?_eq_none_of_stops {cs : List Char} (h : Stops cs) : symbol? cs = none := by
  cases cs with
  | nil => rfl
  | cons c cs => simp [symbol?, (h c rfl).2.2]

/-- What is taken as a symbol is a text for it. -/
theorem symbol?_sound {cs rest : List Char} {s : Symbol} (h : symbol? cs = some (s, rest)) :
    ∃ name, cs = name ++ rest ∧ SymbolText name s := by
  cases cs with
  | nil => cases h
  | cons c cs =>
    rw [symbol?, Option.ite_none_right_eq_some] at h
    obtain ⟨halpha, hfound⟩ := h
    obtain ⟨hs, hrest⟩ := Prod.mk.inj (Option.some.inj hfound)
    refine ⟨c :: cs.takeWhile isNameTail, ?_, symbolText_iff.2 ⟨c, _, rfl, halpha, fun d hd => ?_, hs⟩⟩
    · rw [← hrest, List.cons_append, List.takeWhile_append_dropWhile]
    · exact isNameTail_iff.1 (List.mem_takeWhile_imp hd)

/-- Symbols start with a letter, or there are none. -/
theorem head_of_symbolsText {cs : List Char} {w : Body} (h : SymbolsText cs w) :
    (cs = [] ∧ w = []) ∨ ∃ c tail, cs = c :: tail ∧ c.isAlpha = true := by
  cases h with
  | nil => exact Or.inl ⟨rfl, rfl⟩
  | cons first gap rest =>
    obtain ⟨c, tail, rfl, halpha, -, -⟩ := symbolText_iff.1 first
    exact Or.inr ⟨c, _, rfl, halpha⟩

theorem not_head_append {p : Char → Bool} {cs rest : List Char} (hcs : ∀ c ∈ cs, p c = false)
    (hrest : ∀ c ∈ rest.head?, p c = false) : ∀ c ∈ (cs ++ rest).head?, p c = false := by
  cases cs with
  | nil => exact hrest
  | cons d cs =>
    intro c hc
    cases hc
    exact hcs d List.mem_cons_self

theorem not_isNameTail_of_blanks {blanks : List Char} (h : Blanks blanks) :
    ∀ c ∈ blanks, isNameTail c = false := by
  intro c hc
  rcases h c hc with rfl | rfl <;> decide

/-- Behind blanks, further symbols or the end of them no name goes on. -/
theorem not_isNameTail_behind {blanks cs after rest : List Char} {w : Body} (hblanks : Blanks blanks)
    (hcs : SymbolsText cs w) (hafter : Blanks after) (hrest : Stops rest) :
    ∀ c ∈ (blanks ++ (cs ++ (after ++ rest))).head?, isNameTail c = false := by
  refine not_head_append (not_isNameTail_of_blanks hblanks) ?_
  rcases head_of_symbolsText hcs with ⟨rfl, -⟩ | ⟨d, tail, rfl, halpha⟩
  · rw [List.nil_append]
    exact not_head_append (not_isNameTail_of_blanks hafter) fun c hc => (hrest c hc).2.1
  · intro c hc
    cases hc
    exact not_isNameTail_of_isAlpha halpha

theorem symbols_of_none {cs : List Char} (h : symbol? cs = none) : symbols cs = ([], cs) := by
  rw [symbols]
  split
  · rfl
  · rename_i hsome
    rw [h] at hsome
    cases hsome

theorem symbols_of_some {cs rest : List Char} {s : Symbol} (h : symbol? cs = some (s, rest)) :
    symbols cs = (s :: (symbols (skipBlanks rest)).1, (symbols (skipBlanks rest)).2) := by
  rw [symbols]
  split
  · rename_i hnone
    rw [h] at hnone
    cases hnone
  · rename_i hsome
    rw [h] at hsome
    cases hsome
    rfl

/-- No blanks are left behind symbols. -/
theorem skipBlanks_symbols {cs : List Char} (h : skipBlanks cs = cs) : skipBlanks (symbols cs).2 = (symbols cs).2 := by
  fun_induction symbols cs with
  | case1 cs hnone => exact h
  | case2 cs s rest hsome found ih => exact ih (skipBlanks_skipBlanks rest)

/-- Symbols are taken one by one up to where they end. -/
theorem symbols_append {cs after rest : List Char} {w : Body} (h : SymbolsText cs w) (hafter : Blanks after)
    (hrest : Stops rest) : symbols (skipBlanks (cs ++ (after ++ rest))) = (w, rest) := by
  induction h with
  | nil =>
    rw [List.nil_append, skipBlanks_append_of_stops hafter hrest, symbols_of_none (symbol?_eq_none_of_stops hrest)]
  | @cons name blanks cs s w first gap hcs ih =>
    have hname : name ++ (blanks ++ cs) ++ (after ++ rest) = name ++ (blanks ++ (cs ++ (after ++ rest))) := by
      simp only [List.append_assoc]
    have hstart : skipBlanks (name ++ (blanks ++ (cs ++ (after ++ rest)))) =
        name ++ (blanks ++ (cs ++ (after ++ rest))) := by
      obtain ⟨c, tail, rfl, halpha, -, -⟩ := symbolText_iff.1 first
      refine skipBlanks_of_head fun d hd => ?_
      cases hd
      exact not_isBlank_of_isAlpha halpha
    have hfirst := symbol?_append first (not_isNameTail_behind gap hcs hafter hrest)
    rw [hname, hstart, symbols_of_some hfirst, skipBlanks_append gap, ih]

theorem symbols_sound (cs : List Char) : ∃ front, cs = front ++ (symbols cs).2 ∧ SymbolsText front (symbols cs).1 := by
  fun_induction symbols cs with
  | case1 cs h => exact ⟨[], rfl, .nil⟩
  | case2 cs s rest h found ih =>
    obtain ⟨name, hcs, hname⟩ := symbol?_sound h
    obtain ⟨blanks, hblanks, hrest⟩ := exists_skipBlanks rest
    obtain ⟨front, hfront, htext⟩ := ih
    refine ⟨name ++ (blanks ++ front), ?_, .cons hname hblanks htext⟩
    rw [hcs, List.append_assoc, List.append_assoc, ← hfront, ← hrest]

end Scan

end NormalGrammar
