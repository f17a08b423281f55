import NormalGrammar.Proofs.Notation
import NormalGrammar.Proofs.Spelling

/-!
# Reading a printed body

A body of legible symbols is printed as a text from which the same symbols are read (`Body.read_text`), with one
exception.  The letters of `epsilon` are taken for the empty body wherever they stand in front, so terminals that spell
this word side by side are lost, and what stands behind them is left unread (`Scan.body_text_of_epsilon`).
-/

namespace NormalGrammar

open Notation

namespace Notation

/-! ### The letters of `epsilon` -/

/-- The symbols are printed side by side, and the first of them spell `epsilon`. -/
def SpellsEpsilon (w : Body) : Prop := (∀ s ∈ w, s.text.length = 1) ∧ epsilonBody <+: w

instance (w : Body) : Decidable (SpellsEpsilon w) := inferInstanceAs (Decidable (_ ∧ _))

theorem legible_epsilonBody : ∀ s ∈ epsilonBody, Legible s := by decide

theorem toList_text_of_epsilon {v : Body} (hsingle : ∀ s ∈ epsilonBody ++ v, s.text.length = 1) :
    (epsilonBody ++ v).text.toList = epsilonLetters ++ v.flatMap fun s => s.text.toList := by
  have hletters : (epsilonBody.flatMap fun s => s.text.toList) = epsilonLetters := by decide
  have hne : epsilonBody ++ v ≠ [] := List.append_ne_nil_of_left_ne_nil (by decide) v
  rw [toList_text_joined hne hsingle, List.flatMap_append, hletters]

end Notation

namespace Scan

theorem body_epsilonLetters (rest : List Char) : body (epsilonLetters ++ rest) = .ok ([], skipBlanks rest) := rfl

/-- The letters in front are taken for the empty body, and the other symbols are left. -/
theorem body_text_of_epsilon {v : Body} (hv : ∀ s ∈ v, Legible s)
    (hsingle : ∀ s ∈ epsilonBody ++ v, s.text.length = 1) :
    body (epsilonBody ++ v).text.toList = .ok ([], v.flatMap fun s => s.text.toList) := by
  have hblank : ∀ c ∈ (v.flatMap fun s => s.text.toList).head?, isBlank c = false := by
    intro c hc
    rcases head_of_symbolsText (symbolsText_joined hv) with ⟨hnil, -⟩ | ⟨d, tail, hcons, halpha⟩
    · rw [hnil] at hc
      cases hc
    · rw [hcons] at hc
      cases hc
      exact not_isBlank_of_isAlpha halpha
  rw [toList_text_of_epsilon hsingle, body_epsilonLetters, skipBlanks_of_head hblank]

end Scan

/-! ### Reading back -/

namespace Body

variable {w : Body}

theorem read_text_of_not_spellsEpsilon (hw : ∀ s ∈ w, Legible s) (h : ¬ SpellsEpsilon w) : read w.text = .ok w :=
  read_eq_ok.2 (bodyText_text hw fun hsingle hprefix => h ⟨hsingle, hprefix⟩)

/-- Exactly the bodies that do not spell `epsilon` in front are read back. -/
theorem read_text_eq_ok_iff (hw : ∀ s ∈ w, Legible s) : read w.text = .ok w ↔ ¬ SpellsEpsilon w := by
  refine ⟨?_, read_text_of_not_spellsEpsilon hw⟩
  rintro hread ⟨hsingle, v, rfl⟩
  have hscan := Scan.body_text_of_epsilon (fun s hs => hw s (List.mem_append_right _ hs)) hsingle
  rw [read, readAll_eq_ok, hscan] at hread
  obtain ⟨hempty, -⟩ := Prod.mk.inj (Except.ok.inj hread)
  exact List.append_ne_nil_of_left_ne_nil (by decide) v hempty.symm

/-- A body of legible symbols is read back from its text, unless its symbols side by side begin with the letters of
`epsilon`.  Just these letters are read as the empty body. -/
theorem read_text : (∀ w : Body, (∀ s ∈ w, Legible s) → ¬ SpellsEpsilon w → read w.text = .ok w) ∧
    read epsilonBody.text = .ok [] := by
  have hscan := Scan.body_text_of_epsilon (v := []) (by simp) (by decide)
  exact ⟨fun _ => read_text_of_not_spellsEpsilon, readAll_eq_ok.2 hscan⟩

/-- `epsiloN`, where only the last symbol is a nonterminal. -/
def nearlyEpsilon : Body :=
  (['e', 'p', 's', 'i', 'l', 'o'].map fun c => Symbol.terminal ⟨.ofChar c⟩) ++ [.nonterminal ⟨.ofChar 'N'⟩]

theorem read_text_nearlyEpsilon : (∀ s ∈ nearlyEpsilon, Legible s) ∧ ¬ SpellsEpsilon nearlyEpsilon ∧
    nearlyEpsilon.text = "epsiloN" ∧ read nearlyEpsilon.text = .ok nearlyEpsilon := by
  have hlegible : ∀ s ∈ nearlyEpsilon, Legible s := by decide
  have hother : ¬ SpellsEpsilon nearlyEpsilon := by decide
  exact ⟨hlegible, hother, by decide, read_text.1 nearlyEpsilon hlegible hother⟩

/-- The terminals that spell the word `epsilon` are legible, but they are not what is read from their text. -/
theorem not_read_text_epsilon : (∀ s ∈ epsilonBody, Legible s) ∧ epsilonBody.text = "epsilon" ∧
    read epsilonBody.text ≠ .ok epsilonBody := by
  have hspells : SpellsEpsilon epsilonBody := by decide
  exact ⟨legible_epsilonBody, by decide, fun hread => (read_text_eq_ok_iff legible_epsilonBody).1 hread hspells⟩

end Body

end NormalGrammar
