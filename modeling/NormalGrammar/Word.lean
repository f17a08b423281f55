import NormalGrammar.Symbol

/-!
# Words and bodies

A word is a sequence of terminals, the body of a production a sequence of symbols.  Both are written in the same
way (`sequenceText`): names of one character stand side by side, as soon as one name is longer a space separates
all of them, and the empty sequence is `ε`.
-/

namespace NormalGrammar

/-- How the empty sequence is written. -/
def epsilon : String := "ε"

def sequenceText (names : List String) : String :=
  if names.isEmpty then epsilon
  else if names.all fun name => name.length == 1 then String.join names
  else " ".intercalate names

abbrev Word := List Terminal

abbrev Body := List Symbol

namespace Word

/-- Reads every character as a terminal. -/
def ofString (text : String) : Word := text.toList.map fun c => ⟨Name.ofChar c⟩

def text (w : Word) : String := sequenceText (w.map Terminal.text)

def toBody (w : Word) : Body := w.map Symbol.terminal

end Word

namespace Body

def text (w : Body) : String := sequenceText (w.map Symbol.text)

/-- The nonterminal of a body that consists of it alone. -/
def unit? : Body → Option Nonterminal
  | [.nonterminal A] => some A
  | _ => none

/-- The nonterminals in order, each as often as it occurs. -/
def nonterminals (w : Body) : List Nonterminal := w.filterMap Symbol.nonterminal?

/-- The terminals in order, each as often as it occurs. -/
def terminals (w : Body) : List Terminal := w.filterMap Symbol.terminal?

@[simp] theorem mem_nonterminals {w : Body} {A : Nonterminal} : A ∈ w.nonterminals ↔ .nonterminal A ∈ w := by
  simp [nonterminals]

@[simp] theorem mem_terminals {w : Body} {t : Terminal} : t ∈ w.terminals ↔ .terminal t ∈ w := by
  simp [terminals]

theorem unit?_eq_some {w : Body} {A : Nonterminal} : w.unit? = some A ↔ w = [.nonterminal A] := by
  unfold unit?
  split <;> simp_all [eq_comm]

end Body

end NormalGrammar
