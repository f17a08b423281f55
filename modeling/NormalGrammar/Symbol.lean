/-!
# Names and symbols

A name is any text but the empty one.  Terminals and nonterminals are names of two kinds, and a symbol is either.
Names are ordered by their characters, and every terminal comes before every nonterminal.
-/

namespace NormalGrammar

/-- The text of a symbol, never empty. -/
structure Name where
  text : String
  nonempty : text ≠ ""
  deriving DecidableEq

/-- Why a text is no name. -/
inductive NameError
  | empty
  deriving DecidableEq

def NameError.message : NameError → String
  | .empty => "symbols cannot be empty"

namespace Name

def ofString (text : String) : Except NameError Name :=
  if h : text = "" then .error .empty else .ok ⟨text, h⟩

theorem ofString_eq_ok {text : String} {name : Name} : ofString text = .ok name ↔ name.text = text := by
  cases name with
  | mk t ht =>
    unfold ofString
    split
    · rename_i h
      subst h
      simp [ht]
    · simp [eq_comm]

theorem eq_of_text {a b : Name} (h : a.text = b.text) : a = b := by
  cases a
  cases b
  cases h
  rfl

/-- The name that consists of one character. -/
def ofChar (c : Char) : Name := ⟨String.singleton c, by simp⟩

/-- The name that starts with the character `c` and goes on with `cs`. -/
def ofChars (c : Char) (cs : List Char) : Name := ⟨String.ofList (c :: cs), by simp⟩

instance : Ord Name := ⟨fun a b => compare a.text b.text⟩

end Name

structure Terminal where
  name : Name
  deriving DecidableEq

structure Nonterminal where
  name : Name
  deriving DecidableEq

inductive Symbol
  | terminal (t : Terminal)
  | nonterminal (A : Nonterminal)
  deriving DecidableEq

def Terminal.text (t : Terminal) : String := t.name.text

def Nonterminal.text (A : Nonterminal) : String := A.name.text

/-- Texts one after the other with commas between them. -/
def commaSeparated (texts : List String) : String := ", ".intercalate texts

/-- Texts with commas between them, in braces. -/
def braced (texts : List String) : String := "\x7b" ++ commaSeparated texts ++ "\x7d"

namespace Symbol

def name : Symbol → Name
  | terminal t => t.name
  | nonterminal A => A.name

def text (s : Symbol) : String := s.name.text

def terminal? : Symbol → Option Terminal
  | terminal t => some t
  | nonterminal _ => none

def nonterminal? : Symbol → Option Nonterminal
  | terminal _ => none
  | nonterminal A => some A

@[simp] theorem terminal?_eq_some {s : Symbol} {t : Terminal} : s.terminal? = some t ↔ s = .terminal t := by
  cases s <;> simp [terminal?]

@[simp] theorem nonterminal?_eq_some {s : Symbol} {A : Nonterminal} :
    s.nonterminal? = some A ↔ s = .nonterminal A := by
  cases s <;> simp [nonterminal?]

end Symbol

/-! ### Order -/

instance : Ord Terminal := ⟨fun a b => compare a.name b.name⟩

instance : Ord Nonterminal := ⟨fun a b => compare a.name b.name⟩

instance : Ord Symbol where
  compare
    | .terminal a, .terminal b => compare a b
    | .terminal _, .nonterminal _ => .lt
    | .nonterminal _, .terminal _ => .gt
    | .nonterminal a, .nonterminal b => compare a b

end NormalGrammar
