import NormalGrammar.Grammar

/-!
# New names

`FreshNames` counts the numbered names that have been tried.  New nonterminals are called `X1`, `X2`, … and the
nonterminal that stands for a terminal `a` is called `T_a`, or `T_a_1`, `T_a_2`, … if that name is in use.  A number
once tried is never tried again.  A `Draft` is a grammar on which work is being done, with its source of names.
-/

namespace NormalGrammar

/-- The number to try next. -/
structure FreshNames where
  next : Nat := 1
  deriving DecidableEq

/-- The least number from `n` on whose candidate is not taken, for candidates that are all different. -/
def firstFree (candidate : Nat → Name) (taken : List Name) (n : Nat) : Nat :=
  if _h : candidate n ∈ taken then firstFree candidate (taken.erase (candidate n)) (n + 1) else n
termination_by taken.length
decreasing_by
  have := List.length_pos_of_mem _h
  rw [List.length_erase_of_mem _h]
  omega

namespace Name

private theorem append_ne_empty {front : String} (h : front ≠ "") (rest : String) : front ++ rest ≠ "" :=
  fun e => h (String.append_eq_empty_iff.1 e).1

def numbered (n : Nat) : Name := ⟨"X" ++ s!"{n}", append_ne_empty (by decide) _⟩

def proxy (t : Terminal) : Name := ⟨"T_" ++ t.text, append_ne_empty (by decide) _⟩

def numberedProxy (t : Terminal) (n : Nat) : Name := ⟨"T_" ++ s!"{t.text}_{n}", append_ne_empty (by decide) _⟩

end Name

namespace FreshNames

/-- A numbered name that `G` does not declare. -/
def draw (names : FreshNames) (G : Grammar) : Nonterminal × FreshNames :=
  let n := firstFree Name.numbered G.names names.next
  (⟨Name.numbered n⟩, ⟨n + 1⟩)

/-- A name that `G` does not declare, for the nonterminal that stands for `t`. -/
def drawProxy (names : FreshNames) (G : Grammar) (t : Terminal) : Nonterminal × FreshNames :=
  if G.declares (Name.proxy t) then
    let n := firstFree (Name.numberedProxy t) G.names names.next
    (⟨Name.numberedProxy t n⟩, ⟨n + 1⟩)
  else (⟨Name.proxy t⟩, names)

end FreshNames

structure Draft where
  grammar : Grammar
  names : FreshNames
  deriving DecidableEq

namespace Draft

def declare (d : Draft) (A : Nonterminal) : Draft :=
  { d with grammar := { d.grammar with nonterminals := d.grammar.nonterminals.insert A } }

/-- A new nonterminal, and the draft that declares it. -/
def newNonterminal (d : Draft) : Nonterminal × Draft :=
  let (X, names) := d.names.draw d.grammar
  (X, declare ⟨d.grammar, names⟩ X)

/-- A nonterminal to stand for `t`, and the draft that declares it. -/
def newProxy (d : Draft) (t : Terminal) : Nonterminal × Draft :=
  let (P, names) := d.names.drawProxy d.grammar t
  (P, declare ⟨d.grammar, names⟩ P)

def withProductions (d : Draft) (rules : List (Rule Body)) : Draft :=
  { d with grammar := { d.grammar with productions := .ofList rules } }

end Draft

end NormalGrammar
