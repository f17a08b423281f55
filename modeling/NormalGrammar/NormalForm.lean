import NormalGrammar.Grammar.Validation
import NormalGrammar.Listing

/-!
# Grammars in normal form

Every production of a grammar in normal form is `A → a` or `A → B C`, and the start symbol may be erasable besides.
`ofGrammar` reads a grammar as one in normal form and reports the first production that does not fit, and `toGrammar`
writes it back.  Only the start symbol and the symbols of productions are declared by a normal form.
-/

namespace NormalGrammar

/-- A body in normal form: one terminal, or two nonterminals. -/
inductive NormalBody
  | terminal (t : Terminal)
  | pair (A B : Nonterminal)
  deriving DecidableEq

/-- Why a body is not in normal form. -/
inductive ShapeError
  | loneNonterminal
  | mixedPair
  | wrongLength
  deriving DecidableEq

def ShapeError.message : ShapeError → String
  | loneNonterminal => "Expected a terminal"
  | mixedPair => "Expected two non-terminals"
  | wrongLength => "CnfWord can only be created from a word with one terminal or two non-terminals"

namespace NormalBody

def toBody : NormalBody → Body
  | terminal t => [.terminal t]
  | pair A B => [.nonterminal A, .nonterminal B]

def text (w : NormalBody) : String := w.toBody.text

def ofBody : Body → Except ShapeError NormalBody
  | [.terminal t] => .ok (terminal t)
  | [.nonterminal _] => .error .loneNonterminal
  | [.nonterminal A, .nonterminal B] => .ok (pair A B)
  | [_, _] => .error .mixedPair
  | _ => .error .wrongLength

theorem ofBody_toBody (w : NormalBody) : ofBody w.toBody = .ok w := by
  cases w <;> rfl

theorem ofBody_eq_ok {w : Body} {v : NormalBody} : ofBody w = .ok v ↔ w = v.toBody := by
  constructor
  · intro h
    unfold ofBody at h
    split at h <;> simp only [Except.ok.injEq, reduceCtorEq] at h <;> subst h <;> rfl
  · rintro rfl
    exact ofBody_toBody v

def terminal? : NormalBody → Option Terminal
  | terminal t => some t
  | pair _ _ => none

/-- The nonterminals in order. -/
def nonterminals : NormalBody → List Nonterminal
  | terminal _ => []
  | pair A B => [A, B]

end NormalBody

structure NormalForm where
  start : Nonterminal
  erasable : Bool
  productions : Productions NormalBody
  deriving DecidableEq

/-- Why a production is not in normal form. -/
inductive NormalFormFault
  | erasing
  | shape (e : ShapeError)
  deriving DecidableEq

def NormalFormFault.message : NormalFormFault → String
  | erasing => "only the start symbol may be erasable"
  | shape e => e.message

/-- A production that is not in normal form. -/
structure NormalFormError where
  rule : Rule Body
  fault : NormalFormFault
  deriving DecidableEq

def NormalFormError.message (e : NormalFormError) : String :=
  s!"production {e.rule.text} is not in Chomsky normal form: {e.fault.message}"

namespace NormalForm

/-- The production in normal form, or nothing where the start symbol owns an empty body. -/
def readRule (start : Nonterminal) (r : Rule Body) : Except NormalFormError (Option (Rule NormalBody)) :=
  if r.body.isEmpty then
    if r.owner = start then .ok none else .error ⟨r, .erasing⟩
  else
    match NormalBody.ofBody r.body with
    | .ok w => .ok (some ⟨r.owner, w⟩)
    | .error e => .error ⟨r, .shape e⟩

def readRules (start : Nonterminal) : List (Rule Body) → Except NormalFormError (List (Rule NormalBody))
  | [] => .ok []
  | r :: rules =>
    match readRule start r with
    | .error e => .error e
    | .ok read => (readRules start rules).map fun rest => read.toList ++ rest

/-- Reads a grammar as one in normal form. -/
def ofGrammar (G : Grammar) : Except NormalFormError NormalForm :=
  (readRules G.start G.rules).map fun rules =>
    ⟨G.start, decide ([] ∈ G.bodies G.start), .ofList rules⟩

def rules (N : NormalForm) : List (Rule NormalBody) := N.productions.rules

/-- The productions as those of a grammar, an erasable start symbol last. -/
def toGrammar (N : NormalForm) : Grammar :=
  (Grammar.ofStart N.start).addAll
    (N.rules.map (fun r => ⟨r.owner, r.body.toBody⟩) ++ if N.erasable then [⟨N.start, []⟩] else [])

/-- The start symbol, then every owner with the nonterminals of its bodies. -/
def nonterminals (N : NormalForm) : OrderedSet Nonterminal :=
  .ofList (N.start :: N.rules.flatMap fun r => r.owner :: r.body.nonterminals)

def terminals (N : NormalForm) : OrderedSet Terminal := .ofList (N.rules.filterMap fun r => r.body.terminal?)

def erasingOwners (N : NormalForm) : List Nonterminal := if N.erasable then [N.start] else []

def listing (N : NormalForm) : Listing where
  start := N.start
  nonterminals := N.nonterminals.toList
  terminals := N.terminals.toList
  rules := N.rules.map fun r => ⟨r.owner, r.body.toBody⟩
  erasing := N.erasingOwners

/-- The grammar as text. -/
def definition (N : NormalForm) : String := N.listing.text

end NormalForm

end NormalGrammar
