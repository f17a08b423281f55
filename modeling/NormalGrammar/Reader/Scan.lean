import NormalGrammar.Rule

/-!
# Reading from the front of a text

A scan looks at the front of a text and either gives a value with the text behind it, or the text at which nothing
fitted.  A symbol is a letter with any digits and primes behind it, an upper-case letter making it a nonterminal.  A
body is `ε`, `epsilon` or one or more symbols.  Spaces and tabs separate.  Every scan gives back an end of the text it
was given, a shorter one behind a symbol (`length_of_symbol?`) and never a longer one (`length_of_body`).  The scans do
what combinations of simple parsers do if the first alternative that fits is taken, repetitions take as much as fits and
a bar without a body behind it is given back: these laws are `ParserLibrary.Lawful`.
-/

namespace NormalGrammar

/-- A value and the text behind it, or the text at which nothing fitted. -/
abbrev Scan (α : Type) := Except (List Char) (α × List Char)

/-- The value, provided that no text is left behind it. -/
def Scan.complete {α : Type} : Scan α → Except (List Char) α
  | .ok (a, []) => .ok a
  | .ok (_, c :: cs) => .error (c :: cs)
  | .error cs => .error cs

namespace Scan

/-! ### Symbols -/

def isBlank (c : Char) : Bool := c == ' ' || c == '\t'

def skipBlanks (cs : List Char) : List Char := cs.dropWhile isBlank

/-- The characters that a name may have behind its first one. -/
def isNameTail (c : Char) : Bool := c.isDigit || c == '\''

/-- The symbol with the given characters. -/
def symbolOf (c : Char) (tail : List Char) : Symbol :=
  if c.isUpper then .nonterminal ⟨.ofChars c tail⟩ else .terminal ⟨.ofChars c tail⟩

def symbol? : List Char → Option (Symbol × List Char)
  | [] => none
  | c :: cs => if c.isAlpha then some (symbolOf c (cs.takeWhile isNameTail), cs.dropWhile isNameTail) else none

private theorem length_dropWhile_le (p : Char → Bool) (cs : List Char) : (cs.dropWhile p).length ≤ cs.length :=
  (List.dropWhile_sublist p).length_le

theorem length_skipBlanks_le (cs : List Char) : (skipBlanks cs).length ≤ cs.length := length_dropWhile_le _ _

theorem length_of_symbol? {cs rest : List Char} {s : Symbol} (h : symbol? cs = some (s, rest)) :
    rest.length < cs.length := by
  cases cs with
  | nil => simp [symbol?] at h
  | cons c cs =>
    rw [symbol?, Option.ite_none_right_eq_some] at h
    simp only [Option.some.injEq, Prod.mk.injEq] at h
    rw [← h.2.2]
    exact Nat.lt_succ_of_le (length_dropWhile_le _ _)

/-- The nonterminal at the front. -/
def nonterminal (cs : List Char) : Scan Nonterminal :=
  match symbol? cs with
  | some (.nonterminal A, rest) => .ok (A, rest)
  | _ => .error cs

/-- As many symbols as follow each other, with the blanks behind each of them. -/
def symbols (cs : List Char) : Body × List Char :=
  match _h : symbol? cs with
  | none => ([], cs)
  | some (s, rest) =>
    let found := symbols (skipBlanks rest)
    (s :: found.1, found.2)
termination_by cs.length
decreasing_by exact Nat.lt_of_le_of_lt (length_skipBlanks_le _) (length_of_symbol? _h)

/-! ### Bodies -/

/-- The text behind a spelling of the empty body. -/
def afterEpsilon? : List Char → Option (List Char)
  | 'ε' :: rest => some rest
  | 'e' :: 'p' :: 's' :: 'i' :: 'l' :: 'o' :: 'n' :: rest => some rest
  | _ => none

/-- A spelling of the empty body is taken wherever it fits, also in front of further letters. -/
def body (cs : List Char) : Scan Body :=
  match afterEpsilon? (skipBlanks cs) with
  | some rest => .ok ([], skipBlanks rest)
  | none =>
    match symbols (skipBlanks cs) with
    | ([], rest) => .error rest
    | (s :: w, rest) => .ok (s :: w, rest)

theorem length_of_afterEpsilon? {cs rest : List Char} (h : afterEpsilon? cs = some rest) :
    rest.length < cs.length := by
  unfold afterEpsilon? at h
  split at h <;> simp_all
  omega

theorem length_symbols_le (cs : List Char) : (symbols cs).2.length ≤ cs.length := by
  fun_induction symbols cs with
  | case1 => exact Nat.le_refl _
  | case2 cs s rest h found ih =>
    have h1 := length_of_symbol? h
    have h2 := length_skipBlanks_le rest
    exact Nat.le_trans ih (by omega)

theorem length_of_body {cs rest : List Char} {w : Body} (h : body cs = .ok (w, rest)) :
    rest.length ≤ cs.length := by
  have hb := length_skipBlanks_le cs
  unfold body at h
  split at h
  · rename_i rest' he
    have h1 := length_of_afterEpsilon? he
    have h2 := length_skipBlanks_le rest'
    simp only [Except.ok.injEq, Prod.mk.injEq] at h
    rw [← h.2]
    omega
  · have h1 := length_symbols_le (skipBlanks cs)
    split at h
    · simp at h
    · rename_i w' rest' e
      simp only [Except.ok.injEq, Prod.mk.injEq] at h
      rw [e, h.2] at h1
      exact Nat.le_trans h1 hb

/-- The bodies that follow, each behind a bar.  A bar that no body follows is left unread. -/
def moreBodies : List Char → List Body × List Char
  | '|' :: cs =>
    match _h : body cs with
    | .ok (w, rest) =>
      let found := moreBodies rest
      (w :: found.1, found.2)
    | .error _ => ([], '|' :: cs)
  | cs => ([], cs)
termination_by cs => cs.length
decreasing_by exact Nat.lt_succ_of_le (length_of_body _h)

def bodies (cs : List Char) : Scan (List Body) :=
  match body cs with
  | .ok (w, rest) => .ok (w :: (moreBodies rest).1, (moreBodies rest).2)
  | .error rest => .error rest

/-! ### Productions -/

/-- The text behind an arrow. -/
def arrow : List Char → Except (List Char) (List Char)
  | '→' :: rest => .ok rest
  | '-' :: '>' :: rest => .ok rest
  | cs => .error cs

/-- A nonterminal between blanks. -/
def owner (cs : List Char) : Scan Nonterminal :=
  match nonterminal (skipBlanks cs) with
  | .ok (A, rest) => .ok (A, skipBlanks rest)
  | .error rest => .error rest

/-- An owner, an arrow and the bodies that it owns. -/
def production (cs : List Char) : Except (List Char) (List (Rule Body) × List Char) := do
  let (A, rest) ← owner cs
  let rest ← arrow rest
  let (ws, rest) ← bodies rest
  .ok (ws.map (Rule.mk A), rest)

end Scan

end NormalGrammar
