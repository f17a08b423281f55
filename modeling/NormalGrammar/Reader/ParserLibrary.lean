import NormalGrammar.Reader
import NormalGrammar.Reader.Notation

/-!
# The readers as combinations of parsers

A library of parsers offers parsers for a character, for a run of characters and for a fixed text, and ways to put
parsers together.  What they are expected to do is written down as laws (`ParserLibrary.Lawful`): the first alternative
that fits is taken, a repetition takes as much as fits, one with separators ends in front of a separator that no item
follows, and a text is parsed only as a whole, an error being the number of bytes in front of the place where nothing
fits.  The readers of a grammar are combinations of such parsers.
-/

namespace NormalGrammar

/-- A parser looks at the front of a text. -/
abbrev Scanner (α : Type) := List Char → Scan α

/-- Every success leaves less text. -/
def Scanner.Advances {α : Type} (p : Scanner α) : Prop := ∀ cs a rest, p cs = .ok (a, rest) → rest.length < cs.length

structure ParserLibrary where
  oneOf : (Char → Bool) → Scanner Char
  takeWhile : (Char → Bool) → Scanner (List Char)
  literal : List Char → Scanner (List Char)
  map : {α β : Type} → (α → β) → Scanner α → Scanner β
  mapIf : {α β : Type} → (α → Option β) → Scanner α → Scanner β
  seq : {α β : Type} → Scanner α → Scanner β → Scanner (α × β)
  choice : {α : Type} → Scanner α → Scanner α → Scanner α
  repeated : {α : Type} → Scanner α → Scanner (List α)
  separated : {α β : Type} → Scanner α → Scanner β → Scanner (List α)
  parse : {α : Type} → Scanner α → String → Except Nat α

namespace ParserLibrary

/-- What a library of parsers is expected to do.  The laws of repetition are about parsers that advance, as others may be
repeated without an end. -/
structure Lawful (L : ParserLibrary) : Prop where
  oneOf_fits : ∀ {p : Char → Bool} {c : Char} {cs : List Char}, p c = true → L.oneOf p (c :: cs) = .ok (c, cs)
  oneOf_fails : ∀ {p : Char → Bool} {cs : List Char}, (∀ c ∈ cs.head?, p c = false) → L.oneOf p cs = .error cs
  takeWhile_fits : ∀ (p : Char → Bool) (cs : List Char), L.takeWhile p cs = .ok (cs.takeWhile p, cs.dropWhile p)
  literal_fits : ∀ text rest : List Char, L.literal text (text ++ rest) = .ok (text, rest)
  literal_fails : ∀ {text cs : List Char}, ¬ text <+: cs → L.literal text cs = .error cs
  map_fits : ∀ {α β : Type} (f : α → β) {p : Scanner α} {cs rest : List Char} {a : α}, p cs = .ok (a, rest) →
    L.map f p cs = .ok (f a, rest)
  map_fails : ∀ {α β : Type} (f : α → β) {p : Scanner α} {cs rest : List Char}, p cs = .error rest →
    L.map f p cs = .error rest
  mapIf_fits : ∀ {α β : Type} {f : α → Option β} {p : Scanner α} {cs rest : List Char} {a : α} {b : β},
    p cs = .ok (a, rest) → f a = some b → L.mapIf f p cs = .ok (b, rest)
  /-- What has no image is not taken. -/
  mapIf_rewinds : ∀ {α β : Type} {f : α → Option β} {p : Scanner α} {cs rest : List Char} {a : α},
    p cs = .ok (a, rest) → f a = none → L.mapIf f p cs = .error cs
  mapIf_fails : ∀ {α β : Type} (f : α → Option β) {p : Scanner α} {cs rest : List Char}, p cs = .error rest →
    L.mapIf f p cs = .error rest
  seq_fits : ∀ {α β : Type} {p : Scanner α} {q : Scanner β} {cs rest last : List Char} {a : α} {b : β},
    p cs = .ok (a, rest) → q rest = .ok (b, last) → L.seq p q cs = .ok ((a, b), last)
  seq_fails_first : ∀ {α β : Type} {p : Scanner α} (q : Scanner β) {cs rest : List Char}, p cs = .error rest →
    L.seq p q cs = .error rest
  seq_fails_second : ∀ {α β : Type} {p : Scanner α} {q : Scanner β} {cs rest last : List Char} {a : α},
    p cs = .ok (a, rest) → q rest = .error last → L.seq p q cs = .error last
  choice_first : ∀ {α : Type} {p : Scanner α} (q : Scanner α) {cs : List Char} {found : α × List Char},
    p cs = .ok found → L.choice p q cs = .ok found
  choice_second : ∀ {α : Type} {p : Scanner α} (q : Scanner α) {cs rest : List Char}, p cs = .error rest →
    L.choice p q cs = q cs
  repeated_fails : ∀ {α : Type} {p : Scanner α} {cs rest : List Char}, p cs = .error rest →
    L.repeated p cs = .error rest
  repeated_ends : ∀ {α : Type} {p : Scanner α} {cs rest last : List Char} {a : α}, p.Advances →
    p cs = .ok (a, rest) → p rest = .error last → L.repeated p cs = .ok ([a], rest)
  repeated_more : ∀ {α : Type} {p : Scanner α} {cs rest last : List Char} {a : α} {as : List α}, p.Advances →
    p cs = .ok (a, rest) → L.repeated p rest = .ok (as, last) → L.repeated p cs = .ok (a :: as, last)
  separated_fails : ∀ {α β : Type} {p : Scanner α} (sep : Scanner β) {cs rest : List Char}, p cs = .error rest →
    L.separated p sep cs = .error rest
  separated_ends : ∀ {α β : Type} {p : Scanner α} {sep : Scanner β} {cs rest last : List Char} {a : α},
    p.Advances → sep.Advances → p cs = .ok (a, rest) → sep rest = .error last → L.separated p sep cs = .ok ([a], rest)
  /-- A separator that no item follows is not taken. -/
  separated_rewinds : ∀ {α β : Type} {p : Scanner α} {sep : Scanner β} {cs rest behind last : List Char} {a : α} {b : β},
    p.Advances → sep.Advances → p cs = .ok (a, rest) → sep rest = .ok (b, behind) → p behind = .error last →
      L.separated p sep cs = .ok ([a], rest)
  separated_more : ∀ {α β : Type} {p : Scanner α} {sep : Scanner β} {cs rest behind last : List Char} {a : α} {b : β}
    {as : List α}, p.Advances → sep.Advances → p cs = .ok (a, rest) → sep rest = .ok (b, behind) →
      L.separated p sep behind = .ok (as, last) → L.separated p sep cs = .ok (a :: as, last)
  parse_whole : ∀ {α : Type} {p : Scanner α} {text : String} {a : α}, p text.toList = .ok (a, []) →
    L.parse p text = .ok a
  /-- What is left over is an error at its first character. -/
  parse_left : ∀ {α : Type} {p : Scanner α} {front : String} {rest : List Char} {a : α}, rest ≠ [] →
    p (front ++ String.ofList rest).toList = .ok (a, rest) →
      L.parse p (front ++ String.ofList rest) = .error front.utf8ByteSize
  parse_fails : ∀ {α : Type} {p : Scanner α} {front : String} {rest : List Char},
    p (front ++ String.ofList rest).toList = .error rest →
      L.parse p (front ++ String.ofList rest) = .error front.utf8ByteSize

variable (L : ParserLibrary)

/-! ### Symbols -/

def blanks : Scanner (List Char) := L.takeWhile Scan.isBlank

/-- What `p` takes, with blanks on both sides. -/
def between {α : Type} (p : Scanner α) : Scanner α := L.map (fun found => found.2.1) (L.seq L.blanks (L.seq p L.blanks))

def symbol : Scanner Symbol :=
  L.map (fun found => Scan.symbolOf found.1 found.2) (L.seq (L.oneOf Char.isAlpha) (L.takeWhile Scan.isNameTail))

def nonterminal : Scanner Nonterminal := L.mapIf Symbol.nonterminal? L.symbol

/-! ### Bodies and lines -/

def emptyBody : Scanner Body := L.map (fun _ => []) (L.choice (L.literal ['ε']) (L.literal Notation.epsilonLetters))

def spacedSymbol : Scanner Symbol := L.map Prod.fst (L.seq L.symbol L.blanks)

def body : Scanner Body := L.between (L.choice L.emptyBody (L.repeated L.spacedSymbol))

def owner : Scanner Nonterminal := L.between L.nonterminal

def arrow : Scanner Unit := L.map (fun _ => ()) (L.choice (L.literal ['→']) (L.literal ['-', '>']))

def bodies : Scanner (List Body) := L.separated L.body (L.literal ['|'])

def production : Scanner (List (Rule Body)) :=
  L.map (fun found => found.2.2.map (Rule.mk found.1)) (L.seq L.owner (L.seq L.arrow L.bodies))

/-! ### Texts -/

def readBody (text : String) : Except Nat Body := L.parse L.body text

/-- Reads the start symbol, then the lines, and reports the text that cannot be read. -/
def readGrammar (start : String) (lines : List String) : Except (String × Nat) Grammar := do
  let S ← (L.parse L.owner start).mapError (Prod.mk start)
  let rules ← lines.mapM fun line => (L.parse L.production line).mapError (Prod.mk line)
  .ok ((Grammar.ofStart S).addAll rules.flatten)

end ParserLibrary

end NormalGrammar
