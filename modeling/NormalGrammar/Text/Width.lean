import NormalGrammar.Text.Ligature
import NormalGrammar.Text.Picture

/-!
# How wide a text is on a screen

A text is as wide as its characters are by themselves, except where several of them are drawn as one: pictures,
ligatures of some scripts, a line break of two characters, and characters behind which a selector asks for another form.
The text is read from its end, since the width of a character depends on what stands behind it.
-/

namespace NormalGrammar.Text

/-- The form in which a selector asks for the character before it. -/
inductive Form
  | text
  | picture
  | fullWidth

/-- What a text begins with, as far as the characters before it can be drawn together with it. -/
inductive Tail
  | closed
  | lineFeed
  | letters (t : LetterTail)
  | picture (t : PictureTail)

namespace Tail

/-- The tail that `c` is by itself. -/
def ofChar (c : Char) : Tail :=
  if c = '\n' then lineFeed
  else if c.toNat ≤ 0xA0 then closed
  else match LetterTail.ofChar? c with
    | some t => letters t
    | none =>
      match PictureTail.ofChar? c with
      | some t => picture t
      | none => closed

/-- The columns that `c` adds before a tail to which it belongs, and the tail that they are together. -/
def extend? : Tail → Char → Option (Int × Tail)
  | closed, _ => none
  | lineFeed, c => if c = '\r' then some (0, closed) else none
  | letters t, c => (t.extend? c).map fun r => (r.1, r.2.elim closed letters)
  | picture t, c => (t.extend? c).map fun r => (r.1, picture r.2)

def isJoinedPicture : Tail → Bool
  | picture t => t.isJoined
  | _ => false

/-- Whether letters stay within reach of those before a selector. -/
def reachesPastSelector : Tail → Bool
  | letters t => t.toleratesMarks
  | _ => false

end Tail

namespace Form

/-- The form that a selector asks for. -/
def ofSelector? (c : Char) : Option Form :=
  if c.toNat = 0xFE0F then some picture
  else if c.toNat = 0xFE0E then some text
  else if c.toNat = 0xFE01 then some fullWidth
  else none

/-- Quotation marks that can be set in a square of their own. -/
def isQuote (c : Char) : Bool := inRanges c [(0x2018, 0x2019), (0x201C, 0x201D)]

/-- What is left of the tail behind a selector.  A picture that is joined to the character before the selector stays
within reach if the selector asks for a picture. -/
def pastSelector (form : Form) (tail : Tail) : Tail :=
  match form with
  | picture => if tail.isJoinedPicture || tail.reachesPastSelector then tail else .closed
  | _ => if tail.reachesPastSelector then tail else .closed

/-- The columns of a character that has the form asked for, and the tail that it is. -/
def draw? (form : Form) (tail : Tail) (c : Char) : Option (Int × Tail) :=
  match form with
  | picture => if hasPictureForm c then some (if tail.isJoinedPicture then 0 else 2, .picture .picture) else none
  | text => if hasNarrowForm c then some (1, .closed) else none
  | fullWidth => if isQuote c then some (2, .closed) else none

end Form

/-- What the characters before a text have to know of it: the form asked for by a selector at its beginning, and the
tail behind that selector. -/
structure Opening where
  form : Option Form
  tail : Tail

namespace Opening

def plain : Opening := ⟨none, .closed⟩

/-- The opening as it is for a character that has not the form asked for. -/
def withoutForm (o : Opening) : Opening :=
  match o.form with
  | none => o
  | some _ => ⟨none, if o.tail.reachesPastSelector then o.tail else .closed⟩

/-- The columns that `c` adds before an opening at which no form is asked for, and the opening of the longer text. -/
def before (o : Opening) (c : Char) : Int × Opening :=
  match Form.ofSelector? c with
  | some form => (0, ⟨some form, form.pastSelector o.tail⟩)
  | none =>
    match o.tail.extend? c with
    | some r => (r.1, ⟨none, r.2⟩)
    | none => (charWidth c, ⟨none, Tail.ofChar c⟩)

/-- The columns that `c` adds before a text with this opening, and the opening of the longer text. -/
def step (o : Opening) (c : Char) : Int × Opening :=
  match o.form.bind fun form => form.draw? o.tail c with
  | some r => (r.1, ⟨none, r.2⟩)
  | none => o.withoutForm.before c

end Opening

/-- The columns of a text and its opening. -/
def widthAndOpening : List Char → Int × Opening
  | [] => (0, .plain)
  | c :: cs =>
    let rest := widthAndOpening cs
    let added := rest.2.step c
    (added.1 + rest.1, added.2)

/-- The number of columns that a text takes. -/
def width (text : String) : Nat := (widthAndOpening text.toList).1.toNat

end NormalGrammar.Text
