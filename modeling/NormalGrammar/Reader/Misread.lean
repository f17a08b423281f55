/-!
# Where a text stops making sense

A `Misread` holds a text and the end of it that could not be read.  Its reason shows the text with a caret below the
first character that was not read, at a distance that counts bytes, as a parser reports it (`ParserLibrary.Lawful`).
When the text has several lines only the first is shown, and the caret is placed by characters if the character above it
is an ASCII one.
-/

namespace NormalGrammar

structure Misread where
  text : String
  unread : List Char
  deriving DecidableEq

namespace Misread

/-- The number of bytes in front of the unread end. -/
def offset (m : Misread) : Nat := m.text.utf8ByteSize - (String.ofList m.unread).utf8ByteSize

/-- The number of characters in front of the unread end. -/
def charOffset (m : Misread) : Nat := m.text.length - m.unread.length

private def isAscii (c : Char) : Bool := c.val < 128

/-- The distance of the caret from the left border when only the first line is shown. -/
def lineOffset (m : Misread) : Nat :=
  match m.unread with
  | c :: _ => if isAscii c then m.charOffset else m.offset
  | [] => m.charOffset

def firstLine (m : Misread) : String := String.ofList (m.text.toList.takeWhile fun c => c != '\n')

def caret (distance : Nat) : String := "".pushn ' ' distance ++ "^\n"

def reason (m : Misread) : String :=
  if m.text.toList.contains '\n' then
    s!"parse error at line 1, column {m.lineOffset + 1}\n  |\n1 | {m.firstLine}\n  | {caret m.lineOffset}"
  else
    s!"{m.text}\n{caret m.offset}"

def message (m : Misread) : String := s!"cannot read production \"{m.text}\": {m.reason}"

end Misread

end NormalGrammar
