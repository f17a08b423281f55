import NormalGrammar.Text.CharWidth

/-!
# Letters drawn as one

In some scripts a sequence of letters is drawn as one sign.  A text is read from its end, so a sequence is known by the
letters that it ends with, and the letters before them are met later.  Joiners and marks that ask for a variant may
stand between the letters of most sequences.
-/

namespace NormalGrammar.Text

/-- Characters that take no column and yet keep the Arabic letters around them from joining. -/
def interruptingRanges : List CodeRange := [
  (0x605, 0x605), (0x890, 0x891), (0x8E2, 0x8E2), (0x9BE, 0x9BE), (0x9D7, 0x9D7), (0xB3E, 0xB3E), (0xB57, 0xB57),
  (0xBBE, 0xBBE), (0xBD7, 0xBD7), (0xCC0, 0xCC0), (0xCC2, 0xCC2), (0xCC7, 0xCC8), (0xCCA, 0xCCB), (0xCD5, 0xCD6),
  (0xD3E, 0xD3E), (0xD4E, 0xD4E), (0xD57, 0xD57), (0xDCF, 0xDCF), (0xDDF, 0xDDF), (0x1160, 0x11FF), (0x1715, 0x1715),
  (0x1734, 0x1734), (0x180E, 0x180E), (0x1B35, 0x1B35), (0x1B3B, 0x1B3B), (0x1B3D, 0x1B3D), (0x1B43, 0x1B44),
  (0x1BAA, 0x1BAA), (0x1BF2, 0x1BF3), (0x200C, 0x200D), (0x2065, 0x2069), (0x302E, 0x302F), (0x3164, 0x3164),
  (0xA8FA, 0xA8FA), (0xA953, 0xA953), (0xA9C0, 0xA9C0), (0xD7B0, 0xD7C6), (0xD7CB, 0xD7FB), (0xFF9E, 0xFFA0),
  (0xFFF0, 0xFFF8), (0x111C0, 0x111C0), (0x111C2, 0x111C3), (0x11235, 0x11235), (0x1133E, 0x1133E),
  (0x1134D, 0x1134D), (0x11357, 0x11357), (0x113B8, 0x113B8), (0x113C2, 0x113C2), (0x113C5, 0x113C5),
  (0x113C7, 0x113C9), (0x113CF, 0x113CF), (0x113D1, 0x113D1), (0x114B0, 0x114B0), (0x114BD, 0x114BD),
  (0x115AF, 0x115AF), (0x116B6, 0x116B6), (0x11930, 0x11930), (0x1193D, 0x1193D), (0x1193F, 0x1193F),
  (0x11941, 0x11941), (0x11A84, 0x11A89), (0x11D46, 0x11D46), (0x11F02, 0x11F02), (0x11F41, 0x11F41),
  (0x16FF0, 0x16FF1), (0x1D165, 0x1D166), (0x1D16D, 0x1D172), (0xE0000, 0xE0000), (0xE0002, 0xE001F),
  (0xE0080, 0xE00FF), (0xE01F0, 0xE0FFF)]

/-- Marks that ask for a variant of the character before them, and others that are not shown. -/
def isVariantMark (c : Char) : Bool :=
  inRanges c [
    (0x34F, 0x34F), (0x17B4, 0x17B5), (0x180B, 0x180D), (0x180F, 0x180F), (0xFE00, 0xFE0F), (0xE0100, 0xE01EF)]

def isAlef (c : Char) : Bool :=
  inRanges c [
    (0x622, 0x623), (0x625, 0x625), (0x627, 0x627), (0x671, 0x673), (0x675, 0x675), (0x773, 0x774), (0x870, 0x882)]

def isLam (c : Char) : Bool :=
  inRanges c [
    (0x644, 0x644), (0x6B5, 0x6B8), (0x76A, 0x76A), (0x8A6, 0x8A6), (0x8C7, 0x8C7)]

/-- Marks on an Arabic letter that leave it joined to the next one. -/
def isJoiningMark (c : Char) : Bool := charWidth c == 0 && !inRanges c interruptingRanges

/-- Khmer letters that are set below the letter before them when U+17D2 calls for it, without a column of their own. -/
def isSubscriptLetter (c : Char) : Bool :=
  inRanges c [
    (0x1780, 0x1782), (0x1784, 0x1787), (0x1789, 0x178C), (0x178E, 0x1793), (0x1795, 0x1798), (0x179B, 0x179D),
    (0x17A0, 0x17A0), (0x17A2, 0x17A2), (0x17A7, 0x17A7), (0x17AB, 0x17AC), (0x17AF, 0x17AF)]

def isTifinaghConsonant (c : Char) : Bool := inRanges c [(0x2D31, 0x2D65), (0x2D6F, 0x2D6F)]

/-- Lisu tone letters that can be the first of two. -/
def isFirstTone (c : Char) : Bool := inRanges c [(0xA4F8, 0xA4FB)]

/-- Lisu tone letters that can be the second of two. -/
def isSecondTone (c : Char) : Bool := inRanges c [(0xA4FC, 0xA4FD)]

/-- What a text begins with, if letters before it can be drawn together with it.  The flag of a letter says that a
joiner stands before it. -/
inductive LetterTail
  /-- Arabic alef -/
  | alef
  /-- Hebrew lamed -/
  | lamed (joined : Bool)
  /-- Khmer letter with a subscript form -/
  | subscript
  /-- Buginese ya -/
  | ya (joined : Bool)
  /-- Buginese vowel sign i, a joiner and ya -/
  | iYa
  /-- Tifinagh consonant -/
  | consonant (joined : Bool)
  /-- Tifinagh consonant joiner and a consonant -/
  | joinedConsonant
  /-- Lisu tone letter -/
  | tone
  /-- Old Turkic letter i -/
  | orkhonI (joined : Bool)
  /-- Kirat Rai vowel e -/
  | vowelE
  /-- Kirat Rai vowel ai -/
  | vowelAi

namespace LetterTail

/-- The tail that `c` is by itself. -/
def ofChar? (c : Char) : Option LetterTail :=
  if isAlef c then some alef
  else if c.toNat = 0x5DC then some (lamed false)
  else if isSubscriptLetter c then some subscript
  else if c.toNat = 0x1A10 then some (ya false)
  else if isTifinaghConsonant c then some (consonant false)
  else if isSecondTone c then some tone
  else if c.toNat = 0x10C03 then some (orkhonI false)
  else if c.toNat = 0x16D67 then some vowelE
  else if c.toNat = 0x16D68 then some vowelAi
  else none

/-- Whether marks that ask for a variant may stand before the tail. -/
def toleratesMarks : LetterTail → Bool
  | vowelE => false
  | vowelAi => false
  | _ => true

/-- The tail with a joiner before it, where joiners may stand there. -/
def join? : LetterTail → Option LetterTail
  | alef => none
  | lamed _ => some (lamed true)
  | subscript => some subscript
  | ya _ => some (ya true)
  | iYa => some iYa
  | consonant _ => some (consonant true)
  | joinedConsonant => some joinedConsonant
  | tone => some tone
  | orkhonI _ => some (orkhonI true)
  | vowelE => none
  | vowelAi => none

/-- The columns that a letter adds before a tail that it is drawn together with, and the tail that they are together,
if there is more to come.  The columns are negative where the letters make a sign narrower than the tail alone. -/
def ligate? : LetterTail → Char → Option (Int × Option LetterTail)
  | alef, c =>
    if isLam c then some (0, none)
    else if isJoiningMark c then some (0, some alef)
    else none
  -- an alef joined to the lamed
  | lamed joined, c => if joined && c.toNat == 0x5D0 then some (0, none) else none
  -- the sign that calls for a subscript
  | subscript, c => if c.toNat = 0x17D2 then some (-1, none) else none
  -- the vowel sign of an `a` that is joined to the ya, then the `a`
  | ya joined, c => if joined && c.toNat == 0x1A17 then some (0, some iYa) else none
  | iYa, c => if c.toNat = 0x1A15 then some (0, none) else none
  -- the visible consonant joiner takes a column unless a consonant stands before it
  | consonant joined, c =>
    if c.toNat = 0x2D7F then some (1, some joinedConsonant)
    else if joined && isTifinaghConsonant c then some (0, none)
    else none
  | joinedConsonant, c => if isTifinaghConsonant c then some (-1, none) else none
  | tone, c => if isFirstTone c then some (0, none) else none
  | orkhonI joined, c => if joined && c.toNat == 0x10C32 then some (0, none) else none
  -- two vowels e are ai, aa and e are o, and aa and ai or o and e are au
  | vowelE, c =>
    if c.toNat = 0x16D63 || c.toNat = 0x16D69 then some (0, none)
    else if c.toNat = 0x16D67 then some (0, some vowelAi)
    else if c.toNat = 0x16D68 then some (1, some vowelE)
    else none
  | vowelAi, c => if c.toNat = 0x16D63 then some (0, none) else none

/-- The columns that `c` adds before a tail to which it belongs, and the tail that they are together. -/
def extend? (t : LetterTail) (c : Char) : Option (Int × Option LetterTail) :=
  if isJoiner c then t.join?.map fun u => (0, some u)
  else if t.toleratesMarks && isVariantMark c then some (0, some t)
  else t.ligate? c

end LetterTail

end NormalGrammar.Text
