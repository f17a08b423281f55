import Mathlib.Data.List.Forall2
import NormalGrammar.Listing
import NormalGrammar.Proofs.Spelling

/-!
# Lines in print

No text of the notation holds a line feed (`oneLine_of_productionText`), so a text that was put together line by line is
cut into the same lines again (`linesBetween_join`).  The line that a listing has for an owner is a text for the owner
with its bodies, the empty one last (`productionText_line`).
-/

namespace NormalGrammar

open Notation

/-! ### Lines of a text -/

/-- The lines of a text, without the line feeds. -/
def textLines (text : String) : List String := (text.toList.splitOn '\n').map String.ofList

/-- The lines behind the first line `first` up to the next line `last`, without these two. -/
def linesBetween (first last text : String) : List String :=
  (((textLines text).dropWhile fun line => line != first).drop 1).takeWhile fun line => line != last

def OneLine (cs : List Char) : Prop := '\n' ∉ cs

instance (cs : List Char) : Decidable (OneLine cs) := inferInstanceAs (Decidable ('\n' ∉ cs))

theorem OneLine.append {cs ds : List Char} (hcs : OneLine cs) (hds : OneLine ds) : OneLine (cs ++ ds) :=
  List.not_mem_append hcs hds

theorem OneLine.intercalate {sep : List Char} (hsep : OneLine sep) {texts : List (List Char)}
    (htexts : ∀ cs ∈ texts, OneLine cs) : OneLine (sep.intercalate texts) := by
  induction texts with
  | nil => exact List.not_mem_nil
  | cons cs texts ih =>
    rw [List.forall_mem_cons] at htexts
    cases texts with
    | nil =>
      rw [List.intercalate_singleton]
      exact htexts.1
    | cons ds texts =>
      rw [List.intercalate_cons_cons]
      exact (htexts.1.append hsep).append (ih htexts.2)

theorem textLines_join {lines : List String} (h : ∀ line ∈ lines, OneLine line.toList) :
    textLines (String.join (lines.map fun line => line ++ "\n")) = lines ++ [""] := by
  unfold textLines List.splitOn
  rw [String.toList_join, List.flatMap_map]
  induction lines with
  | nil => rfl
  | cons line lines ih =>
    rw [List.forall_mem_cons] at h
    have hline : ∀ c ∈ line.toList, (c == '\n') = false := fun c hc => beq_false_of_ne fun e => h.1 (e ▸ hc)
    have hfeed : (line ++ "\n").toList = line.toList ++ ['\n'] := String.toList_append
    rw [List.flatMap_cons, hfeed, List.append_assoc, List.singleton_append,
      List.splitOnP_append_cons_of_forall_mem hline _ (by decide), List.map_cons, ih h.2, String.ofList_toList]
    rfl

theorem linesBetween_join {before lines after : List String} {first last : String}
    (h : ∀ line ∈ before ++ first :: (lines ++ last :: after), OneLine line.toList) (hfirst : first ∉ before)
    (hlast : last ∉ lines) : linesBetween first last
      (String.join ((before ++ first :: (lines ++ last :: after)).map fun line => line ++ "\n")) = lines := by
  have hbefore : ∀ line ∈ before, (line != first) = true := fun line hline => bne_iff_ne.2 fun e => hfirst (e ▸ hline)
  have hlines : ∀ line ∈ lines, (line != last) = true := fun line hline => bne_iff_ne.2 fun e => hlast (e ▸ hline)
  unfold linesBetween
  rw [textLines_join h, List.append_assoc, List.dropWhile_append_of_pos hbefore, List.cons_append,
    List.dropWhile_cons_of_neg (by simp), List.drop_succ_cons, List.drop_zero, List.append_assoc,
    List.takeWhile_append_of_pos hlines, List.cons_append, List.takeWhile_cons_of_neg (by simp), List.append_nil]

/-! ### Texts of the notation -/

theorem oneLine_of_blanks {cs : List Char} (h : Blanks cs) : OneLine cs := by
  intro hc
  rcases h _ hc with hspace | htab
  · cases hspace
  · cases htab

theorem oneLine_of_symbolText {name : List Char} {s : Symbol} (h : SymbolText name s) : OneLine name := by
  obtain ⟨c, tail, rfl, halpha, htail, -⟩ := Scan.symbolText_iff.1 h
  intro hc
  rcases List.mem_cons.1 hc with rfl | hc
  · revert halpha
    decide
  · rcases htail _ hc with hdigit | hprime
    · revert hdigit
      decide
    · cases hprime

theorem oneLine_of_symbolsText {cs : List Char} {w : Body} (h : SymbolsText cs w) : OneLine cs := by
  induction h with
  | nil => exact List.not_mem_nil
  | cons first gap rest ih => exact (oneLine_of_symbolText first).append ((oneLine_of_blanks gap).append ih)

theorem oneLine_of_bodyText {cs : List Char} {w : Body} (h : BodyText cs w) : OneLine cs := by
  cases h with
  | sign front back =>
    have hsign : OneLine ['ε'] := by decide
    exact (oneLine_of_blanks front).append (hsign.append (oneLine_of_blanks back))
  | letters front back =>
    have hletters : OneLine epsilonLetters := by decide
    exact (oneLine_of_blanks front).append (hletters.append (oneLine_of_blanks back))
  | symbols front text nonempty other back =>
    exact (oneLine_of_blanks front).append ((oneLine_of_symbolsText text).append (oneLine_of_blanks back))

theorem oneLine_of_bodiesText {cs : List Char} {ws : List Body} (h : BodiesText cs ws) : OneLine cs := by
  induction h with
  | one text => exact oneLine_of_bodyText text
  | more text others ih =>
    have hbar : OneLine ['|'] := by decide
    exact (oneLine_of_bodyText text).append (hbar.append ih)

theorem oneLine_of_productionText {cs : List Char} {rules : List (Rule Body)} (h : ProductionText cs rules) :
    OneLine cs := by
  obtain ⟨⟨front, text, back⟩, between, bodies⟩ := h
  have harrow : ∀ {sign}, ArrowText sign → OneLine sign := fun h => by cases h <;> decide
  have howner := (oneLine_of_blanks front).append ((oneLine_of_symbolText text).append (oneLine_of_blanks back))
  exact howner.append ((harrow between).append (oneLine_of_bodiesText bodies))

/-! ### The line of an owner -/

theorem bodyText_between {before cs after : List Char} {w : Body} (hbefore : Blanks before) (h : BodyText cs w)
    (hafter : Blanks after) : BodyText (before ++ (cs ++ after)) w := by
  have hblanks : ∀ {cs ds : List Char}, Blanks cs → Blanks ds → Blanks (cs ++ ds) := fun hcs hds =>
    List.forall_mem_append.2 ⟨hcs, hds⟩
  cases h with
  | sign front back =>
    have hbody := BodyText.sign (hblanks hbefore front) (hblanks back hafter)
    simpa only [List.append_assoc, List.cons_append] using hbody
  | letters front back =>
    have hbody := BodyText.letters (hblanks hbefore front) (hblanks back hafter)
    simpa only [List.append_assoc] using hbody
  | symbols front text nonempty other back =>
    have hbody := BodyText.symbols (hblanks hbefore front) text nonempty other (hblanks back hafter)
    simpa only [List.append_assoc] using hbody

/-- Bodies with bars between them, spaces around the bars and one more space in front. -/
theorem bodiesText_intercalate {texts : List (List Char)} {ws : List Body} (h : List.Forall₂ BodyText texts ws)
    (hne : ws ≠ []) : BodiesText (' ' :: [' ', '|', ' '].intercalate texts) ws := by
  induction h with
  | nil => exact absurd rfl hne
  | @cons cs w texts ws text others ih =>
    cases others with
    | nil =>
      rw [List.intercalate_singleton]
      have hlast := bodyText_between blanks_space text blanks_nil
      rw [List.append_nil] at hlast
      exact .one hlast
    | cons text' others =>
      have hmore := BodiesText.more (bodyText_between blanks_space text blanks_space) (ih (List.cons_ne_nil _ _))
      rw [List.intercalate_cons_cons]
      simpa only [List.append_assoc, List.cons_append, List.nil_append] using hmore

namespace Listing

variable {g : Listing} {A : Nonterminal}

/-- The bodies of `A` in the order in which they are shown. -/
def shown (g : Listing) (A : Nonterminal) : List Body :=
  (g.rules.filter fun r => r.owner = A).map Rule.body ++ if A ∈ g.erasing then [[]] else []

theorem alternatives_eq (g : Listing) (A : Nonterminal) : g.alternatives A = (g.shown A).map Body.text := by
  unfold alternatives shown
  rw [List.map_append, List.map_map]
  split <;> rfl

/-- There is a line for everything that shows a body. -/
theorem mem_owners : A ∈ g.owners ↔ g.shown A ≠ [] := by
  have hfull : (g.rules.filter fun r => r.owner = A).map Rule.body ≠ [] ↔ A ∈ g.rules.map Rule.owner := by
    simp only [ne_eq, List.map_eq_nil_iff, List.filter_eq_nil_iff, decide_eq_true_eq, List.mem_map]
    exact ⟨fun h => by_contra fun hnone => h fun r hr e => hnone ⟨r, hr, e⟩, fun ⟨r, hr, e⟩ h => h r hr e⟩
  unfold owners shown
  rw [List.mem_mergeSort, OrderedSet.mem_toList, OrderedSet.mem_ofList, List.mem_append, ← hfull]
  by_cases herasing : A ∈ g.erasing
  · simp [herasing]
  · simp [herasing]

/-- The line of `A` without the line feed at its end. -/
def lineText (g : Listing) (A : Nonterminal) : String :=
  "  " ++ A.text ++ " → " ++ " | ".intercalate (g.alternatives A)

theorem productionText_line (hA : Legible (.nonterminal A)) (hne : g.shown A ≠ [])
    (hshown : ∀ w ∈ g.shown A, BodyText w.text.toList w) :
    ProductionText (g.lineText A).toList ((g.shown A).map (Rule.mk A)) := by
  have htexts : List.Forall₂ BodyText ((g.shown A).map fun w => w.text.toList) (g.shown A) := by
    rw [List.forall₂_map_left_iff, List.forall₂_same]
    exact hshown
  have hfront : Blanks "  ".toList := by simp [Blanks]
  have howner := OwnerText.intro hfront hA blanks_space
  have hline := ProductionText.intro howner .sign (bodiesText_intercalate htexts hne)
  have htext : (g.lineText A).toList = ("  ".toList ++ (A.text.toList ++ [' '])) ++
      (['→'] ++ ' ' :: [' ', '|', ' '].intercalate ((g.shown A).map fun w => w.text.toList)) := by
    unfold lineText
    simp only [String.toList_append, String.toList_intercalate, alternatives_eq, List.map_map, List.append_assoc]
    rfl
  rw [htext]
  exact hline

/-! ### The text of a listing -/

/-- The nonterminals as the heading has them. -/
def nonterminalsText (g : Listing) : String :=
  braced ((g.nonterminals.mergeSort (nonterminalLe g.start)).map Nonterminal.text)

/-- The terminals as the heading has them. -/
def terminalsText (g : Listing) : String := braced ((g.terminals.mergeSort terminalLe).map Terminal.text)

/-- The heading without the line feed at its end. -/
def headingText (g : Listing) : String :=
  "G = (" ++ (g.nonterminalsText ++ (", " ++ (g.terminalsText ++ (", P, " ++ (g.start.text ++ ")")))))

theorem text_eq (g : Listing) : g.text = String.join (([g.headingText, ""] ++ "P = \x7b" ::
    (g.owners.map g.lineText ++ "\x7d" :: [])).map fun line => line ++ "\n") := by
  have hheading : g.heading = g.headingText ++ "\n" := by
    rw [← String.toList_inj]
    simp [heading, headingText, nonterminalsText, terminalsText, toString, String.toList_append]
  unfold text
  rw [hheading, ← String.toList_inj]
  simp [String.toList_append, String.toList_join, List.flatMap_map, line, lineText]

private theorem oneLine_braced {texts : List String} (h : ∀ text ∈ texts, OneLine text.toList) :
    OneLine (braced texts).toList := by
  have hopen : OneLine "\x7b".toList := by decide
  have hcomma : OneLine ", ".toList := by decide
  have hclose : OneLine "\x7d".toList := by decide
  unfold braced commaSeparated
  rw [String.toList_append, String.toList_append, String.toList_intercalate]
  exact (hopen.append (hcomma.intercalate (List.forall_mem_map.2 h))).append hclose

theorem oneLine_headingText (hnonterminals : ∀ A ∈ g.nonterminals, Legible (.nonterminal A))
    (hterminals : ∀ t ∈ g.terminals, Legible (.terminal t)) (hstart : Legible (.nonterminal g.start)) :
    OneLine g.headingText.toList := by
  have hleft : OneLine g.nonterminalsText.toList := oneLine_braced <| List.forall_mem_map.2 fun A hA =>
    oneLine_of_symbolText (hnonterminals A (List.mem_mergeSort.1 hA))
  have hright : OneLine g.terminalsText.toList := oneLine_braced <| List.forall_mem_map.2 fun t ht =>
    oneLine_of_symbolText (hterminals t (List.mem_mergeSort.1 ht))
  have hfront : OneLine "G = (".toList := by decide
  have hcomma : OneLine ", ".toList := by decide
  have hrules : OneLine ", P, ".toList := by decide
  have hend : OneLine ")".toList := by decide
  unfold headingText
  simp only [String.toList_append]
  exact hfront.append <| hleft.append <| hcomma.append <| hright.append <| hrules.append <|
    (oneLine_of_symbolText hstart).append hend

/-- Between its braces the text has the lines of the owners. -/
theorem linesBetween_text (hheading : OneLine g.headingText.toList)
    (hlines : ∀ A ∈ g.owners, OneLine (g.lineText A).toList) :
    linesBetween "P = \x7b" "\x7d" g.text = g.owners.map g.lineText := by
  have hhead : g.headingText ≠ "P = \x7b" := by
    intro h
    have hchars := congrArg String.toList h
    unfold headingText at hchars
    rw [String.toList_append] at hchars
    cases hchars
  have hline : ∀ A, g.lineText A ≠ "\x7d" := by
    intro A h
    have hchars := congrArg String.toList h
    unfold lineText at hchars
    rw [String.append_assoc, String.append_assoc, String.toList_append] at hchars
    cases hchars
  rw [text_eq]
  refine linesBetween_join ?_ ?_ ?_
  · simp only [List.cons_append, List.nil_append, List.forall_mem_cons, List.forall_mem_append, List.forall_mem_map]
    exact ⟨hheading, by decide, by decide, hlines, by decide, by simp⟩
  · simp only [List.mem_cons, List.not_mem_nil, or_false, not_or]
    exact ⟨hhead.symm, by decide⟩
  · intro h
    obtain ⟨A, -, hA⟩ := List.mem_map.1 h
    exact hline A hA

end Listing

end NormalGrammar
