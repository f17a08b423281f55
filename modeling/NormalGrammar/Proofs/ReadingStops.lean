import NormalGrammar.Proofs.Notation

/-!
# Where reading stops

Reading stops where nothing fits: behind the blanks in front of a body or an owner, at the place of an arrow, in front
of a bar that no body follows, or behind all that was read.  What stands in front of such a place is always the
beginning of a text that is read as a whole (`body_stops`, `owner_stops`, `production_stops`).  So an error points into
its text, between two characters of it, and never behind a character that already made the text unreadable
(`read_error_viable`).
-/

namespace NormalGrammar

open Notation

namespace Scan

variable {α : Type}

/-- Some text that is read as a whole begins with `front`. -/
def Viable (scan : List Char → Scan α) (front : List Char) : Prop := ∃ more a, scan (front ++ more) = .ok (a, [])

/-- What is left of a text that is not read as a whole stands behind a viable front. -/
def StopsViably (scan : List Char → Scan α) : Prop :=
  ∀ cs rest, (scan cs).complete = .error rest → ∃ front, cs = front ++ rest ∧ Viable scan front

/-- A scan stops behind what it takes or at what does not fit. -/
theorem stopsViably_of {scan : List Char → Scan α}
    (htaken : ∀ cs a rest, scan cs = .ok (a, rest) → ∃ front, cs = front ++ rest ∧ scan front = .ok (a, []))
    (hfailed : ∀ cs rest, scan cs = .error rest → ∃ front, cs = front ++ rest ∧ Viable scan front) :
    StopsViably scan := by
  intro cs rest h
  cases hscan : scan cs with
  | error e =>
    rw [hscan] at h
    cases h
    exact hfailed cs rest hscan
  | ok found =>
    obtain ⟨a, behind⟩ := found
    have hrest : behind = rest := by
      rw [hscan] at h
      cases behind with
      | nil => cases h
      | cons c cs => exact Except.error.inj h
    obtain ⟨front, hfront, hwhole⟩ := htaken cs a behind hscan
    refine ⟨front, hrest ▸ hfront, [], a, ?_⟩
    rwa [List.append_nil]

/-! ### Bodies and owners -/

theorem body_eq_error {cs rest : List Char} (h : body cs = .error rest) :
    ∃ blanks, cs = blanks ++ rest ∧ Blanks blanks := by
  obtain ⟨blanks, hblanks, hcs⟩ := exists_skipBlanks cs
  refine ⟨blanks, ?_, hblanks⟩
  unfold body at h
  split at h
  · cases h
  · obtain ⟨front, hfront, htext⟩ := symbols_sound (skipBlanks cs)
    split at h
    · rename_i behind hsymbols
      cases h
      -- No symbols are found, so nothing but the blanks has been taken.
      rw [hsymbols] at hfront htext
      cases htext
      have hrest : skipBlanks cs = rest := hfront
      rwa [hrest] at hcs
    · cases h

theorem owner_eq_error {cs rest : List Char} (h : owner cs = .error rest) :
    ∃ blanks, cs = blanks ++ rest ∧ Blanks blanks := by
  obtain ⟨blanks, hblanks, hcs⟩ := exists_skipBlanks cs
  refine ⟨blanks, ?_, hblanks⟩
  unfold owner nonterminal at h
  split at h
  · cases h
  · rename_i hname
    cases h
    split at hname
    · cases hname
    · cases hname
      exact hcs

theorem body_stops : StopsViably body := by
  refine stopsViably_of (fun cs w rest h => ?_) fun cs rest h => ?_
  · obtain ⟨front, hfront, htext⟩ := body_sound h
    exact ⟨front, hfront, body_eq_ok.2 htext⟩
  · obtain ⟨blanks, hcs, hblanks⟩ := body_eq_error h
    exact ⟨blanks, hcs, ['ε'], [], body_eq_ok.2 (.sign hblanks blanks_nil)⟩

/-- The letter `S` as an owner. -/
private theorem ownerText_letter {blanks : List Char} (h : Blanks blanks) :
    OwnerText (blanks ++ ['S']) ⟨.ofChars 'S' []⟩ := by
  have htext : SymbolText ['S'] (.nonterminal ⟨.ofChars 'S' []⟩) := .nonterminal (by decide) (by simp [NameTail])
  exact .intro h htext blanks_nil

theorem owner_stops : StopsViably owner := by
  refine stopsViably_of (fun cs A rest h => ?_) fun cs rest h => ?_
  · obtain ⟨front, hfront, htext⟩ := owner_sound h
    exact ⟨front, hfront, owner_eq_ok.2 htext⟩
  · obtain ⟨blanks, hcs, hblanks⟩ := owner_eq_error h
    exact ⟨blanks, hcs, ['S'], _, owner_eq_ok.2 (ownerText_letter hblanks)⟩

/-! ### Lines -/

theorem bodies_eq_error {cs rest : List Char} (h : bodies cs = .error rest) :
    ∃ blanks, cs = blanks ++ rest ∧ Blanks blanks := by
  unfold bodies at h
  split at h
  · cases h
  · rename_i behind hbody
    cases h
    exact body_eq_error hbody

theorem arrow_eq_error {cs rest : List Char} (h : arrow cs = .error rest) : cs = rest := by
  unfold arrow at h
  split at h
  · cases h
  · cases h
  · exact Except.error.inj h

/-- A line fails at its owner, at its arrow or at its first body. -/
theorem production_eq_error {cs rest : List Char} (h : production cs = .error rest) :
    (∃ blanks, cs = blanks ++ rest ∧ Blanks blanks) ∨
    (∃ front A, cs = front ++ rest ∧ OwnerText front A) ∨
    ∃ front A sign blanks, cs = front ++ (sign ++ (blanks ++ rest)) ∧ OwnerText front A ∧ ArrowText sign ∧
      Blanks blanks := by
  unfold production at h
  cases howner : owner cs with
  | error e =>
    rw [howner] at h
    cases h
    exact Or.inl (owner_eq_error howner)
  | ok found =>
    obtain ⟨A, behind⟩ := found
    obtain ⟨front, rfl, hfront⟩ := owner_sound howner
    rw [howner] at h
    cases harrow : arrow behind with
    | error e =>
      simp only [bind, Except.bind, harrow] at h
      cases h
      exact Or.inr (Or.inl ⟨front, A, arrow_eq_error harrow ▸ rfl, hfront⟩)
    | ok behind' =>
      obtain ⟨sign, rfl, hsign⟩ := arrow_eq_ok.1 harrow
      simp only [bind, Except.bind, harrow] at h
      cases hbodies : bodies behind' with
      | error e =>
        rw [hbodies] at h
        cases h
        obtain ⟨blanks, rfl, hblanks⟩ := bodies_eq_error hbodies
        exact Or.inr (Or.inr ⟨front, A, sign, blanks, rfl, hfront, hsign, hblanks⟩)
      | ok found' =>
        rw [hbodies] at h
        cases h

/-- An owner and an arrow are continued by an empty body. -/
private theorem production_empty {front sign blanks : List Char} {A : Nonterminal} (hfront : OwnerText front A)
    (hsign : ArrowText sign) (hblanks : Blanks blanks) :
    production (front ++ (sign ++ (blanks ++ ['ε']))) = .ok ([⟨A, []⟩], []) :=
  production_eq_ok.2 (.intro hfront hsign (.one (.sign hblanks blanks_nil)))

theorem production_stops : StopsViably production := by
  refine stopsViably_of (fun cs rules rest h => ?_) fun cs rest h => ?_
  · obtain ⟨front, hfront, htext⟩ := production_sound h
    exact ⟨front, hfront, production_eq_ok.2 htext⟩
  · rcases production_eq_error h with ⟨blanks, rfl, hblanks⟩ | ⟨front, A, rfl, hfront⟩ |
      ⟨front, A, sign, blanks, rfl, hfront, hsign, hblanks⟩
    · refine ⟨blanks, rfl, ['S', '→', 'ε'], [⟨⟨.ofChars 'S' []⟩, []⟩], ?_⟩
      simpa using production_empty (ownerText_letter hblanks) .sign blanks_nil
    · exact ⟨front, rfl, ['→', 'ε'], _, production_empty hfront .sign blanks_nil⟩
    · refine ⟨front ++ (sign ++ blanks), by simp only [List.append_assoc], ['ε'], [⟨A, []⟩], ?_⟩
      simpa only [List.append_assoc] using production_empty hfront hsign hblanks

end Scan

/-! ### What is reported -/

/-- The place that is reported lies within the text and between two of its characters, and the text in front of it can
be continued to a text that is read. -/
structure Misread.Viable {α : Type} (scan : List Char → Scan α) (m : Misread) : Prop where
  le : m.offset ≤ m.text.utf8ByteSize
  boundary : String.Pos.Raw.IsValid m.text ⟨m.offset⟩
  continued : ∃ front more a, m.text = front ++ String.ofList m.unread ∧ front.utf8ByteSize = m.offset ∧
    readAll scan (front ++ more) = .ok a

/-- The bytes in front of the unread end are those of the text in front of it. -/
theorem Misread.offset_eq {m : Misread} {front : String} (h : m.text = front ++ String.ofList m.unread) :
    m.offset = front.utf8ByteSize := by
  rw [offset, h, String.utf8ByteSize_append, Nat.add_sub_cancel]

theorem Misread.viable_of_readAll {α : Type} {scan : List Char → Scan α} (hscan : Scan.StopsViably scan) {text : String}
    {m : Misread} (h : readAll scan text = .error m) : m.text = text ∧ m.Viable scan := by
  unfold readAll at h
  cases hcomplete : (scan text.toList).complete with
  | ok a =>
    rw [hcomplete] at h
    cases h
  | error rest =>
    rw [hcomplete] at h
    cases h
    obtain ⟨front, hfront, more, a, hmore⟩ := hscan _ _ hcomplete
    have htext : text = String.ofList front ++ String.ofList rest := by
      rw [← String.ofList_append, ← hfront, String.ofList_toList]
    have hoffset := Misread.offset_eq (m := ⟨text, rest⟩) htext
    refine ⟨rfl, ?_, ?_, String.ofList front, String.ofList more, a, htext, hoffset.symm, ?_⟩
    · exact Nat.sub_le _ _
    · refine String.Pos.Raw.isValid_iff_exists_append.2 ⟨String.ofList front, String.ofList rest, htext, ?_⟩
      exact congrArg String.Pos.Raw.mk hoffset
    · rw [readAll_eq_ok, ← String.ofList_append, String.toList_ofList]
      exact hmore

/-- If a text is not read as a body, as a start symbol or as a line, then the error points to a place in this text, and
what stands in front of it is the beginning of a text that is read so.  When a grammar is not read the error is one of
this kind in its start symbol or in one of its lines. -/
theorem read_error_viable :
    (∀ text e, Body.read text = .error e → e.text = text ∧ e.Viable Scan.body) ∧
    (∀ start e, readAll Scan.owner start = .error e → e.text = start ∧ e.Viable Scan.owner) ∧
    (∀ line e, readAll Scan.production line = .error e → e.text = line ∧ e.Viable Scan.production) ∧
    ∀ start lines e, Grammar.read start lines = .error e →
      (e.text = start ∧ e.Viable Scan.owner) ∨ (e.text ∈ lines ∧ e.Viable Scan.production) := by
  refine ⟨fun text e h => Misread.viable_of_readAll Scan.body_stops h,
    fun start e h => Misread.viable_of_readAll Scan.owner_stops h,
    fun line e h => Misread.viable_of_readAll Scan.production_stops h, fun start lines e h => ?_⟩
  rcases Grammar.read_eq_error h with hstart | ⟨-, hlines⟩
  · exact Or.inl (Misread.viable_of_readAll Scan.owner_stops hstart)
  · obtain ⟨front, line, rest, rfl, -, hline⟩ := exists_of_mapM_eq_error hlines
    obtain ⟨htext, hviable⟩ := Misread.viable_of_readAll Scan.production_stops hline
    exact Or.inr ⟨htext ▸ List.mem_append_right _ List.mem_cons_self, hviable⟩

/-- What stands behind the bar is no body, so that the error is behind the eight bytes of `S → ε`. -/
theorem read_error_viable_bar :
    readAll Scan.production "S → ε|é" = .error ⟨"S → ε|é", ['|', 'é']⟩ ∧
    Misread.offset ⟨"S → ε|é", ['|', 'é']⟩ = 8 ∧
    Misread.Viable Scan.production ⟨"S → ε|é", ['|', 'é']⟩ := by
  have hread : readAll Scan.production "S → ε|é" = .error ⟨"S → ε|é", ['|', 'é']⟩ := by decide +kernel
  exact ⟨hread, by decide, (read_error_viable.2.2.1 _ _ hread).2⟩

end NormalGrammar
