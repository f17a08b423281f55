import NormalGrammar.Proofs.ScanLines

/-!
# Bodies in print

A symbol is legible if its name is a way to write it, as it is for every symbol that was read
(`legible_of_symbolText`).  A body of legible symbols is printed as the notation says (`bodyText_text`), unless its
names are all of one character and start with the letters of `epsilon`.  If a name is longer then spaces are printed,
and behind the first letter stands something that is no letter (`second_of_spaced`).
-/

namespace NormalGrammar

namespace Notation

/-! ### Legible symbols -/

/-- The name of the symbol is a way to write it. -/
def Legible (s : Symbol) : Prop := SymbolText s.text.toList s

/-- A symbol is legible if it is what is taken from the front of its name, with nothing left. -/
theorem legible_iff {s : Symbol} : Legible s ↔ Scan.symbol? s.text.toList = some (s, []) := by
  constructor
  · intro h
    have hscan : Scan.symbol? (s.text.toList ++ []) = some (s, []) := Scan.symbol?_append h (by simp)
    rwa [List.append_nil] at hscan
  · intro h
    obtain ⟨name, hname, htext⟩ := Scan.symbol?_sound h
    rw [List.append_nil] at hname
    unfold Legible
    rwa [hname]

instance (s : Symbol) : Decidable (Legible s) := decidable_of_iff' _ legible_iff

theorem legible_of_symbolText {name : List Char} {s : Symbol} (h : SymbolText name s) : Legible s := by
  have hname : s.text.toList = name := by
    cases h <;> exact String.toList_ofList
  unfold Legible
  rwa [hname]

theorem legible_of_symbolsText {cs : List Char} {w : Body} (h : SymbolsText cs w) : ∀ s ∈ w, Legible s := by
  induction h with
  | nil => simp
  | cons first gap rest ih => exact List.forall_mem_cons.2 ⟨legible_of_symbolText first, ih⟩

theorem legible_of_bodyText {cs : List Char} {w : Body} (h : BodyText cs w) : ∀ s ∈ w, Legible s := by
  cases h with
  | sign front back => simp
  | letters front back => simp
  | symbols front text nonempty other back => exact legible_of_symbolsText text

theorem legible_of_bodiesText {cs : List Char} {ws : List Body} (h : BodiesText cs ws) :
    ∀ w ∈ ws, ∀ s ∈ w, Legible s := by
  induction h with
  | one text =>
    intro w hw
    rw [List.mem_singleton.1 hw]
    exact legible_of_bodyText text
  | more text others ih => exact List.forall_mem_cons.2 ⟨legible_of_bodyText text, ih⟩

theorem legible_of_ownerText {cs : List Char} {A : Nonterminal} (h : OwnerText cs A) : Legible (.nonterminal A) := by
  obtain ⟨front, text, back⟩ := h
  exact legible_of_symbolText text

theorem legible_of_productionText {cs : List Char} {rules : List (Rule Body)} (h : ProductionText cs rules) :
    ∀ r ∈ rules, Legible (.nonterminal r.owner) ∧ ∀ s ∈ r.body, Legible s := by
  obtain ⟨owner, between, bodies⟩ := h
  intro r hr
  obtain ⟨w, hw, rfl⟩ := List.mem_map.1 hr
  exact ⟨legible_of_ownerText owner, legible_of_bodiesText bodies w hw⟩

/-! ### Symbols in a row -/

theorem symbolsText_joined {w : Body} (h : ∀ s ∈ w, Legible s) : SymbolsText (w.flatMap fun s => s.text.toList) w := by
  induction w with
  | nil => exact .nil
  | cons s w ih =>
    rw [List.forall_mem_cons] at h
    exact .cons h.1 blanks_nil (ih h.2)

theorem symbolsText_spaced {w : Body} (h : ∀ s ∈ w, Legible s) :
    SymbolsText ([' '].intercalate (w.map fun s => s.text.toList)) w := by
  induction w with
  | nil => exact .nil
  | cons s w ih =>
    rw [List.forall_mem_cons] at h
    cases w with
    | nil =>
      have hlast := SymbolsText.cons h.1 blanks_nil .nil
      simpa using hlast
    | cons t w =>
      have hmore := SymbolsText.cons h.1 blanks_space (ih h.2)
      rw [List.map_cons, List.map_cons, List.intercalate_cons_cons, List.append_assoc]
      exact hmore

private theorem ofChars_nil (c : Char) : Name.ofChars c [] = .ofChar c := rfl

/-- The symbols of a body whose names start with lower-case letters, one letter each, are terminals. -/
theorem prefix_of_joined {letters : List Char} (hlower : ∀ c ∈ letters, c.isLower = true) {w : Body}
    (hw : ∀ s ∈ w, Legible s) (hsingle : ∀ s ∈ w, s.text.length = 1)
    (h : letters <+: w.flatMap fun s => s.text.toList) :
    (letters.map fun c => Symbol.terminal ⟨.ofChar c⟩) <+: w := by
  induction letters generalizing w with
  | nil => exact List.nil_prefix
  | cons c letters ih =>
    cases w with
    | nil => simp at h
    | cons s w =>
      rw [List.forall_mem_cons] at hlower hw hsingle
      obtain ⟨d, tail, hname, -, -, hs⟩ := Scan.symbolText_iff.1 hw.1
      have hlength := hsingle.1
      rw [← String.length_toList, hname, List.length_cons, Nat.add_eq_right, List.length_eq_zero_iff] at hlength
      rw [List.flatMap_cons, hname, hlength, List.singleton_append, List.cons_prefix_cons] at h
      obtain ⟨rfl, hrest⟩ := h
      have hterminal : s = .terminal ⟨.ofChar c⟩ := by
        rw [← hs, hlength, Scan.symbolOf, if_neg (by simp [Scan.not_isUpper_of_isLower hlower.1]), ofChars_nil]
      rw [List.map_cons, hterminal, List.cons_prefix_cons]
      exact ⟨rfl, ih hlower.2 hw.2 hsingle.2 hrest⟩

theorem not_isAlpha_of_nameTail {tail : List Char} (h : NameTail tail) : ∀ c ∈ tail, c.isAlpha = false := by
  intro c hc
  rw [Bool.eq_false_iff]
  intro halpha
  have hnot := Scan.not_isNameTail_of_isAlpha halpha
  rw [Scan.isNameTail_iff.2 (h c hc)] at hnot
  cases hnot

/-- Behind the first letter of symbols in a row with spaces stands no letter. -/
private theorem second_of_spaced {w : Body} (hw : ∀ s ∈ w, Legible s) (hlong : ¬ ∀ s ∈ w, s.text.length = 1) :
    ∃ c d rest, [' '].intercalate (w.map fun s => s.text.toList) = c :: d :: rest ∧ d.isAlpha = false := by
  cases w with
  | nil => simp at hlong
  | cons s w =>
    obtain ⟨c, tail, hname, -, htail, -⟩ := Scan.symbolText_iff.1 (hw s List.mem_cons_self)
    have hnot := not_isAlpha_of_nameTail htail
    cases tail with
    | cons d tail =>
      have hd := hnot d List.mem_cons_self
      cases w with
      | nil => exact ⟨c, d, tail, by simp [hname], hd⟩
      | cons t w =>
        refine ⟨c, d, tail ++ [' '] ++ [' '].intercalate ((t :: w).map fun s => s.text.toList), ?_, hd⟩
        rw [List.map_cons, List.map_cons, List.intercalate_cons_cons, hname]
        rfl
    | nil =>
      cases w with
      | nil =>
        refine absurd (fun t ht => ?_) hlong
        rw [List.mem_singleton.1 ht, ← String.length_toList, hname]
        rfl
      | cons t w =>
        refine ⟨c, ' ', [' '].intercalate ((t :: w).map fun s => s.text.toList), ?_, by decide⟩
        rw [List.map_cons, List.map_cons, List.intercalate_cons_cons, hname]
        rfl

/-! ### Printed bodies -/

/-- The terminals that stand side by side like the letters of `epsilon`. -/
def epsilonBody : Body := epsilonLetters.map fun c => .terminal ⟨.ofChar c⟩

theorem toList_text_joined {w : Body} (hne : w ≠ []) (h : ∀ s ∈ w, s.text.length = 1) :
    w.text.toList = w.flatMap fun s => s.text.toList := by
  have hall : (w.map Symbol.text).all (fun name => name.length == 1) = true := by simpa using h
  rw [Body.text, sequenceText, if_neg (by simpa using hne), if_pos hall, String.toList_join, List.flatMap_map]

theorem toList_text_spaced {w : Body} (h : ¬ ∀ s ∈ w, s.text.length = 1) :
    w.text.toList = [' '].intercalate (w.map fun s => s.text.toList) := by
  have hne : w ≠ [] := by
    rintro rfl
    simp at h
  have hall : ¬ (w.map Symbol.text).all (fun name => name.length == 1) = true := by simpa using h
  rw [Body.text, sequenceText, if_neg (by simpa using hne), if_neg hall, String.toList_intercalate, List.map_map]
  rfl

/-- A body of legible symbols is printed as the notation says, unless letters side by side spell `epsilon`. -/
theorem bodyText_text {w : Body} (hw : ∀ s ∈ w, Legible s)
    (hother : (∀ s ∈ w, s.text.length = 1) → ¬ epsilonBody <+: w) : BodyText w.text.toList w := by
  by_cases hne : w = []
  · subst hne
    exact .sign blanks_nil blanks_nil
  · by_cases hsingle : ∀ s ∈ w, s.text.length = 1
    · have hletters : ¬ epsilonLetters <+: w.flatMap fun s => s.text.toList := fun h =>
        hother hsingle (prefix_of_joined Scan.isLower_of_mem_epsilonLetters hw hsingle h)
      rw [toList_text_joined hne hsingle]
      have hbody := BodyText.symbols blanks_nil (symbolsText_joined hw) hne hletters blanks_nil
      simpa using hbody
    · obtain ⟨c, d, rest, hspaced, hd⟩ := second_of_spaced hw hsingle
      have hletters : ¬ epsilonLetters <+: [' '].intercalate (w.map fun s => s.text.toList) := by
        rw [hspaced]
        intro h
        obtain ⟨-, h⟩ := List.cons_prefix_cons.1 h
        obtain ⟨rfl, -⟩ := List.cons_prefix_cons.1 h
        revert hd
        decide
      rw [toList_text_spaced hsingle]
      have hbody := BodyText.symbols blanks_nil (symbolsText_spaced hw) hne hletters blanks_nil
      simpa using hbody

end Notation

end NormalGrammar
