import NormalGrammar.Reader.ParserLibrary
import NormalGrammar.Proofs.ReadingStops

/-!
# The readers of a lawful library

Whatever library the readers are taken from, they do the same if it is lawful: each of them is the scan of the same name
(`Lawful.body_eq`, `Lawful.owner_eq`, `Lawful.production_eq`), so a grammar is read as `Grammar.read` reads it, and where
this fails the same text is reported with the number of bytes in front of its unread end (`Lawful.readGrammar_eq`).
There is such a library (`lawful_standard`).
-/

namespace NormalGrammar

open Notation

/-- What is done with an error can be done with each of them. -/
private theorem mapM_mapError {α β ε δ : Type} (f : α → Except ε β) (g : ε → δ) (l : List α) :
    l.mapM (fun a => (f a).mapError g) = (l.mapM f).mapError g := by
  induction l with
  | nil => rfl
  | cons a l ih =>
    rw [List.mapM_cons, List.mapM_cons, ih]
    cases f a with
    | error e => rfl
    | ok b =>
      cases l.mapM f with
      | error e => rfl
      | ok m => rfl

namespace ParserLibrary

namespace Lawful

variable {L : ParserLibrary} (h : L.Lawful)
include h

theorem advances_literal {text : List Char} (htext : 0 < text.length) : (L.literal text).Advances := by
  intro cs a rest hcs
  by_cases hprefix : text <+: cs
  · obtain ⟨behind, rfl⟩ := hprefix
    rw [h.literal_fits] at hcs
    cases hcs
    rw [List.length_append]
    omega
  · rw [h.literal_fails hprefix] at hcs
    cases hcs

/-! ### Symbols -/

theorem blanks_fits (cs : List Char) : L.blanks cs = .ok (cs.takeWhile Scan.isBlank, Scan.skipBlanks cs) :=
  h.takeWhile_fits _ cs

theorem between_fits {α : Type} {p : Scanner α} {cs rest : List Char} {a : α}
    (hp : p (Scan.skipBlanks cs) = .ok (a, rest)) : L.between p cs = .ok (a, Scan.skipBlanks rest) :=
  h.map_fits _ (h.seq_fits (h.blanks_fits cs) (h.seq_fits hp (h.blanks_fits rest)))

theorem between_fails {α : Type} {p : Scanner α} {cs rest : List Char}
    (hp : p (Scan.skipBlanks cs) = .error rest) : L.between p cs = .error rest :=
  h.map_fails _ (h.seq_fails_second (h.blanks_fits cs) (h.seq_fails_first _ hp))

theorem symbol_fits {cs rest : List Char} {s : Symbol} (hs : Scan.symbol? cs = some (s, rest)) :
    L.symbol cs = .ok (s, rest) := by
  cases cs with
  | nil => cases hs
  | cons c cs =>
    rw [Scan.symbol?, Option.ite_none_right_eq_some] at hs
    obtain ⟨halpha, hs⟩ := hs
    cases hs
    exact h.map_fits _ (h.seq_fits (h.oneOf_fits halpha) (h.takeWhile_fits _ cs))

theorem symbol_fails {cs : List Char} (hs : Scan.symbol? cs = none) : L.symbol cs = .error cs := by
  refine h.map_fails _ (h.seq_fails_first _ (h.oneOf_fails fun c hc => ?_))
  cases cs with
  | nil => cases hc
  | cons d cs =>
    cases hc
    rw [Scan.symbol?] at hs
    simpa using hs

theorem nonterminal_eq (cs : List Char) : L.nonterminal cs = Scan.nonterminal cs := by
  unfold nonterminal Scan.nonterminal
  cases hs : Scan.symbol? cs with
  | none => exact h.mapIf_fails _ (h.symbol_fails hs)
  | some found =>
    obtain ⟨s, rest⟩ := found
    cases s with
    | terminal t => exact h.mapIf_rewinds (h.symbol_fits hs) rfl
    | nonterminal A => exact h.mapIf_fits (h.symbol_fits hs) rfl

theorem owner_eq (cs : List Char) : L.owner cs = Scan.owner cs := by
  unfold owner Scan.owner
  have hname := h.nonterminal_eq (Scan.skipBlanks cs)
  cases hscan : Scan.nonterminal (Scan.skipBlanks cs) with
  | error rest => exact h.between_fails (hname.trans hscan)
  | ok found => exact h.between_fits (hname.trans hscan)

/-! ### Bodies -/

theorem emptyBody_fits {cs rest : List Char} (hcs : Scan.afterEpsilon? cs = some rest) :
    L.emptyBody cs = .ok ([], rest) := by
  rcases Scan.afterEpsilon?_eq_some.1 hcs with rfl | rfl
  · exact h.map_fits _ (h.choice_first _ (h.literal_fits ['ε'] rest))
  · have hsign : ¬ ['ε'] <+: epsilonLetters ++ rest := by simp [epsilonLetters]
    have hletters := h.literal_fits epsilonLetters rest
    exact h.map_fits _ ((h.choice_second _ (h.literal_fails hsign)).trans hletters)

theorem emptyBody_fails {cs : List Char} (hcs : Scan.afterEpsilon? cs = none) : L.emptyBody cs = .error cs := by
  have hsign : ¬ ['ε'] <+: cs := by
    rintro ⟨rest, rfl⟩
    cases hcs
  have hletters : ¬ epsilonLetters <+: cs := by
    rintro ⟨rest, rfl⟩
    cases hcs
  exact h.map_fails _ ((h.choice_second _ (h.literal_fails hsign)).trans (h.literal_fails hletters))

theorem spacedSymbol_fits {cs rest : List Char} {s : Symbol} (hs : Scan.symbol? cs = some (s, rest)) :
    L.spacedSymbol cs = .ok (s, Scan.skipBlanks rest) :=
  h.map_fits _ (h.seq_fits (h.symbol_fits hs) (h.blanks_fits rest))

theorem spacedSymbol_fails {cs : List Char} (hs : Scan.symbol? cs = none) : L.spacedSymbol cs = .error cs :=
  h.map_fails _ (h.seq_fails_first _ (h.symbol_fails hs))

theorem advances_spacedSymbol : L.spacedSymbol.Advances := by
  intro cs s rest hs
  cases hsymbol : Scan.symbol? cs with
  | none =>
    rw [h.spacedSymbol_fails hsymbol] at hs
    cases hs
  | some found =>
    rw [h.spacedSymbol_fits hsymbol] at hs
    cases hs
    exact Nat.lt_of_le_of_lt (Scan.length_skipBlanks_le _) (Scan.length_of_symbol? hsymbol)

/-- Symbols are taken up to where none follows. -/
theorem repeated_spacedSymbol (cs : List Char) : L.repeated L.spacedSymbol cs =
    match Scan.symbols cs with
    | ([], rest) => .error rest
    | (s :: w, rest) => .ok (s :: w, rest) := by
  fun_induction Scan.symbols cs with
  | case1 cs hnone => exact h.repeated_fails (h.spacedSymbol_fails hnone)
  | case2 cs s rest hsome found ih =>
    have hfirst := h.spacedSymbol_fits hsome
    cases hnext : Scan.symbol? (Scan.skipBlanks rest) with
    | none =>
      have hfound : found = ([], Scan.skipBlanks rest) := Scan.symbols_of_none hnext
      rw [hfound]
      exact h.repeated_ends h.advances_spacedSymbol hfirst (h.spacedSymbol_fails hnext)
    | some next =>
      have hfound : found = _ := Scan.symbols_of_some hnext
      rw [Scan.symbols_of_some hnext] at ih
      rw [hfound]
      exact h.repeated_more h.advances_spacedSymbol hfirst ih

theorem body_eq (cs : List Char) : L.body cs = Scan.body cs := by
  unfold body Scan.body
  cases hepsilon : Scan.afterEpsilon? (Scan.skipBlanks cs) with
  | some rest => exact h.between_fits (h.choice_first _ (h.emptyBody_fits hepsilon))
  | none =>
    have hchoice := (h.choice_second (L.repeated L.spacedSymbol) (h.emptyBody_fails hepsilon)).trans
      (h.repeated_spacedSymbol _)
    have hbehind := Scan.skipBlanks_symbols (Scan.skipBlanks_skipBlanks cs)
    rcases hsymbols : Scan.symbols (Scan.skipBlanks cs) with ⟨_ | ⟨s, w⟩, rest⟩
    · rw [hsymbols] at hchoice
      exact h.between_fails hchoice
    · rw [hsymbols] at hchoice hbehind
      rw [h.between_fits hchoice, hbehind]

/-! ### Lines -/

theorem arrow_fits {cs rest : List Char} (hcs : Scan.arrow cs = .ok rest) : L.arrow cs = .ok ((), rest) := by
  obtain ⟨sign, rfl, hsign⟩ := Scan.arrow_eq_ok.1 hcs
  cases hsign with
  | sign => exact h.map_fits _ (h.choice_first _ (h.literal_fits _ rest))
  | ascii =>
    have hsign : ¬ ['→'] <+: ['-', '>'] ++ rest := by simp
    exact h.map_fits _ ((h.choice_second _ (h.literal_fails hsign)).trans (h.literal_fits _ rest))

theorem arrow_fails {cs rest : List Char} (hcs : Scan.arrow cs = .error rest) : L.arrow cs = .error rest := by
  obtain rfl := Scan.arrow_eq_error hcs
  have hnone : ∀ {sign}, ArrowText sign → ¬ sign <+: cs := by
    rintro sign hsign ⟨rest, rfl⟩
    rw [Scan.arrow_eq_ok.2 ⟨sign, rfl, hsign⟩] at hcs
    cases hcs
  exact h.map_fails _ ((h.choice_second _ (h.literal_fails (hnone .sign))).trans (h.literal_fails (hnone .ascii)))

theorem advances_body : L.body.Advances := by
  intro cs w rest hcs
  exact Scan.length_of_body_lt ((h.body_eq cs).symm.trans hcs)

/-- Bodies are taken up to where no bar with a body behind it follows. -/
theorem bodies_eq (cs : List Char) : L.bodies cs = Scan.bodies cs := by
  have hbar : (L.literal ['|']).Advances := h.advances_literal (by simp)
  induction hn : cs.length using Nat.strongRecOn generalizing cs with
  | _ n ih =>
  have hbody := h.body_eq cs
  rcases hscan : Scan.body cs with rest | ⟨w, rest⟩
  · simp only [Scan.bodies, hscan]
    exact h.separated_fails _ (hbody.trans hscan)
  · rw [hscan] at hbody
    simp only [Scan.bodies, hscan]
    by_cases hprefix : ['|'] <+: rest
    · obtain ⟨behind, rfl⟩ := hprefix
      have hsep := h.literal_fits ['|'] behind
      have hnext := h.body_eq behind
      rcases hmore : Scan.body behind with last | ⟨v, last⟩
      · rw [hmore] at hnext
        simp only [List.singleton_append, Scan.moreBodies_bar_of_error hmore]
        exact h.separated_rewinds h.advances_body hbar hbody hsep hnext
      · have hlength : behind.length < n := by
          have hrest := h.advances_body cs w _ hbody
          rw [List.length_append] at hrest
          omega
        have hfound : Scan.bodies behind = .ok (v :: (Scan.moreBodies last).1, (Scan.moreBodies last).2) := by
          simp only [Scan.bodies, hmore]
        have hothers : L.bodies behind = _ := (ih _ hlength behind rfl).trans hfound
        simp only [List.singleton_append, Scan.moreBodies_bar hfound]
        exact h.separated_more h.advances_body hbar hbody hsep hothers
    · rw [Scan.moreBodies_of_not_bar hprefix]
      exact h.separated_ends h.advances_body hbar hbody (h.literal_fails hprefix)

theorem production_eq (cs : List Char) : L.production cs = Scan.production cs := by
  have howner := h.owner_eq cs
  rcases hscan : Scan.owner cs with rest | ⟨A, rest⟩
  · simp only [Scan.production, hscan, bind, Except.bind]
    exact h.map_fails _ (h.seq_fails_first _ (howner.trans hscan))
  · rw [hscan] at howner
    rcases harrow : Scan.arrow rest with last | behind
    · simp only [Scan.production, hscan, harrow, bind, Except.bind]
      exact h.map_fails _ (h.seq_fails_second howner (h.seq_fails_first _ (h.arrow_fails harrow)))
    · have hbodies := h.bodies_eq behind
      rcases hmore : Scan.bodies behind with last | ⟨ws, last⟩
      · simp only [Scan.production, hscan, harrow, hmore, bind, Except.bind]
        exact h.map_fails _ (h.seq_fails_second howner (h.seq_fails_second (h.arrow_fits harrow) (hbodies.trans hmore)))
      · simp only [Scan.production, hscan, harrow, hmore, bind, Except.bind]
        exact h.map_fits _ (h.seq_fits howner (h.seq_fits (h.arrow_fits harrow) (hbodies.trans hmore)))

/-! ### Texts -/

/-- A text is parsed as it is read, and an error is the place where reading stopped. -/
theorem parse_eq {α : Type} {p : Scanner α} (hp : Scan.StopsViably p) (text : String) :
    L.parse p text = (readAll p text).mapError Misread.offset := by
  have hfront : ∀ {rest}, (p text.toList).complete = .error rest → ∃ front : String, text = front ++ String.ofList rest := by
    intro rest hrest
    obtain ⟨front, hfront, -⟩ := hp _ _ hrest
    exact ⟨String.ofList front, by rw [← String.ofList_append, ← hfront, String.ofList_toList]⟩
  unfold readAll
  rcases hscan : p text.toList with rest | ⟨a, _ | ⟨c, rest⟩⟩
  · obtain ⟨front, rfl⟩ := hfront (congrArg Scan.complete hscan)
    calc L.parse p (front ++ String.ofList rest)
      _ = .error front.utf8ByteSize := h.parse_fails hscan
      _ = .error (Misread.offset ⟨_, rest⟩) := by rw [Misread.offset_eq rfl]
  · exact h.parse_whole hscan
  · obtain ⟨front, rfl⟩ := hfront (congrArg Scan.complete hscan)
    calc L.parse p (front ++ String.ofList (c :: rest))
      _ = .error front.utf8ByteSize := h.parse_left (List.cons_ne_nil c rest) hscan
      _ = .error (Misread.offset ⟨_, c :: rest⟩) := by rw [Misread.offset_eq rfl]

/-- The text that is read is reported with the place. -/
theorem report_eq {α : Type} {p : Scanner α} (hp : Scan.StopsViably p) (text : String) :
    (L.parse p text).mapError (Prod.mk text) = (readAll p text).mapError fun e => (e.text, e.offset) := by
  rw [h.parse_eq hp]
  cases hread : readAll p text with
  | ok a => rfl
  | error e =>
    rw [← text_of_readAll hread]
    rfl

theorem readBody_eq (text : String) : L.readBody text = (Body.read text).mapError Misread.offset := by
  have hbody : L.body = Scan.body := funext h.body_eq
  unfold readBody
  rw [hbody]
  exact h.parse_eq Scan.body_stops text

/-- Every lawful library reads a grammar from the same texts, and otherwise reports the same text and the same place. -/
theorem readGrammar_eq (start : String) (lines : List String) :
    L.readGrammar start lines = (Grammar.read start lines).mapError fun e => (e.text, e.offset) := by
  have howner : L.owner = Scan.owner := funext h.owner_eq
  have hproduction : L.production = Scan.production := funext h.production_eq
  unfold readGrammar Grammar.read
  simp only [howner, hproduction, h.report_eq Scan.owner_stops, h.report_eq Scan.production_stops, mapM_mapError]
  cases readAll Scan.owner start with
  | error e => rfl
  | ok S =>
    cases lines.mapM (readAll Scan.production) with
    | error e => rfl
    | ok rules => rfl

end Lawful

/-! ### A lawful library -/

/-- Takes what `p` takes as long as `p` fits and advances. -/
def repeatedBy {α : Type} (p : Scanner α) (cs : List Char) : Scan (List α) :=
  match p cs with
  | .error rest => .error rest
  | .ok (a, rest) =>
    if _h : rest.length < cs.length then
      match repeatedBy p rest with
      | .ok (as, last) => .ok (a :: as, last)
      | .error _ => .ok ([a], rest)
    else .ok ([a], rest)
termination_by cs.length

/-- Takes what `p` takes, and goes on behind each separator as long as `p` fits there. -/
def separatedBy {α β : Type} (p : Scanner α) (sep : Scanner β) (cs : List Char) : Scan (List α) :=
  match p cs with
  | .error rest => .error rest
  | .ok (a, rest) =>
    match sep rest with
    | .error _ => .ok ([a], rest)
    | .ok (_, behind) =>
      if _h : behind.length < cs.length then
        match separatedBy p sep behind with
        | .ok (as, last) => .ok (a :: as, last)
        | .error _ => .ok ([a], rest)
      else .ok ([a], rest)
termination_by cs.length

def standard : ParserLibrary where
  oneOf p
    | [] => .error []
    | c :: cs => if p c then .ok (c, cs) else .error (c :: cs)
  takeWhile p cs := .ok (cs.takeWhile p, cs.dropWhile p)
  literal text cs := if text <+: cs then .ok (text, cs.drop text.length) else .error cs
  map f p cs :=
    match p cs with
    | .ok (a, rest) => .ok (f a, rest)
    | .error rest => .error rest
  mapIf f p cs :=
    match p cs with
    | .ok (a, rest) =>
      match f a with
      | some b => .ok (b, rest)
      | none => .error cs
    | .error rest => .error rest
  seq p q cs :=
    match p cs with
    | .ok (a, rest) =>
      match q rest with
      | .ok (b, last) => .ok ((a, b), last)
      | .error last => .error last
    | .error rest => .error rest
  choice p q cs :=
    match p cs with
    | .ok found => .ok found
    | .error _ => q cs
  repeated := repeatedBy
  separated := separatedBy
  parse p text := (readAll p text).mapError Misread.offset

theorem repeatedBy_of_error {α : Type} {p : Scanner α} {cs rest : List Char} (h : p cs = .error rest) :
    repeatedBy p cs = .error rest := by
  rw [repeatedBy]
  simp only [h]

theorem separatedBy_of_error {α β : Type} {p : Scanner α} (sep : Scanner β) {cs rest : List Char}
    (h : p cs = .error rest) : separatedBy p sep cs = .error rest := by
  rw [separatedBy]
  simp only [h]

theorem lawful_standard : standard.Lawful where
  oneOf_fits hc := if_pos hc
  oneOf_fails := by
    rintro p (_ | ⟨c, cs⟩) hp
    · rfl
    · exact if_neg (by simp [hp c rfl])
  takeWhile_fits _ _ := rfl
  literal_fits text rest := by
    simp [standard]
  literal_fails htext := if_neg htext
  map_fits _ _ _ _ _ hp := by simp only [standard, hp]
  map_fails _ _ _ _ hp := by simp only [standard, hp]
  mapIf_fits hp hb := by simp only [standard, hp, hb]
  mapIf_rewinds hp hnone := by simp only [standard, hp, hnone]
  mapIf_fails _ _ _ _ hp := by simp only [standard, hp]
  seq_fits hp hq := by simp only [standard, hp, hq]
  seq_fails_first _ _ _ hp := by simp only [standard, hp]
  seq_fails_second hp hq := by simp only [standard, hp, hq]
  choice_first _ _ _ hp := by simp only [standard, hp]
  choice_second _ _ _ hp := by simp only [standard, hp]
  repeated_fails hp := repeatedBy_of_error hp
  repeated_ends hadvances hp hend := by
    show repeatedBy _ _ = _
    rw [repeatedBy]
    simp only [hp, hadvances _ _ _ hp, repeatedBy_of_error hend]
    rfl
  repeated_more hadvances hp hmore := by
    have hmore' : repeatedBy _ _ = _ := hmore
    show repeatedBy _ _ = _
    rw [repeatedBy]
    simp only [hp, hadvances _ _ _ hp, hmore']
    rfl
  separated_fails sep _ _ hp := separatedBy_of_error sep hp
  separated_ends _ _ hp hend := by
    show separatedBy _ _ _ = _
    rw [separatedBy]
    simp only [hp, hend]
  separated_rewinds hadvances hsep hp hbar hend := by
    show separatedBy _ _ _ = _
    have hlength := Nat.lt_trans (hsep _ _ _ hbar) (hadvances _ _ _ hp)
    rw [separatedBy]
    simp only [hp, hbar, hlength, separatedBy_of_error _ hend]
    rfl
  separated_more hadvances hsep hp hbar hmore := by
    have hmore' : separatedBy _ _ _ = _ := hmore
    have hlength := Nat.lt_trans (hsep _ _ _ hbar) (hadvances _ _ _ hp)
    show separatedBy _ _ _ = _
    rw [separatedBy]
    simp only [hp, hbar, hlength, hmore']
    rfl
  parse_whole hp := by
    show (readAll _ _).mapError _ = _
    rw [readAll_eq_ok.2 hp]
    rfl
  parse_left hrest hp := by
    show (readAll _ _).mapError _ = _
    rw [readAll_eq_error hp hrest]
    exact congrArg Except.error (Misread.offset_eq rfl)
  parse_fails hp := by
    show (readAll _ _).mapError _ = _
    unfold readAll
    rw [hp]
    exact congrArg Except.error (Misread.offset_eq rfl)

end ParserLibrary

end NormalGrammar
