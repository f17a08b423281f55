import NormalGrammar.Proofs.ScanSymbols

/-!
# Reading bodies and lines

A body is taken up to where it ends, with the letters of `epsilon` never mistaken for symbols (`body_append`,
`body_sound`).  Bodies with bars between them are taken one after the other, so a line is read as a whole if and only if
it is written as the notation says (`production_eq_ok`), and then there is only one way to read it.
-/

namespace NormalGrammar

open Notation

namespace Scan

/-- A text is read as one thing only. -/
private theorem eq_of_whole {α : Type} {scan : Scan α} {a b : α} (ha : scan = .ok (a, [])) (hb : scan = .ok (b, [])) :
    a = b := by
  rw [ha] at hb
  exact (Prod.mk.inj (Except.ok.inj hb)).1

/-! ### Bodies -/

theorem afterEpsilon?_eq_some {cs rest : List Char} :
    afterEpsilon? cs = some rest ↔ cs = 'ε' :: rest ∨ cs = epsilonLetters ++ rest := by
  constructor
  · intro h
    unfold afterEpsilon? at h
    split at h
    · exact Or.inl (congrArg _ (Option.some.inj h))
    · exact Or.inr (congrArg (epsilonLetters ++ ·) (Option.some.inj h))
    · cases h
  · rintro (rfl | rfl) <;> rfl

theorem isLower_of_mem_epsilonLetters : ∀ c ∈ epsilonLetters, c.isLower = true := List.all_eq_true.1 rfl

theorem isAlpha_of_mem_epsilonLetters : ∀ c ∈ epsilonLetters, c.isAlpha = true :=
  fun c hc => isAlpha_iff.2 (Or.inr (isLower_of_mem_epsilonLetters c hc))

/-- The letters of `epsilon` are not made up of symbols and what stands behind them. -/
private theorem not_prefix_append {letters cs rest : List Char} (hletters : ∀ c ∈ letters, c.isAlpha = true)
    (hrest : ∀ c ∈ rest.head?, c.isAlpha = false) (h : ¬ letters <+: cs) : ¬ letters <+: cs ++ rest := by
  intro hprefix
  rcases List.prefix_or_prefix_of_prefix hprefix (List.prefix_append cs rest) with hshort | ⟨t, ht⟩
  · exact h hshort
  · rw [← ht, List.prefix_append_right_inj] at hprefix
    cases t with
    | nil =>
      rw [List.append_nil] at ht
      exact h (ht ▸ List.prefix_refl _)
    | cons c t =>
      obtain ⟨_, rfl⟩ := hprefix
      have halpha := hletters c (ht ▸ by simp)
      rw [hrest c rfl] at halpha
      cases halpha

private theorem not_isAlpha_after {after rest : List Char} (hafter : Blanks after) (hrest : Stops rest) :
    ∀ c ∈ (after ++ rest).head?, c.isAlpha = false := by
  refine not_head_append (fun c hc => ?_) fun c hc => (hrest c hc).2.2
  rcases hafter c hc with rfl | rfl <;> decide

/-- A body is taken up to where it ends. -/
theorem body_append {front rest : List Char} {w : Body} (h : BodyText front w) (hrest : Stops rest) :
    body (front ++ rest) = .ok (w, rest) := by
  cases h with
  | @sign before after hbefore hafter =>
    have hstart : skipBlanks (before ++ 'ε' :: after ++ rest) = 'ε' :: (after ++ rest) := by
      rw [List.append_assoc, skipBlanks_append hbefore]
      rfl
    have hepsilon : afterEpsilon? ('ε' :: (after ++ rest)) = some (after ++ rest) := rfl
    simp only [body, hstart, hepsilon, skipBlanks_append_of_stops hafter hrest]
  | @letters before after hbefore hafter =>
    have hstart : skipBlanks (before ++ (epsilonLetters ++ after) ++ rest) = epsilonLetters ++ (after ++ rest) := by
      rw [List.append_assoc, skipBlanks_append hbefore, List.append_assoc]
      rfl
    have hepsilon : afterEpsilon? (epsilonLetters ++ (after ++ rest)) = some (after ++ rest) := rfl
    simp only [body, hstart, hepsilon, skipBlanks_append_of_stops hafter hrest]
  | @symbols before cs after w hbefore htext hne hother hafter =>
    obtain ⟨c, tail, hcs, halpha⟩ := (head_of_symbolsText htext).resolve_left fun h => hne h.2
    have hfront : before ++ (cs ++ after) ++ rest = before ++ (cs ++ (after ++ rest)) := by
      simp only [List.append_assoc]
    have hstart : skipBlanks (cs ++ (after ++ rest)) = cs ++ (after ++ rest) := by
      refine skipBlanks_of_head fun d hd => ?_
      rw [hcs] at hd
      cases hd
      exact not_isBlank_of_isAlpha halpha
    have hepsilon : afterEpsilon? (cs ++ (after ++ rest)) = none := by
      rw [Option.eq_none_iff_forall_ne_some]
      intro behind hsome
      rcases afterEpsilon?_eq_some.1 hsome with hsign | hletters
      · rw [hcs] at hsign
        obtain rfl : c = 'ε' := (List.cons.inj hsign).1
        revert halpha
        decide
      · refine not_prefix_append isAlpha_of_mem_epsilonLetters (not_isAlpha_after hafter hrest) hother ?_
        exact ⟨behind, hletters.symm⟩
    have hsymbols := symbols_append htext hafter hrest
    rw [hstart] at hsymbols
    obtain ⟨s, v, rfl⟩ := List.exists_cons_of_ne_nil hne
    simp only [body, hfront, skipBlanks_append hbefore, hstart, hepsilon, hsymbols]

/-- What is taken as a body is a text for it. -/
theorem body_sound {cs rest : List Char} {w : Body} (h : body cs = .ok (w, rest)) :
    ∃ front, cs = front ++ rest ∧ BodyText front w := by
  obtain ⟨before, hbefore, hcs⟩ := exists_skipBlanks cs
  unfold body at h
  split at h
  · rename_i behind hepsilon
    cases h
    obtain ⟨after, hafter, hbehind⟩ := exists_skipBlanks behind
    rcases afterEpsilon?_eq_some.1 hepsilon with hsign | hletters
    · refine ⟨before ++ 'ε' :: after, ?_, .sign hbefore hafter⟩
      rw [List.append_assoc, List.cons_append, ← hbehind, ← hsign]
      exact hcs
    · refine ⟨before ++ (epsilonLetters ++ after), ?_, .letters hbefore hafter⟩
      rw [List.append_assoc, List.append_assoc, ← hbehind, ← hletters]
      exact hcs
  · rename_i hepsilon
    obtain ⟨front, hfront, htext⟩ := symbols_sound (skipBlanks cs)
    split at h
    · cases h
    · rename_i s v behind hsymbols
      cases h
      rw [hsymbols] at hfront htext
      have hother : ¬ epsilonLetters <+: front := by
        rintro ⟨t, rfl⟩
        rw [hfront, List.append_assoc, afterEpsilon?_eq_some.2 (Or.inr rfl)] at hepsilon
        cases hepsilon
      have hbody := BodyText.symbols hbefore htext (List.cons_ne_nil _ _) hother blanks_nil
      refine ⟨_, ?_, hbody⟩
      rw [List.append_nil, List.append_assoc, ← hfront]
      exact hcs

/-- A body is never read from nothing. -/
theorem length_of_body_lt {cs rest : List Char} {w : Body} (h : body cs = .ok (w, rest)) : rest.length < cs.length := by
  obtain ⟨front, rfl, htext⟩ := body_sound h
  have hfront : 0 < front.length := by
    rw [List.length_pos_iff]
    cases htext with
    | sign => simp
    | letters => simp [epsilonLetters]
    | @symbols before cs after w hbefore hcs hne =>
      obtain ⟨c, tail, rfl, -⟩ := (head_of_symbolsText hcs).resolve_left fun h => hne h.2
      simp
  rw [List.length_append]
  omega

/-- A body is read as a whole if and only if it is written as the notation says. -/
theorem body_eq_ok {cs : List Char} {w : Body} : body cs = .ok (w, []) ↔ BodyText cs w := by
  constructor
  · intro h
    obtain ⟨front, rfl, htext⟩ := body_sound h
    rwa [List.append_nil]
  · intro h
    have hread := body_append h stops_nil
    rwa [List.append_nil] at hread

/-! ### Lines -/

/-- Behind a bar there are bodies to be read, and they are taken. -/
theorem moreBodies_bar {cs : List Char} {found : List Body × List Char} (h : bodies cs = .ok found) :
    moreBodies ('|' :: cs) = found := by
  unfold bodies at h
  rw [moreBodies]
  split at h
  · rename_i w rest hbody
    cases h
    split
    · rename_i w' rest' hbody'
      rw [hbody] at hbody'
      cases hbody'
      rfl
    · rename_i e hbody'
      rw [hbody] at hbody'
      cases hbody'
  · cases h

theorem moreBodies_bar_of_error {cs rest : List Char} (h : body cs = .error rest) :
    moreBodies ('|' :: cs) = ([], '|' :: cs) := by
  rw [moreBodies]
  split
  · rename_i hbody
    rw [h] at hbody
    cases hbody
  · rfl

theorem moreBodies_of_not_bar {cs : List Char} (h : ¬ ['|'] <+: cs) : moreBodies cs = ([], cs) := by
  unfold moreBodies
  split
  · exact absurd (List.prefix_append ['|'] _) h
  · rfl

private theorem bodies_of_text {cs : List Char} {ws : List Body} (h : BodiesText cs ws) : bodies cs = .ok (ws, []) := by
  induction h with
  | @one cs w text =>
    have hbody := body_append text stops_nil
    rw [List.append_nil] at hbody
    simp only [bodies, hbody, moreBodies]
  | @more cs rest w ws text others ih =>
    have hbody := body_append text (stops_bar rest)
    simp only [bodies, hbody, moreBodies_bar ih]

/-- What is taken behind a body are further bodies, each behind a bar. -/
private theorem moreBodies_sound (cs : List Char) : ∃ front, cs = front ++ (moreBodies cs).2 ∧
    ((front = [] ∧ (moreBodies cs).1 = []) ∨ ∃ text, front = '|' :: text ∧ BodiesText text (moreBodies cs).1) := by
  fun_induction moreBodies cs with
  | case1 cs w rest hbody found ih =>
    obtain ⟨text, rfl, htext⟩ := body_sound hbody
    obtain ⟨front, hfront, hmore⟩ := ih
    refine ⟨'|' :: (text ++ front), ?_, Or.inr ⟨text ++ front, rfl, ?_⟩⟩
    · rw [List.cons_append, List.append_assoc, ← hfront]
    · rcases hmore with ⟨rfl, hnone⟩ | ⟨others, rfl, hothers⟩
      · rw [List.append_nil, hnone]
        exact .one htext
      · exact .more htext hothers
  | case2 cs e hbody => exact ⟨[], rfl, Or.inl ⟨rfl, rfl⟩⟩
  | case3 cs hbar => exact ⟨[], rfl, Or.inl ⟨rfl, rfl⟩⟩

/-- What is taken as bodies is a text for them. -/
theorem bodies_sound {cs rest : List Char} {ws : List Body} (h : bodies cs = .ok (ws, rest)) :
    ∃ front, cs = front ++ rest ∧ BodiesText front ws := by
  unfold bodies at h
  split at h
  · rename_i w behind hbody
    cases h
    obtain ⟨text, rfl, htext⟩ := body_sound hbody
    obtain ⟨front, hfront, hmore⟩ := moreBodies_sound behind
    refine ⟨text ++ front, ?_, ?_⟩
    · rw [List.append_assoc, ← hfront]
    · rcases hmore with ⟨rfl, hnone⟩ | ⟨others, rfl, hothers⟩
      · rw [List.append_nil, hnone]
        exact .one htext
      · exact .more htext hothers
  · cases h

theorem owner_append {front rest : List Char} {A : Nonterminal} (h : OwnerText front A) (hrest : Stops rest) :
    owner (front ++ rest) = .ok (A, rest) := by
  obtain ⟨hbefore, htext, hafter⟩ := h
  rename_i before name after
  have hfront : before ++ (name ++ after) ++ rest = before ++ (name ++ (after ++ rest)) := by
    simp only [List.append_assoc]
  have hstart : skipBlanks (name ++ (after ++ rest)) = name ++ (after ++ rest) := by
    obtain ⟨c, tail, rfl, halpha, -, -⟩ := symbolText_iff.1 htext
    refine skipBlanks_of_head fun d hd => ?_
    cases hd
    exact not_isBlank_of_isAlpha halpha
  have hsymbol : symbol? (name ++ (after ++ rest)) = some (.nonterminal A, after ++ rest) :=
    symbol?_append htext (not_head_append (not_isNameTail_of_blanks hafter) fun c hc => (hrest c hc).2.1)
  simp only [owner, nonterminal, hfront, skipBlanks_append hbefore, hstart, hsymbol,
    skipBlanks_append_of_stops hafter hrest]

theorem owner_sound {cs rest : List Char} {A : Nonterminal} (h : owner cs = .ok (A, rest)) :
    ∃ front, cs = front ++ rest ∧ OwnerText front A := by
  obtain ⟨before, hbefore, hcs⟩ := exists_skipBlanks cs
  unfold owner nonterminal at h
  split at h
  · rename_i B behind hname
    cases h
    obtain ⟨after, hafter, hbehind⟩ := exists_skipBlanks behind
    split at hname
    · rename_i C behind' hsymbol
      cases hname
      obtain ⟨name, hname, htext⟩ := symbol?_sound hsymbol
      refine ⟨_, ?_, .intro hbefore htext hafter⟩
      rw [List.append_assoc, List.append_assoc, ← hbehind, ← hname]
      exact hcs
    · cases hname
  · cases h

theorem arrow_eq_ok {cs rest : List Char} : arrow cs = .ok rest ↔ ∃ sign, cs = sign ++ rest ∧ ArrowText sign := by
  constructor
  · intro h
    unfold arrow at h
    split at h
    · cases h
      exact ⟨_, rfl, .sign⟩
    · cases h
      exact ⟨_, rfl, .ascii⟩
    · cases h
  · rintro ⟨sign, rfl, h⟩
    cases h <;> rfl

theorem owner_eq_ok {cs : List Char} {A : Nonterminal} : owner cs = .ok (A, []) ↔ OwnerText cs A := by
  constructor
  · intro h
    obtain ⟨front, rfl, htext⟩ := owner_sound h
    rwa [List.append_nil]
  · intro h
    have hread := owner_append h stops_nil
    rwa [List.append_nil] at hread

/-- There is at most one way to read an owner. -/
theorem ownerText_unique {cs : List Char} {A B : Nonterminal} (h : OwnerText cs A) (h' : OwnerText cs B) : A = B :=
  eq_of_whole (owner_eq_ok.2 h) (owner_eq_ok.2 h')

/-- What is taken as a line is a text for it. -/
theorem production_sound {cs rest : List Char} {rules : List (Rule Body)} (h : production cs = .ok (rules, rest)) :
    ∃ front, cs = front ++ rest ∧ ProductionText front rules := by
  unfold production at h
  cases howner : owner cs with
  | error e =>
    rw [howner] at h
    cases h
  | ok found =>
    obtain ⟨A, behind⟩ := found
    rw [howner] at h
    cases harrow : arrow behind with
    | error e =>
      simp only [bind, Except.bind, harrow] at h
      cases h
    | ok behind' =>
      simp only [bind, Except.bind, harrow] at h
      cases hbodies : bodies behind' with
      | error e =>
        rw [hbodies] at h
        cases h
      | ok found' =>
        obtain ⟨ws, last⟩ := found'
        rw [hbodies] at h
        cases h
        obtain ⟨front, rfl, hfront⟩ := owner_sound howner
        obtain ⟨sign, rfl, hsign⟩ := arrow_eq_ok.1 harrow
        obtain ⟨text, rfl, htext⟩ := bodies_sound hbodies
        refine ⟨front ++ (sign ++ text), ?_, .intro hfront hsign htext⟩
        simp only [List.append_assoc]

/-- A line is read as a whole if and only if it is written as the notation says. -/
theorem production_eq_ok {cs : List Char} {rules : List (Rule Body)} :
    production cs = .ok (rules, []) ↔ ProductionText cs rules := by
  constructor
  · intro h
    obtain ⟨front, rfl, htext⟩ := production_sound h
    rwa [List.append_nil]
  · rintro ⟨hfront, hsign, hbodies⟩
    rename_i front sign rest A ws
    have howner := owner_append hfront (stops_arrow hsign rest)
    have harrow : arrow (sign ++ rest) = .ok rest := arrow_eq_ok.2 ⟨sign, rfl, hsign⟩
    simp only [production, howner, harrow, bodies_of_text hbodies, bind, Except.bind]

/-- There is at most one way to read a line. -/
theorem productionText_unique {cs : List Char} {rules rules' : List (Rule Body)} (h : ProductionText cs rules)
    (h' : ProductionText cs rules') : rules = rules' :=
  eq_of_whole (production_eq_ok.2 h) (production_eq_ok.2 h')

end Scan

end NormalGrammar
