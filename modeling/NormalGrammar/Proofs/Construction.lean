import NormalGrammar.Proofs.Outcome
import NormalGrammar.Proofs.Rereading

/-!
# What construction guarantees

Adding rules to a start symbol declares whatever they use, so the one thing that can be wrong with the grammar is a
name that is used as a terminal and as a nonterminal (`Exact.validate_cases`).  In a grammar that was read this cannot
happen: terminals are written with a lower-case letter in front, nonterminals with an upper-case one
(`validate_of_read`).
-/

namespace NormalGrammar

open Notation

/-- No name is a way to write a terminal and a nonterminal. -/
theorem Notation.not_legible_both {name : Name} (ht : Legible (.terminal ⟨name⟩)) :
    ¬ Legible (.nonterminal ⟨name⟩) := by
  intro hA
  obtain ⟨c, tail, hname, -, -, hs⟩ := Scan.symbolText_iff.1 ht
  obtain ⟨d, rest, hname', -, -, hs'⟩ := Scan.symbolText_iff.1 hA
  -- Both are read from the same characters, and the first of them decides on the kind.
  obtain ⟨rfl, rfl⟩ := List.cons.inj (hname.symm.trans hname')
  rw [hs] at hs'
  cases hs'

namespace Grammar

variable {G : Grammar}

/-! ### Names of two kinds -/

/-- The name is used as a terminal and as a nonterminal. -/
def UsesTwice (G : Grammar) (name : Name) : Prop := G.Uses (.terminal ⟨name⟩) ∧ G.Uses (.nonterminal ⟨name⟩)

/-- The only fault of a grammar that declares what it uses is a name of two kinds. -/
theorem Exact.validate_cases (h : G.Exact) : (G.validate = .ok () ∧ ∀ name, ¬ G.UsesTwice name) ∨
    ∃ name, G.UsesTwice name ∧ G.validate = .error (.ambiguous name) := by
  have hstart : G.start ∈ G.nonterminals := (h (.nonterminal G.start)).2 (Or.inl rfl)
  cases hfind : G.ambiguousTerminal? with
  | none =>
    have hunambiguous := ambiguousTerminal?_eq_none.1 hfind
    refine Or.inl ⟨validate_eq_ok.2 ⟨hstart, hunambiguous, fun r hr => ?_, fun r hr s hs => ?_⟩, ?_⟩
    · exact (h (.nonterminal r.owner)).2 (Or.inr ⟨r, hr, Or.inl rfl⟩)
    · exact (h s).2 (Or.inr ⟨r, hr, Or.inr hs⟩)
    · rintro name ⟨ht, hA⟩
      exact hunambiguous name ⟨(h _).2 ht, (h _).2 hA⟩
  | some t =>
    obtain ⟨hterminal, hnonterminal⟩ := of_ambiguousTerminal?_eq_some hfind
    refine Or.inr ⟨t.name, ⟨(h (.terminal t)).1 hterminal, (h (.nonterminal ⟨t.name⟩)).1 hnonterminal⟩, ?_⟩
    simp only [validate, fault?, hstart, ↓reduceIte, hfind]

/-! ### Grammars that were read -/

theorem validate_of_read {start : String} {lines : List String} (h : read start lines = .ok G) :
    G.validate = .ok () := by
  rcases (exact_of_read h).validate_cases with ⟨hvalid, -⟩ | ⟨name, ⟨ht, hA⟩, -⟩
  · exact hvalid
  · exact absurd (legible_of_read h _ hA) (not_legible_both (legible_of_read h _ ht))

/-! ### The start symbol with rules -/

/-- Some body has the name as a terminal. -/
def NamesTerminal (rules : List (Rule Body)) (name : Name) : Prop := ∃ r ∈ rules, .terminal ⟨name⟩ ∈ r.body

/-- The name is that of the start symbol or of an owner, or some body has it as a nonterminal. -/
def NamesNonterminal (S : Nonterminal) (rules : List (Rule Body)) (name : Name) : Prop :=
  ⟨name⟩ = S ∨ ∃ r ∈ rules, ⟨name⟩ = r.owner ∨ .nonterminal ⟨name⟩ ∈ r.body

theorem usesTwice_ofStart_addAll {S : Nonterminal} {rules : List (Rule Body)} {name : Name} :
    ((ofStart S).addAll rules).UsesTwice name ↔ NamesTerminal rules name ∧ NamesNonterminal S rules name := by
  have hstart : (ofStart S).start = S := rfl
  unfold UsesTwice Uses NamesTerminal NamesNonterminal
  simp [hstart]

/-- Rules that are added one after the other to a start symbol, erasing ones among them, give a valid grammar unless
they use a name both as a terminal and as a nonterminal, and then such a name is reported.  What is read is always valid
and has a normal form. -/
theorem valid_or_ambiguous :
    (∀ (S : Nonterminal) (rules : List (Rule Body)),
      (((ofStart S).addAll rules).validate = .ok () ∧
        ∀ name, ¬ (NamesTerminal rules name ∧ NamesNonterminal S rules name)) ∨
      ∃ name, NamesTerminal rules name ∧ NamesNonterminal S rules name ∧
        ((ofStart S).addAll rules).validate = .error (.ambiguous name)) ∧
    ∀ (start : String) (lines : List String) (G : Grammar), read start lines = .ok G →
      G.validate = .ok () ∧ ∃ run N, G.run = .ok run ∧ G.toNormalForm = .ok N := by
  refine ⟨fun S rules => ?_, fun start lines G h => ?_⟩
  · have hcases := (exact_ofStart_addAll S rules).validate_cases
    simp only [usesTwice_ofStart_addAll, and_assoc] at hcases
    exact hcases
  · have hvalid := validate_of_read h
    obtain ⟨N, -, hN⟩ := exists_toNormalForm hvalid
    exact ⟨hvalid, G.passThrough, N, run_eq_passThrough hvalid, hN⟩

/-- Names that differ in the case of a letter only. -/
def sideBySide : Grammar :=
  let S : Nonterminal := ⟨.ofChar 'S'⟩
  let X : Nonterminal := ⟨.ofChars 'X' ['1', '\'']⟩
  let x : Terminal := ⟨.ofChars 'x' ['1', '\'']⟩
  (ofStart S).addAll [⟨S, [.terminal ⟨.ofChar 's'⟩, .nonterminal S]⟩, ⟨S, []⟩, ⟨S, [.nonterminal X]⟩,
    ⟨X, [.terminal x, .nonterminal X]⟩]

/-- A body with `S` as a terminal clashes with the start symbol. -/
theorem valid_or_ambiguous_clash :
    (∃ name, NamesTerminal [⟨⟨.ofChar 'A'⟩, [.terminal ⟨.ofChar 'S'⟩]⟩] name ∧
      NamesNonterminal ⟨.ofChar 'S'⟩ [⟨⟨.ofChar 'A'⟩, [.terminal ⟨.ofChar 'S'⟩]⟩] name ∧
      ((ofStart ⟨.ofChar 'S'⟩).addAll [⟨⟨.ofChar 'A'⟩, [.terminal ⟨.ofChar 'S'⟩]⟩]).validate =
        .error (.ambiguous name)) ∧
    read "S" ["S → sS | ε | X1'", "X1' -> x1' X1'"] = .ok sideBySide ∧
    sideBySide.validate = .ok () ∧ ∃ run N, sideBySide.run = .ok run ∧ sideBySide.toNormalForm = .ok N := by
  constructor
  · refine (valid_or_ambiguous.1 _ _).resolve_left fun h => h.2 (.ofChar 'S') ⟨?_, Or.inl rfl⟩
    exact ⟨_, List.mem_singleton_self _, List.mem_singleton_self _⟩
  · have hread : read "S" ["S → sS | ε | X1'", "X1' -> x1' X1'"] = .ok sideBySide := by decide +kernel
    exact ⟨hread, valid_or_ambiguous.2 _ _ _ hread⟩

end Grammar

end NormalGrammar
