import NormalGrammar.Proofs.Trim

/-!
# Declared and used symbols

A grammar uses its start symbol and what its rules mention, and it is exact if it declares just these symbols.  Adding
rules one after the other to a start symbol gives an exact grammar (`exact_ofStart_addAll`), and so does a run
(`result_exact`).  An exact grammar is determined by its start symbol and its rules (`Exact.equiv_iff`).
-/

namespace NormalGrammar

namespace Grammar

variable {G H : Grammar} {s : Symbol}

/-- The symbol is the start symbol, or a rule is owned by it or has it in its body. -/
def Uses (G : Grammar) (s : Symbol) : Prop :=
  s = .nonterminal G.start ∨ ∃ r ∈ G.productions, s = .nonterminal r.owner ∨ s ∈ r.body

/-- The grammar declares exactly the symbols that it uses. -/
def Exact (G : Grammar) : Prop := ∀ s, G.DeclaresSymbol s ↔ G.Uses s

theorem uses_congr (hstart : H.start = G.start) (hrules : H.productions.SameElements G.productions) :
    H.Uses s ↔ G.Uses s := by
  unfold Uses
  rw [hstart]
  simp only [hrules _]

/-- A grammar with the start symbol and the rules of an exact one is the same if and only if it is exact too. -/
theorem Exact.equiv_iff (hH : H.Exact) (hstart : H.start = G.start)
    (hrules : H.productions.SameElements G.productions) : H ≈ G ↔ G.Exact := by
  constructor
  · intro h s
    rw [← uses_congr hstart hrules, ← hH s]
    cases s with
    | terminal t => exact (h.terminals t).symm
    | nonterminal A => exact (h.nonterminals A).symm
  · intro hG
    have hdeclared : ∀ s, H.DeclaresSymbol s ↔ G.DeclaresSymbol s := fun s =>
      (hH s).trans ((uses_congr hstart hrules).trans (hG s).symm)
    exact ⟨hstart, fun A => hdeclared (.nonterminal A), fun t => hdeclared (.terminal t), hrules⟩

/-! ### Adding rules -/

theorem declares_add {r : Rule Body} :
    (G.add r).DeclaresSymbol s ↔ G.DeclaresSymbol s ∨ s = .nonterminal r.owner ∨ s ∈ r.body := by
  cases s with
  | terminal t => simp [DeclaresSymbol, add]
  | nonterminal A =>
    simp only [DeclaresSymbol, add, OrderedSet.mem_insert, OrderedSet.mem_insertAll, Body.mem_nonterminals,
      Symbol.nonterminal.injEq]
    rw [or_assoc, or_comm (a := A = r.owner)]

@[simp] theorem addAll_start (G : Grammar) (rules : List (Rule Body)) : (G.addAll rules).start = G.start := by
  induction rules generalizing G with
  | nil => rfl
  | cons r rules ih => exact ih (G.add r)

theorem addAll_productions (G : Grammar) (rules : List (Rule Body)) :
    (G.addAll rules).productions = G.productions.insertAll rules := by
  induction rules generalizing G with
  | nil => rfl
  | cons r rules ih => exact ih (G.add r)

theorem declares_addAll {rules : List (Rule Body)} : (G.addAll rules).DeclaresSymbol s ↔
    G.DeclaresSymbol s ∨ ∃ r ∈ rules, s = .nonterminal r.owner ∨ s ∈ r.body := by
  induction rules generalizing G with
  | nil => simp [addAll]
  | cons r rules ih =>
    have hcons : G.addAll (r :: rules) = (G.add r).addAll rules := rfl
    rw [hcons, ih, declares_add, or_assoc]
    simp only [List.mem_cons, exists_eq_or_imp]

@[simp] theorem mem_ofStart_addAll {S : Nonterminal} {rules : List (Rule Body)} {r : Rule Body} :
    r ∈ ((ofStart S).addAll rules).productions ↔ r ∈ rules := by
  rw [addAll_productions]
  exact OrderedSet.mem_ofList

theorem exact_ofStart_addAll (S : Nonterminal) (rules : List (Rule Body)) : ((ofStart S).addAll rules).Exact := by
  intro s
  have hfirst : (ofStart S).DeclaresSymbol s ↔ s = .nonterminal S := by
    cases s with
    | terminal t => simp [DeclaresSymbol, ofStart]
    | nonterminal A => simp [DeclaresSymbol, ofStart]
  unfold Uses
  simp only [declares_addAll, hfirst, addAll_start, mem_ofStart_addAll]
  exact Iff.rfl

/-! ### Results of runs -/

/-- Everything that a trim grammar declares is used. -/
theorem Trim.exact (hG : G.Trim) (hvalid : G.Valid) : G.Exact := by
  intro s
  constructor
  · intro hs
    cases s with
    | terminal t =>
      obtain ⟨r, hr, hmem⟩ := hG.used t hs
      exact Or.inr ⟨r, hr, Or.inr hmem⟩
    | nonterminal A =>
      cases hG.accessible A hs with
      | refl => exact Or.inl rfl
      | tail _ hstep =>
        obtain ⟨w, hw, hmem⟩ := hstep
        exact Or.inr ⟨_, hw, Or.inr hmem⟩
  · rintro (rfl | ⟨r, hr, rfl | hs⟩)
    · exact hvalid.start
    · exact hvalid.owner r hr
    · exact hvalid.body r hr s hs

theorem result_exact (hG : G.Valid) : G.passThrough.result.Exact := (result_trim hG).exact (result_valid hG)

end Grammar

end NormalGrammar
