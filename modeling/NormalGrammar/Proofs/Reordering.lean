import Mathlib.Data.List.Forall2
import NormalGrammar.Proofs.Stability

/-!
# Stages and the order of insertion

Stages go through sets in the order of insertion and read some of them while they grow.  What they find is described
without that order, so each of the first four stages keeps equivalent grammars equivalent (`Equivalent.withoutErasing`
and so on), and so does the decision whether inaccessible symbols are removed once more.  Hence runs over equivalent
grammars have the same stages (`Equivalent.stages`) and equivalent grammars up to binarization
(`Equivalent.beforeBinarization`).
-/

namespace NormalGrammar

namespace Grammar

variable {G H : Grammar}

namespace Equivalent

/-! ### What is described without order -/

theorem declares (h : G ≈ H) {s : Symbol} : G.DeclaresSymbol s ↔ H.DeclaresSymbol s := by
  cases s with
  | terminal t => exact h.terminals t
  | nonterminal A => exact h.nonterminals A

theorem valid (h : G ≈ H) (hG : G.Valid) : H.Valid where
  start := by
    rw [← h.start]
    exact (h.nonterminals _).1 hG.start
  unambiguous := by
    rintro name ⟨hterminal, hnonterminal⟩
    exact hG.unambiguous name ⟨(h.terminals _).2 hterminal, (h.nonterminals _).2 hnonterminal⟩
  owner := fun r hr => (h.nonterminals _).1 (hG.owner r ((h.productions r).2 hr))
  body := fun r hr s hs => h.declares.1 (hG.body r ((h.productions r).2 hr) s hs)

theorem generates (h : G ≈ H) {A : Nonterminal} {x : Word} (hx : G.Generates A x) : H.Generates A x :=
  hx.mono fun r hr => (h.productions r).1 hr

theorem reaches (h : G ≈ H) {A B : Nonterminal} (hreach : G.Reaches A B) : H.Reaches A B :=
  hreach.mono fun r hr => (h.productions r).1 hr

theorem unitReaches (h : G ≈ H) {A B : Nonterminal} (hreach : G.UnitReaches A B) : H.UnitReaches A B := by
  have hstep : ∀ C D, G.UnitStep C D → H.UnitStep C D := fun _ _ hstep => (h.productions _).1 hstep
  exact Relation.ReflTransGen.mono hstep A B hreach

/-! ### Stages -/

private theorem rule_withoutErasing (h : G ≈ H) {r : Rule Body} (hr : r ∈ G.withoutErasing.productions) :
    r ∈ H.withoutErasing.productions := by
  rcases mem_withoutErasing.1 hr with ⟨hne, w, hw, hvariant⟩ | ⟨rfl, hempty⟩
  · have hnullable : ∀ A ∈ G.nullable.facts, A ∈ H.nullable.facts := fun A hA =>
      mem_nullable.2 (h.generates (mem_nullable.1 hA))
    exact mem_withoutErasing.2 (Or.inl ⟨hne, w, (h.productions _).1 hw, variants_mono hnullable hvariant⟩)
  · refine mem_withoutErasing.2 (Or.inr ?_)
    rw [← h.start]
    exact ⟨rfl, h.generates hempty⟩

theorem withoutErasing (h : G ≈ H) : G.withoutErasing ≈ H.withoutErasing :=
  ⟨h.start, h.nonterminals, h.terminals, fun _ => ⟨rule_withoutErasing h, rule_withoutErasing h.symm⟩⟩

private theorem rule_withoutUnits (h : G ≈ H) (hG : G.Valid) {r : Rule Body} (hr : r ∈ G.withoutUnits.productions) :
    r ∈ H.withoutUnits.productions := by
  obtain ⟨howner, B, hreach, hB, hunit, hempty⟩ := (mem_withoutUnits hG).1 hr
  exact (mem_withoutUnits (h.valid hG)).2
    ⟨(h.nonterminals _).1 howner, B, h.unitReaches hreach, (h.productions _).1 hB, hunit, hempty⟩

theorem withoutUnits (h : G ≈ H) (hG : G.Valid) : G.withoutUnits ≈ H.withoutUnits :=
  ⟨h.start, h.nonterminals, h.terminals, fun _ =>
    ⟨rule_withoutUnits h hG, rule_withoutUnits h.symm (h.valid hG)⟩⟩

/-- Terminals that are used are so without regard to order. -/
private theorem used (h : G ≈ H) {P Q : Productions Body} (hPQ : P.SameElements Q) {t : Terminal} :
    (t ∈ G.terminals ∧ ∃ r ∈ P, .terminal t ∈ r.body) ↔ (t ∈ H.terminals ∧ ∃ r ∈ Q, .terminal t ∈ r.body) := by
  rw [h.terminals t]
  simp only [hPQ _]

private theorem reaches_start (h : G ≈ H) {A : Nonterminal} : G.Reaches G.start A ↔ H.Reaches H.start A := by
  rw [← h.start]
  exact ⟨h.reaches, h.symm.reaches⟩

theorem withoutInaccessible (h : G ≈ H) : G.withoutInaccessible ≈ H.withoutInaccessible := by
  have hrules : G.withoutInaccessible.productions.SameElements H.withoutInaccessible.productions := by
    intro r
    rw [mem_withoutInaccessible, mem_withoutInaccessible, h.productions r, reaches_start h]
  refine ⟨h.start, fun A => ?_, fun t => ?_, hrules⟩
  · rw [mem_withoutInaccessible_nonterminals, mem_withoutInaccessible_nonterminals, h.nonterminals A, reaches_start h]
  · rw [mem_withoutInaccessible_terminals, mem_withoutInaccessible_terminals]
    exact used h hrules

private theorem productive (h : G ≈ H) {A : Nonterminal} : (∃ x, G.Generates A x) ↔ ∃ x, H.Generates A x :=
  exists_congr fun _ => ⟨h.generates, h.symm.generates⟩

theorem withoutUnproductive (h : G ≈ H) : G.withoutUnproductive ≈ H.withoutUnproductive := by
  have hrules : G.withoutUnproductive.productions.SameElements H.withoutUnproductive.productions := by
    intro r
    rw [mem_withoutUnproductive, mem_withoutUnproductive, h.productions r]
    simp only [productive h]
  refine ⟨h.start, fun A => ?_, fun t => ?_, hrules⟩
  · rw [mem_withoutUnproductive_nonterminals, mem_withoutUnproductive_nonterminals, h.nonterminals A, productive h,
      h.start]
  · rw [mem_withoutUnproductive_terminals, mem_withoutUnproductive_terminals]
    exact used h hrules

/-! ### Runs -/

theorem reduced (h : G ≈ H) (hG : G.Valid) : G.reduced ≈ H.reduced :=
  (h.withoutErasing.withoutUnits hG.withoutErasing).withoutInaccessible

/-- Either grammar has unproductive symbols to remove, or neither. -/
theorem unchanged_iff (h : G ≈ H) (hG : G.Valid) :
    G.reduced.withoutUnproductive ≈ G.reduced ↔ H.reduced.withoutUnproductive ≈ H.reduced := by
  have hreduced := h.reduced hG
  constructor
  · exact fun hsame => hreduced.withoutUnproductive.symm.trans (hsame.trans hreduced)
  · exact fun hsame => hreduced.withoutUnproductive.trans (hsame.trans hreduced.symm)

theorem pruned (h : G ≈ H) (hG : G.Valid) : G.pruned ≈ H.pruned := by
  have hproductive := (h.reduced hG).withoutUnproductive
  unfold Grammar.pruned
  by_cases hsame : G.reduced.withoutUnproductive ≈ G.reduced
  · rw [if_pos hsame, if_pos ((h.unchanged_iff hG).1 hsame)]
    exact hproductive
  · rw [if_neg hsame, if_neg fun hsame' => hsame ((h.unchanged_iff hG).2 hsame')]
    exact hproductive.withoutInaccessible

end Equivalent

/-- The inaccessible symbols are removed a second time if unproductive ones were found. -/
theorem passThrough_stages (G : Grammar) : G.passThrough.passes.map Pass.stage =
    [.erasure, .units, .accessibility, .productivity] ++
      (if G.reduced.withoutUnproductive ≈ G.reduced then [] else [.accessibility]) ++ [.binarization, .isolation] := by
  simp only [passThrough, Pass.followedBy, Pass.result, Pass.after, Stage.apply, reduced]
  by_cases h : G.reduced.withoutUnproductive ≈ G.reduced
  · simp only [reduced] at h
    simp [h]
  · simp only [reduced] at h
    simp [h]

theorem Equivalent.stages (h : G ≈ H) (hG : G.Valid) :
    G.passThrough.passes.map Pass.stage = H.passThrough.passes.map Pass.stage := by
  rw [passThrough_stages, passThrough_stages]
  simp only [h.unchanged_iff hG]

/-- Up to binarization every pass ends with equivalent grammars. -/
theorem Equivalent.beforeBinarization (h : G ≈ H) (hG : G.Valid) :
    List.Forall₂ (fun p q => p.result ≈ q.result) G.passThrough.passesBeforeBinarization
      H.passThrough.passesBeforeBinarization := by
  have herasure := h.withoutErasing
  have hunits := herasure.withoutUnits hG.withoutErasing
  have hreduced := h.reduced hG
  have hproductive := hreduced.withoutUnproductive
  have hresults : List.Forall₂ (· ≈ ·) (G.passThrough.passesBeforeBinarization.map Pass.result)
      (H.passThrough.passesBeforeBinarization.map Pass.result) := by
    rw [passThrough_results, passThrough_results]
    simp only [h.unchanged_iff hG]
    refine List.rel_append (.cons herasure (.cons hunits (.cons hreduced (.cons hproductive .nil)))) ?_
    split
    · exact .nil
    · exact .cons hproductive.withoutInaccessible .nil
  rw [List.forall₂_map_left_iff, List.forall₂_map_right_iff] at hresults
  exact hresults

end Grammar

end NormalGrammar
