import Mathlib.Tactic.TFAE
import NormalGrammar.Proofs.Acceptance
import NormalGrammar.Proofs.Outcome
import NormalGrammar.Proofs.Trim

/-!
# Grammars without words

In a trim grammar the start symbol owns no body unless it derives a word (`Trim.startOwnsNothing`).  If it owns none,
it leads nowhere, so it is the only nonterminal, and as nothing else can own a body there are no productions and no
terminals either (`Trim.equiv_ofStart`).  The result of a run is trim, so the bodies of its start symbol alone show
whether a grammar has any words (`run_emptyLanguage`).
-/

namespace NormalGrammar

namespace Grammar

variable {G : Grammar}

theorem startOwnsNothing_iff : G.startOwnsNothing = true ↔ ∀ w, ¬ (⟨G.start, w⟩ : Rule Body) ∈ G.productions := by
  simp only [startOwnsNothing, OrderedSet.isEmpty, List.isEmpty_iff, List.eq_nil_iff_forall_not_mem,
    OrderedSet.mem_toList, mem_bodies]

/-- A start symbol that owns nothing derives nothing. -/
theorem not_generates_of_startOwnsNothing (h : G.startOwnsNothing = true) (x : Word) : ¬ G.Generates G.start x := by
  intro hx
  obtain ⟨w, hw, -⟩ := generates_iff_reads.1 hx
  exact startOwnsNothing_iff.1 h w hw

/-- All symbols of a body derive words in a trim grammar, so the owner derives one too. -/
theorem Trim.startOwnsNothing (hG : G.Trim) (hempty : ∀ x, ¬ G.Generates G.start x) : G.startOwnsNothing = true := by
  refine startOwnsNothing_iff.2 fun w hw => ?_
  obtain ⟨x, hx⟩ := exists_reads (hG.productive _ hw)
  exact hempty x (.of_rule hw hx)

/-- Nothing is accessible from a start symbol that owns nothing. -/
theorem Trim.equiv_ofStart (hG : G.Trim) (hvalid : G.Valid) (hnothing : G.startOwnsNothing = true) :
    G ≈ ofStart G.start := by
  have hleads : ∀ A, ¬ G.Leads G.start A := by
    rintro A ⟨w, hw, -⟩
    exact startOwnsNothing_iff.1 hnothing w hw
  have honly : ∀ A ∈ G.nonterminals, A = G.start := fun A hA =>
    (Relation.reflTransGen_iff_eq hleads).1 (hG.accessible A hA)
  have hnone : ∀ r, ¬ r ∈ G.productions := by
    intro r hr
    have howner : r.owner = G.start := honly _ (hvalid.owner r hr)
    refine startOwnsNothing_iff.1 hnothing r.body ?_
    rw [← howner]
    exact hr
  refine ⟨rfl, fun A => ?_, fun t => ?_, fun r => ?_⟩
  · show A ∈ G.nonterminals ↔ A ∈ OrderedSet.singleton G.start
    rw [OrderedSet.mem_singleton]
    constructor
    · exact honly A
    · rintro rfl
      exact hvalid.start
  · refine iff_of_false (fun ht => ?_) OrderedSet.not_mem_empty
    obtain ⟨r, hr, -⟩ := hG.used t ht
    exact hnone r hr
  · exact iff_of_false (hnone r) OrderedSet.not_mem_empty

theorem startOwnsNothing_of_equiv_ofStart (h : G ≈ ofStart G.start) : G.startOwnsNothing = true :=
  startOwnsNothing_iff.2 fun _ hw => OrderedSet.not_mem_empty ((h.productions _).1 hw)

/-- A valid grammar has no words if and only if the start symbol of the result of a run owns nothing, and if and only if
nothing is left there but the start symbol.  Its normal form then accepts no word. -/
theorem run_emptyLanguage (G : Grammar) (h : G.validate = .ok ()) : ∃ run N,
    G.run = .ok run ∧ NormalForm.ofGrammar run.result = .ok N ∧ G.toNormalForm = .ok N ∧
      [∀ x, ¬ G.Generates G.start x, run.result.startOwnsNothing = true, run.result ≈ ofStart G.start].TFAE ∧
      ((∀ x, ¬ G.Generates G.start x) → ∀ x, N.accepts x = false) := by
  have hG := validate_eq_ok.1 h
  have htrim := result_trim hG
  obtain ⟨N, hread, hN⟩ := exists_toNormalForm h
  refine ⟨G.passThrough, N, run_eq_passThrough h, hread, hN, ?_, fun hempty x => ?_⟩
  · tfae_have 1 → 2 := fun hempty => htrim.startOwnsNothing fun x hx => hempty x ((start_generates_result hG).1 hx)
    tfae_have 2 → 3 := fun hnothing => by
      rw [← passThrough_result_start]
      exact htrim.equiv_ofStart (result_valid hG) hnothing
    tfae_have 3 → 1 := fun hequiv x hx => by
      rw [← passThrough_result_start] at hequiv
      have hnothing := startOwnsNothing_of_equiv_ofStart hequiv
      exact not_generates_of_startOwnsNothing hnothing x ((start_generates_result hG).2 hx)
    tfae_finish
  · rw [Bool.eq_false_iff]
    intro haccepts
    have hword := (NormalForm.ofGrammar_reading hread).generates_of_accepts haccepts
    exact hempty x ((start_generates_result hG).1 hword)

/-- `S → aS | A | AB`, `A → S` and `B → b | ε`, where `S` goes on forever, alone or by way of `A`. -/
def endless : Grammar :=
  let S : Nonterminal := ⟨.ofChar 'S'⟩
  let A : Nonterminal := ⟨.ofChar 'A'⟩
  let B : Nonterminal := ⟨.ofChar 'B'⟩
  let a : Terminal := ⟨.ofChar 'a'⟩
  let b : Terminal := ⟨.ofChar 'b'⟩
  (ofStart S).addAll
    [⟨S, [.terminal a, .nonterminal S]⟩, ⟨S, [.nonterminal A]⟩, ⟨S, [.nonterminal A, .nonterminal B]⟩,
      ⟨A, [.nonterminal S]⟩, ⟨B, [.terminal b]⟩, ⟨B, []⟩]

theorem run_emptyLanguage_endless : endless.validate = .ok () ∧ (∀ x, ¬ endless.Generates endless.start x) ∧
    ∃ run N, endless.run = .ok run ∧ NormalForm.ofGrammar run.result = .ok N ∧ endless.toNormalForm = .ok N ∧
      [∀ x, ¬ endless.Generates endless.start x, run.result.startOwnsNothing = true,
        run.result ≈ ofStart endless.start].TFAE ∧
      ((∀ x, ¬ endless.Generates endless.start x) → ∀ x, N.accepts x = false) := by
  refine ⟨rfl, fun x hx => ?_, run_emptyLanguage endless rfl⟩
  -- Every body of another nonterminal than `B` holds one of `S` and `A`, so only `B` derives anything.
  have hbodies : ∀ r ∈ endless.productions.toList, r.owner = ⟨.ofChar 'B'⟩ ∨
      ∃ A ∈ r.body.nonterminals, A ≠ ⟨.ofChar 'B'⟩ := by decide
  have hstart : endless.start = ⟨.ofChar 'B'⟩ := by
    refine hx.interpret (I := fun A _ => A = ⟨.ofChar 'B'⟩) fun r hr y hy => ?_
    rcases hbodies r hr with howner | ⟨A, hA, hne⟩
    · exact howner
    · obtain ⟨_, hword⟩ := hy.exists_word (Body.mem_nonterminals.1 hA)
      exact absurd hword hne
  cases hstart

end Grammar

end NormalGrammar
