import NormalGrammar.Normalization
import NormalGrammar.Proofs.Shape

/-!
# How a conversion ends

An invalid grammar is refused with its fault, by a run as by the conversion to a normal form (`run_eq_error`,
`toNormalForm_eq_error`).  All rules of the result of a run are normal, so a valid grammar always has a normal form
(`exists_toNormalForm`), and no conversion fails for the shape of a rule.
-/

namespace NormalGrammar

namespace Grammar

variable {G : Grammar}

theorem run_eq_error {e : ValidationError} (h : G.validate = .error e) : G.run = .error e := by
  unfold run
  rw [h]

theorem toNormalForm_eq_error {e : ValidationError} (h : G.validate = .error e) :
    G.toNormalForm = .error (.invalid e) := by
  unfold toNormalForm
  rw [run_eq_error h]

/-- The result of a run on a valid grammar is read as a normal form. -/
theorem exists_toNormalForm (h : G.validate = .ok ()) :
    ∃ N, NormalForm.ofGrammar G.passThrough.result = .ok N ∧ G.toNormalForm = .ok N := by
  obtain ⟨N, hN⟩ := NormalForm.exists_ofGrammar (result_normal (validate_eq_ok.1 h))
  refine ⟨N, hN, ?_⟩
  unfold toNormalForm
  rw [run_eq_passThrough h]
  simp only [hN]
  rfl

theorem toNormalForm_ne_notNormal (G : Grammar) (e : NormalFormError) : G.toNormalForm ≠ .error (.notNormal e) := by
  cases h : G.validate with
  | error fault =>
    rw [toNormalForm_eq_error h]
    simp
  | ok =>
    obtain ⟨N, -, hN⟩ := exists_toNormalForm h
    rw [hN]
    simp

/-- The fault of an invalid grammar is passed on.  A run on a valid one ends with a grammar all of whose bodies are
single terminals, pairs of nonterminals, or the empty body of the start symbol, which is there if and only if the start
symbol derives the empty word, and this grammar is read as a normal form.  So no conversion fails for the shape of a
rule. -/
theorem run_outcome (G : Grammar) :
    (∀ e, G.validate = .error e → G.run = .error e ∧ G.toNormalForm = .error (.invalid e)) ∧
    (G.validate = .ok () → ∃ run N, G.run = .ok run ∧ run.result.start = G.start ∧
      (∀ r ∈ run.result.productions, (∃ t, r.body = [.terminal t]) ∨
        (∃ B C, r.body = [.nonterminal B, .nonterminal C]) ∨ (r.owner = G.start ∧ r.body = [])) ∧
      (⟨G.start, []⟩ ∈ run.result.productions ↔ G.Generates G.start []) ∧
      NormalForm.ofGrammar run.result = .ok N ∧ G.toNormalForm = .ok N) ∧
    ∀ e, G.toNormalForm ≠ .error (.notNormal e) := by
  refine ⟨fun e h => ⟨run_eq_error h, toNormalForm_eq_error h⟩, fun h => ?_, G.toNormalForm_ne_notNormal⟩
  have hG := validate_eq_ok.1 h
  obtain ⟨N, hread, hN⟩ := exists_toNormalForm h
  refine ⟨G.passThrough, N, run_eq_passThrough h, passThrough_result_start, fun r hr => ?_, ?_, hread, hN⟩
  · rw [← passThrough_result_start]
    exact Rule.normal_iff.1 (result_normal hG r hr)
  · rw [empty_mem_result hG]
    simp

/-- A grammar that does not declare its start symbol is refused, the balanced words have a normal form. -/
theorem run_outcome_balanced :
    ((ofParts balanced.start [] [] []).run = .error (.undeclaredStart balanced.start) ∧
      (ofParts balanced.start [] [] []).toNormalForm = .error (.invalid (.undeclaredStart balanced.start))) ∧
    ∃ run N, balanced.run = .ok run ∧ run.result.start = balanced.start ∧
      (∀ r ∈ run.result.productions, (∃ t, r.body = [.terminal t]) ∨
        (∃ B C, r.body = [.nonterminal B, .nonterminal C]) ∨ (r.owner = balanced.start ∧ r.body = [])) ∧
      (⟨balanced.start, []⟩ ∈ run.result.productions ↔ balanced.Generates balanced.start []) ∧
      NormalForm.ofGrammar run.result = .ok N ∧ balanced.toNormalForm = .ok N :=
  ⟨(run_outcome (ofParts balanced.start [] [] [])).1 _ rfl, (run_outcome balanced).2.1 rfl⟩

end Grammar

end NormalGrammar
