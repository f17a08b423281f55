import NormalGrammar.Proofs.RunLanguage

/-!
# Stages in any order

Stages may be applied in any order and as often as one likes.  As each of them keeps a grammar valid whatever number
its names start from, all drafts on the way hold valid grammars if the first one does (`valid_of_mem_along`).  A run is
such a sequence over the grammar with names numbered from one (`passThrough_passes`), so each of its passes ends with a
valid grammar.
-/

namespace NormalGrammar

namespace Draft

/-- The drafts on the way when stages are applied one after the other, the given one first. -/
def along : List Stage → Draft → List Draft
  | [], d => [d]
  | stage :: stages, d => d :: along stages (stage.apply d)

theorem valid_of_mem_along {stages : List Stage} {d e : Draft} (hd : d.grammar.Valid) (he : e ∈ along stages d) :
    e.grammar.Valid := by
  induction stages generalizing d with
  | nil =>
    rw [along, List.mem_singleton] at he
    rw [he]
    exact hd
  | cons stage stages ih =>
    rw [along, List.mem_cons] at he
    rcases he with rfl | he
    · exact hd
    · exact ih (stage.valid_apply hd) he

end Draft

namespace Grammar

variable {G : Grammar}

/-- The passes of a run lead from the grammar through the drafts on the way. -/
theorem passThrough_passes (G : Grammar) : ⟨G, {}⟩ :: G.passThrough.passes.map Pass.after =
    Draft.along (G.passThrough.passes.map Pass.stage) ⟨G, {}⟩ := by
  simp only [passThrough]
  -- With or without a second removal of inaccessible symbols, each pass starts where the one before it ended.
  generalize decide (¬ (Pass.result _ ≈ Pass.result _)) = swept
  cases swept <;> simp [Draft.along, Pass.followedBy, Pass.after]

theorem valid_of_mem_passes (hG : G.Valid) {p : Pass} (hp : p ∈ G.passThrough.passes) : p.result.Valid := by
  have hafter : p.after ∈ Draft.along (G.passThrough.passes.map Pass.stage) ⟨G, {}⟩ := by
    rw [← passThrough_passes]
    exact List.mem_cons_of_mem _ (List.mem_map_of_mem hp)
  exact Draft.valid_of_mem_along hG hafter

/-- Whatever stages are applied to a valid grammar, and whatever number their names start from, every grammar on the
way is valid, and so is the result of every pass of a run. -/
theorem validate_along (G : Grammar) (h : G.validate = .ok ()) :
    (∀ (names : FreshNames) (stages : List Stage),
      ∀ d ∈ Draft.along stages ⟨G, names⟩, d.grammar.validate = .ok ()) ∧
    ∃ run, G.run = .ok run ∧ ∀ p ∈ run.passes, p.result.validate = .ok () := by
  have hG := validate_eq_ok.1 h
  refine ⟨fun names stages d hd => ?_, G.passThrough, run_eq_passThrough h, fun p hp => ?_⟩
  · exact validate_eq_ok.2 (Draft.valid_of_mem_along hG hd)
  · exact validate_eq_ok.2 (valid_of_mem_passes hG hp)

/-- `S → a X1 T_a b | X1`, `X1 → a T_a` and `T_a → ε`, whose names are those that the last two stages try first. -/
def crowded : Grammar :=
  let S : Nonterminal := ⟨.ofChar 'S'⟩
  let X : Nonterminal := ⟨Name.numbered 1⟩
  let a : Terminal := ⟨.ofChar 'a'⟩
  let b : Terminal := ⟨.ofChar 'b'⟩
  let T : Nonterminal := ⟨Name.proxy a⟩
  (ofStart S).addAll
    [⟨S, [.terminal a, .nonterminal X, .nonterminal T, .terminal b]⟩, ⟨S, [.nonterminal X]⟩,
      ⟨X, [.terminal a, .nonterminal T]⟩, ⟨T, []⟩]

/-- Isolation and binarization in the wrong order, with names in use and units and empty bodies still there. -/
theorem validate_along_crowded : crowded.validate = .ok () ∧
    (∀ d ∈ Draft.along [.isolation, .binarization, .isolation, .units, .erasure, .isolation] ⟨crowded, ⟨1⟩⟩,
      d.grammar.validate = .ok ()) ∧
    ∃ run, crowded.run = .ok run ∧ ∀ p ∈ run.passes, p.result.validate = .ok () := by
  have h : crowded.validate = .ok () := by decide
  exact ⟨h, (validate_along crowded h).1 ⟨1⟩ _, (validate_along crowded h).2⟩

end Grammar

end NormalGrammar
