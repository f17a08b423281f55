import NormalGrammar.Proofs.Proxies
import NormalGrammar.Proofs.Stability
import NormalGrammar.Proofs.StageSequence
import NormalGrammar.Proofs.UnitRemoval

/-!
# Stages applied twice

No stage leaves anything to do for another application of it (`Stage.apply_apply`), whatever number the names start
from.  After the removal of erasing productions only what still passes through the empty body of the start symbol is
nullable, and a variant of a variant is a variant (`variants_trans`).  No unit production is left by the removal of them,
each removal of symbols keeps the others accessible or productive, and splitting and isolation leave no long body and no
terminal beside another symbol.
-/

namespace NormalGrammar

namespace Grammar

variable {G : Grammar}

/-- Leaving out symbols of what is left of a body leaves a variant of the body. -/
theorem variants_trans {N : OrderedSet Nonterminal} {u v w : Body} (h : u ∈ variants N v) (h' : v ∈ variants N w) :
    u ∈ variants N w := by
  induction w generalizing u v with
  | nil =>
    rw [variants, List.mem_singleton] at h'
    rwa [h'] at h
  | cons s w ih =>
    rcases mem_variants_cons.1 h' with ⟨v, hv, rfl⟩ | ⟨hs, hv⟩
    · rcases mem_variants_cons.1 h with ⟨u, hu, rfl⟩ | ⟨hs, hu⟩
      · exact mem_variants_cons.2 (Or.inl ⟨u, ih hu hv, rfl⟩)
      · exact mem_variants_cons.2 (Or.inr ⟨hs, ih hu hv⟩)
    · exact mem_variants_cons.2 (Or.inr ⟨hs, ih h hv⟩)

theorem withoutErasing_withoutErasing (G : Grammar) : G.withoutErasing.withoutErasing ≈ G.withoutErasing := by
  have hnullable : ∀ A ∈ G.withoutErasing.nullable.facts, A ∈ G.nullable.facts := fun A hA =>
    mem_nullable.2 (mem_nullable.1 hA).of_withoutErasing
  refine ⟨rfl, fun _ => Iff.rfl, fun _ => Iff.rfl, fun r => ⟨fun hr => ?_, fun hr => ?_⟩⟩
  · rcases mem_withoutErasing.1 hr with ⟨hne, v, hv, hvariant⟩ | ⟨rfl, hstart⟩
    · rcases mem_withoutErasing.1 hv with ⟨-, w, hw, hv⟩ | ⟨hrule, -⟩
      · have hbody := variants_trans (variants_mono hnullable hvariant) hv
        exact mem_withoutErasing.2 (Or.inl ⟨hne, w, hw, hbody⟩)
      · -- Nothing is left of the empty body that the start symbol keeps.
        obtain ⟨-, rfl⟩ := Rule.mk.inj hrule
        exact absurd (List.mem_singleton.1 hvariant) hne
    · exact mem_withoutErasing.2 (Or.inr ⟨rfl, hstart.of_withoutErasing⟩)
  · obtain ⟨A, w⟩ := r
    by_cases hw : w = []
    · subst hw
      obtain ⟨rfl, hstart⟩ := empty_mem_withoutErasing.1 hr
      exact empty_mem_withoutErasing.2 ⟨rfl, empty_generates_withoutErasing.2 hstart⟩
    · exact mem_withoutErasing.2 (Or.inl ⟨hw, w, hr, self_mem_variants w⟩)

theorem withoutUnits_withoutUnits (hG : G.Valid) : G.withoutUnits.withoutUnits ≈ G.withoutUnits := by
  refine ⟨rfl, fun _ => Iff.rfl, fun _ => Iff.rfl, fun r => ⟨fun hr => ?_, fun hr => ?_⟩⟩
  · obtain ⟨-, B, hreach, hB, -⟩ := (mem_withoutUnits hG.withoutUnits).1 hr
    cases hreach with
    | refl => exact hB
    | tail _ hlast => exact absurd hlast (not_unitStep_withoutUnits hG _ _)
  · obtain ⟨howner, -, -, -, hunit, -⟩ := (mem_withoutUnits hG).1 hr
    exact (mem_withoutUnits hG.withoutUnits).2 ⟨howner, r.owner, .refl, hr, hunit, fun _ => rfl⟩

theorem withoutInaccessible_withoutInaccessible (G : Grammar) :
    G.withoutInaccessible.withoutInaccessible ≈ G.withoutInaccessible :=
  withoutInaccessible_equiv accessible_withoutInaccessible
    (fun _ hr => (mem_withoutInaccessible.1 hr).2.withoutInaccessible)
    fun _ ht => (mem_withoutInaccessible_terminals.1 ht).2

theorem withoutUnproductive_withoutUnproductive (G : Grammar) :
    G.withoutUnproductive.withoutUnproductive ≈ G.withoutUnproductive := by
  refine withoutUnproductive_equiv (fun A hA => ?_) productive_withoutUnproductive
    fun _ ht => (mem_withoutUnproductive_terminals.1 ht).2
  rcases (mem_withoutUnproductive_nonterminals.1 hA).2 with ⟨x, hx⟩ | hstart
  · exact Or.inl ⟨x, hx.withoutUnproductive⟩
  · exact Or.inr hstart

end Grammar

namespace Draft

/-- Chains are short enough not to be split again. -/
theorem binarize_binarize (d : Draft) (names : FreshNames) :
    (binarize ⟨d.binarize.grammar, names⟩).grammar ≈ d.binarize.grammar := by
  obtain ⟨first, hfirst⟩ := binarize_splits d
  obtain ⟨second, hsecond⟩ := binarize_splits ⟨d.binarize.grammar, names⟩
  refine hsecond.equiv_of_length fun r hr => ?_
  rcases hfirst.body_cases hr with hlen | ⟨-, hlen⟩
  · exact hlen.le
  · exact hlen.le

/-- Isolation leaves no terminal beside another symbol. -/
theorem isolate_isolate (d : Draft) (names : FreshNames) :
    (isolate ⟨d.isolate.grammar, names⟩).grammar ≈ d.isolate.grammar := by
  obtain ⟨first, hfirst⟩ := isolate_isolates d
  obtain ⟨second, hsecond⟩ := isolate_isolates ⟨d.isolate.grammar, names⟩
  refine hsecond.equiv_of_unpaired fun t ht => ?_
  obtain ⟨r, hr, hlen, hmem⟩ := Grammar.mem_pairedTerminals.1 ht
  exact hfirst.not_terminal_mem hr hlen t hmem

end Draft

namespace Stage

/-- A stage that is applied to what it made of a valid grammar changes nothing, whatever number the names start from
the first and the second time. -/
theorem apply_apply (stage : Stage) (d : Draft) (names : FreshNames) (h : d.grammar.validate = .ok ()) :
    (stage.apply ⟨(stage.apply d).grammar, names⟩).grammar ≈ (stage.apply d).grammar := by
  cases stage with
  | erasure => exact d.grammar.withoutErasing_withoutErasing
  | units => exact Grammar.withoutUnits_withoutUnits (Grammar.validate_eq_ok.1 h)
  | accessibility => exact d.grammar.withoutInaccessible_withoutInaccessible
  | productivity => exact d.grammar.withoutUnproductive_withoutUnproductive
  | binarization => exact d.binarize_binarize names
  | isolation => exact d.isolate_isolate names

/-- The second time names are tried that the first time has drawn, or left free. -/
theorem apply_apply_crowded : Grammar.crowded.validate = .ok () ∧
    (binarization.apply ⟨(binarization.apply ⟨Grammar.crowded, ⟨1⟩⟩).grammar, ⟨1⟩⟩).grammar ≈
      (binarization.apply ⟨Grammar.crowded, ⟨1⟩⟩).grammar ∧
    (isolation.apply ⟨(isolation.apply ⟨Grammar.crowded, ⟨7⟩⟩).grammar, ⟨1⟩⟩).grammar ≈
      (isolation.apply ⟨Grammar.crowded, ⟨7⟩⟩).grammar ∧
    (erasure.apply ⟨(erasure.apply ⟨Grammar.crowded, ⟨1⟩⟩).grammar, ⟨1⟩⟩).grammar ≈
      (erasure.apply ⟨Grammar.crowded, ⟨1⟩⟩).grammar := by
  have h : Grammar.crowded.validate = .ok () := by decide
  exact ⟨h, apply_apply binarization ⟨Grammar.crowded, ⟨1⟩⟩ ⟨1⟩ h, apply_apply isolation ⟨Grammar.crowded, ⟨7⟩⟩ ⟨1⟩ h,
    apply_apply erasure ⟨Grammar.crowded, ⟨1⟩⟩ ⟨1⟩ h⟩

end Stage

end NormalGrammar
