import Mathlib.Logic.Relation
import NormalGrammar.Grammar.Validation
import NormalGrammar.UnitPairs
import NormalGrammar.Proofs.Reading

/-!
# Words after the removal of unit productions

The unit pairs of a valid grammar are the pairs of a declared nonterminal and what it reaches by unit productions
(`mem_unitPairs`).  As a nonterminal takes over the bodies of all that it reaches, `withoutUnits` adds no words
(`Generates.of_withoutUnits`), and it keeps those that are derived without an empty body (`Generates.withoutUnits`).
An empty body stays with its owner, so a word whose derivation passes from a unit production to an empty body can be
lost; after the removal of erasing productions no word depends on such a derivation.
-/

namespace NormalGrammar

namespace Grammar

variable {G : Grammar}

/-! ### Unit pairs -/

def UnitStep (G : Grammar) (A B : Nonterminal) : Prop := ⟨A, [.nonterminal B]⟩ ∈ G.productions

/-- `B` is reached from `A` by any number of unit productions. -/
def UnitReaches (G : Grammar) : Nonterminal → Nonterminal → Prop := Relation.ReflTransGen G.UnitStep

theorem mem_unitTargets {A B : Nonterminal} : B ∈ G.unitTargets A ↔ G.UnitStep A B := by
  simp only [unitTargets, List.mem_filterMap, OrderedSet.mem_toList, mem_bodies, Body.unit?_eq_some]
  constructor
  · rintro ⟨w, hw, rfl⟩
    exact hw
  · intro h
    exact ⟨_, h, rfl⟩

theorem mem_unitInference {A : Nonterminal} {known : OrderedSet (Rule Nonterminal)} {f : Rule Nonterminal} :
    f ∈ G.unitInference A known ↔
      f.owner = A ∧ ∃ B C, ⟨A, B⟩ ∈ known ∧ G.UnitStep B C ∧ ⟨C, f.body⟩ ∈ known := by
  simp only [unitInference, List.mem_map, OrderedSet.mem_toList, OrderedSet.mem_ofList, List.mem_flatMap,
    Productions.mem_bodies, mem_unitTargets]
  constructor
  · rintro ⟨D, ⟨C, ⟨B, hB, hstep⟩, hD⟩, rfl⟩
    exact ⟨rfl, B, C, hB, hstep, hD⟩
  · rintro ⟨rfl, B, C, hB, hstep, hD⟩
    exact ⟨f.body, ⟨C, ⟨B, hB, hstep⟩, hD⟩, rfl⟩

private theorem unitPairs_sound {f : Rule Nonterminal} (hf : f ∈ G.unitPairs.facts) :
    f.owner ∈ G.nonterminals ∧ G.UnitReaches f.owner f.body := by
  refine saturate_induction _ _ (P := fun f => f.owner ∈ G.nonterminals ∧ G.UnitReaches f.owner f.body)
    (fun f hf => ?_) (fun known hknown infer hi f hf => ?_) f hf
  · obtain ⟨A, hA, rfl⟩ := List.mem_map.1 (OrderedSet.mem_ofList.1 hf)
    exact ⟨hA, .refl⟩
  · obtain ⟨A, hA, rfl⟩ := List.mem_map.1 hi
    obtain ⟨rfl, B, C, hB, hstep, hC⟩ := mem_unitInference.1 hf
    have hfront := (hknown _ hB).2
    have hend := (hknown _ hC).2
    exact ⟨hA, (hfront.tail hstep).trans hend⟩

private theorem unitPairs_self {A : Nonterminal} (hA : A ∈ G.nonterminals) : ⟨A, A⟩ ∈ G.unitPairs.facts :=
  mem_saturate_of_mem _ _ (OrderedSet.mem_ofList.2 (List.mem_map_of_mem hA))

private theorem unitPairs_tail {A B C : Nonterminal} (hA : A ∈ G.nonterminals) (hC : C ∈ G.nonterminals)
    (hB : ⟨A, B⟩ ∈ G.unitPairs.facts) (hstep : G.UnitStep B C) : ⟨A, C⟩ ∈ G.unitPairs.facts := by
  have hinfer : ⟨A, C⟩ ∈ G.unitInference A G.unitPairs.facts :=
    mem_unitInference.2 ⟨rfl, B, C, hB, hstep, unitPairs_self hC⟩
  exact mem_saturate_of_infer _ _ (List.mem_map_of_mem hA) hinfer

theorem Valid.unitStep_declared (hG : G.Valid) {A B : Nonterminal} (h : G.UnitStep A B) : B ∈ G.nonterminals :=
  hG.body _ h (.nonterminal B) (List.mem_singleton_self _)

/-- The unit pairs are found exactly. -/
theorem mem_unitPairs (hG : G.Valid) {A B : Nonterminal} :
    ⟨A, B⟩ ∈ G.unitPairs.facts ↔ A ∈ G.nonterminals ∧ G.UnitReaches A B := by
  constructor
  · exact unitPairs_sound
  · rintro ⟨hA, hAB⟩
    induction hAB with
    | refl => exact unitPairs_self hA
    | tail _ hstep ih => exact unitPairs_tail hA (hG.unitStep_declared hstep) ih hstep

/-! ### The grammar without unit productions -/

theorem mem_unitFreeBodies {A : Nonterminal} {reached : OrderedSet Nonterminal} {w : Body} :
    w ∈ G.unitFreeBodies A reached ↔
      ∃ B ∈ reached, ⟨B, w⟩ ∈ G.productions ∧ w.unit? = none ∧ (w = [] → B = A) := by
  simp only [unitFreeBodies, OrderedSet.mem_ofList, List.mem_flatMap, List.mem_filter, OrderedSet.mem_toList,
    mem_bodies, Bool.and_eq_true, Bool.or_eq_true, Option.isNone_iff_eq_none, Bool.not_eq_true',
    List.isEmpty_eq_false_iff, decide_eq_true_eq]
  constructor
  · rintro ⟨B, hB, hw, hunit, hempty⟩
    exact ⟨B, hB, hw, hunit, fun e => hempty.resolve_left fun hne => hne e⟩
  · rintro ⟨B, hB, hw, hunit, hempty⟩
    refine ⟨B, hB, hw, hunit, ?_⟩
    by_cases e : w = []
    · exact Or.inr (hempty e)
    · exact Or.inl e

/-- A declared nonterminal owns the other bodies of all that it reaches, but an empty one only if it is its own. -/
theorem mem_withoutUnits (hG : G.Valid) {r : Rule Body} : r ∈ G.withoutUnits.productions ↔
    r.owner ∈ G.nonterminals ∧
      ∃ B, G.UnitReaches r.owner B ∧ ⟨B, r.body⟩ ∈ G.productions ∧ r.body.unit? = none ∧
        (r.body = [] → B = r.owner) := by
  simp only [withoutUnits, Productions.mem_ofFamily, mem_unitFreeBodies, Productions.mem_bodies, mem_unitPairs hG]
  constructor
  · rintro ⟨howner, B, ⟨-, hreach⟩, h⟩
    exact ⟨howner, B, hreach, h⟩
  · rintro ⟨howner, B, hreach, h⟩
    exact ⟨howner, B, ⟨howner, hreach⟩, h⟩

@[simp] theorem withoutUnits_start : G.withoutUnits.start = G.start := rfl

@[simp] theorem withoutUnits_nonterminals : G.withoutUnits.nonterminals = G.nonterminals := rfl

@[simp] theorem withoutUnits_terminals : G.withoutUnits.terminals = G.terminals := rfl

theorem empty_mem_withoutUnits (hG : G.Valid) {A : Nonterminal} :
    ⟨A, []⟩ ∈ G.withoutUnits.productions ↔ ⟨A, []⟩ ∈ G.productions := by
  rw [mem_withoutUnits hG]
  constructor
  · rintro ⟨-, B, -, hB, -, e⟩
    rwa [e rfl] at hB
  · intro h
    exact ⟨hG.owner _ h, A, .refl, h, rfl, fun _ => rfl⟩

/-- What is reached by unit productions derives no other words. -/
theorem UnitReaches.generates {A B : Nonterminal} (h : G.UnitReaches A B) {x : Word} (hx : G.Generates B x) :
    G.Generates A x := by
  induction h with
  | refl => exact hx
  | tail _ hstep ih => exact ih (.of_rule hstep (reads_unit.2 hx))

/-- The removal of unit productions adds no words. -/
theorem Generates.of_withoutUnits (hG : G.Valid) {A : Nonterminal} {x : Word} (h : G.withoutUnits.Generates A x) :
    G.Generates A x := by
  refine h.interpret fun r hr y hy => ?_
  obtain ⟨-, B, hreach, hB, -⟩ := (mem_withoutUnits hG).1 hr
  exact hreach.generates (.of_rule hB hy)

/-- What `B` has in the end, an empty body apart, is taken over by `A` with a unit production to `B`. -/
theorem mem_withoutUnits_of_step (hG : G.Valid) {A B : Nonterminal} (hstep : G.UnitStep A B) {w : Body}
    (hw : ⟨B, w⟩ ∈ G.withoutUnits.productions) (hne : w ≠ []) : ⟨A, w⟩ ∈ G.withoutUnits.productions := by
  obtain ⟨-, C, hreach, hC, hunit, -⟩ := (mem_withoutUnits hG).1 hw
  have hA : A ∈ G.nonterminals := hG.owner _ hstep
  exact (mem_withoutUnits hG).2 ⟨hA, C, hreach.head hstep, hC, hunit, fun e => absurd e hne⟩

/-- Words that are derived without an empty body are kept. -/
theorem Generates.withoutUnits (hG : G.Valid) {A : Nonterminal} {x : Word}
    (h : G.withoutEmptyBodies.Generates A x) : G.withoutUnits.withoutEmptyBodies.Generates A x := by
  refine h.interpret fun r hr y hy => ?_
  obtain ⟨hrule, hne⟩ := mem_withoutEmptyBodies.1 hr
  cases hunit : r.body.unit? with
  | none =>
    have hkept : r ∈ G.withoutUnits.productions :=
      (mem_withoutUnits hG).2 ⟨hG.owner r hrule, r.owner, .refl, hrule, hunit, fun _ => rfl⟩
    exact .of_rule (mem_withoutEmptyBodies.2 ⟨hkept, hne⟩) hy
  | some B =>
    -- The target has the word by a rule that is no unit, and the owner took this rule over.
    rw [Body.unit?_eq_some] at hunit
    rw [hunit, reads_unit] at hy
    have hstep : G.UnitStep r.owner B := by
      show ⟨r.owner, [.nonterminal B]⟩ ∈ G.productions
      rw [← hunit]
      exact hrule
    obtain ⟨w, hw, hread⟩ := generates_iff_reads.1 hy
    obtain ⟨hkept, hfull⟩ := mem_withoutEmptyBodies.1 hw
    exact .of_rule (mem_withoutEmptyBodies.2 ⟨mem_withoutUnits_of_step hG hstep hkept hfull, hfull⟩) hread

end Grammar

end NormalGrammar
