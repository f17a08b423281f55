import Mathlib.Data.Finset.Filter
import Mathlib.Data.Finset.Range
import Mathlib.Data.List.Forall2
import Mathlib.Data.List.ReduceOption
import NormalGrammar.Proofs.Erasure
import NormalGrammar.Proofs.ProductionMaps

/-!
# Bodies after the removal of erasing productions

Every symbol of a body leaves a choice: an occurrence of a nullable nonterminal is kept or left out, any other occurrence
is kept.  The combinations of these choices are taken from an enumeration that is known to list all of them and nothing
else (`Combinations.Complete`).  A combination is the same as a set of positions that are left out
(`forall₂_choices_iff`), so each owner keeps exactly what its bodies are after the deletion of some nullable occurrences
(`withoutErasing_exactly`).
-/

namespace NormalGrammar

/-- Enumerates the ways to take one element of every list. -/
abbrev Combinations := List (List (Option Symbol)) → List (List (Option Symbol))

namespace Combinations

/-- Only combinations are listed, and all of them.  Without any list to take an element of, the one combination, which is
empty, may be missing. -/
structure Complete (combine : Combinations) : Prop where
  sound : ∀ {choices picks}, picks ∈ combine choices → List.Forall₂ (· ∈ ·) picks choices
  complete : ∀ {choices picks}, choices ≠ [] → List.Forall₂ (· ∈ ·) picks choices → picks ∈ combine choices

/-- The pick from the last list changes the fastest. -/
def lexicographic : Combinations
  | [] => [[]]
  | options :: choices => options.flatMap fun pick => (lexicographic choices).map (pick :: ·)

theorem mem_lexicographic {choices : List (List (Option Symbol))} {picks : List (Option Symbol)} :
    picks ∈ lexicographic choices ↔ List.Forall₂ (· ∈ ·) picks choices := by
  induction choices generalizing picks with
  | nil => simp [lexicographic]
  | cons options choices ih =>
    simp only [lexicographic, List.mem_flatMap, List.mem_map, ih, List.forall₂_cons_right_iff]
    constructor
    · rintro ⟨pick, hpick, rest, hrest, rfl⟩
      exact ⟨pick, rest, hpick, hrest, rfl⟩
    · rintro ⟨pick, rest, hpick, hrest, rfl⟩
      exact ⟨pick, hpick, rest, hrest, rfl⟩

theorem complete_lexicographic : Complete lexicographic := ⟨mem_lexicographic.1, fun _ => mem_lexicographic.2⟩

end Combinations

/-! ### Deletions of a body -/

namespace Body

variable {w : Body} {picks : List (Option Symbol)}

/-- The symbols of a body, with nothing in the place of those that are deleted. -/
def keeping (w : Body) (deleted : Finset ℕ) : List (Option Symbol) :=
  w.mapIdx fun i s => if i ∈ deleted then none else some s

/-- A body without the symbols at some positions. -/
def deleting (w : Body) (deleted : Finset ℕ) : Body := (w.keeping deleted).reduceOption

/-- The positions at which nothing stands. -/
private def omitted (picks : List (Option Symbol)) : Finset ℕ :=
  (Finset.range picks.length).filter fun i => picks[i]? = some none

private theorem mem_omitted {i : ℕ} (hi : i < picks.length) : i ∈ omitted picks ↔ picks[i] = none := by
  unfold omitted
  rw [Finset.mem_filter, Finset.mem_range, List.getElem?_eq_getElem hi, Option.some_inj]
  exact and_iff_right hi

private theorem lt_of_mem_omitted {i : ℕ} (hi : i ∈ omitted picks) : i < picks.length :=
  Finset.mem_range.1 (Finset.mem_filter.1 hi).1

/-- Where every symbol stands in its place unless nothing does, the empty places are the deleted ones. -/
private theorem keeping_omitted (hlength : picks.length = w.length)
    (hpicks : ∀ i (hi : i < picks.length), picks[i] = some (w[i]) ∨ picks[i] = none) :
    w.keeping (omitted picks) = picks := by
  refine List.ext_getElem (by simp [keeping, hlength]) fun i _ hi => ?_
  have hget : (w.keeping (omitted picks))[i] = if i ∈ omitted picks then none else some w[i] :=
    List.getElem_mapIdx ..
  simp only [hget, mem_omitted hi]
  rcases hpicks i hi with hkept | hnone
  · simp [hkept]
  · simp [hnone]

end Body

namespace Grammar

variable {G : Grammar} {N : OrderedSet Nonterminal} {combine : Combinations}

/-- A nullable occurrence is kept or left out, any other is kept. -/
def choices (nullable : OrderedSet Nonterminal) (s : Symbol) : List (Option Symbol) :=
  if isMarked nullable s then [some s, none] else [some s]

theorem mem_choices {s : Symbol} {pick : Option Symbol} :
    pick ∈ choices N s ↔ pick = some s ∨ (pick = none ∧ isMarked N s) := by
  unfold choices
  by_cases hs : isMarked N s
  · simp [hs]
  · simp [hs]

/-- To combine choices is to delete some of the nullable occurrences. -/
theorem forall₂_choices_iff {w : Body} {picks : List (Option Symbol)} :
    List.Forall₂ (· ∈ ·) picks (w.map (choices N)) ↔
      ∃ deleted : Finset ℕ, (∀ i ∈ deleted, ∃ s, w[i]? = some s ∧ isMarked N s) ∧ w.keeping deleted = picks := by
  rw [List.forall₂_map_right_iff, List.forall₂_iff_get]
  constructor
  · rintro ⟨hlength, hpicks⟩
    refine ⟨Body.omitted picks, fun i hi => ?_, Body.keeping_omitted hlength fun i hi => ?_⟩
    · have hpick : i < picks.length := Body.lt_of_mem_omitted hi
      have hw : i < w.length := by omega
      refine ⟨w[i], List.getElem?_eq_getElem hw, ?_⟩
      rcases mem_choices.1 (hpicks i hpick hw) with hkept | ⟨-, hmarked⟩
      · have hnone : picks[i] = none := (Body.mem_omitted hpick).1 hi
        rw [List.get_eq_getElem, hnone] at hkept
        cases hkept
      · exact hmarked
    · exact (mem_choices.1 (hpicks i hi (by omega))).imp_right fun h => h.1
  · rintro ⟨deleted, hdeleted, rfl⟩
    refine ⟨List.length_mapIdx, fun i hpick hw => mem_choices.2 ?_⟩
    have hget : (w.keeping deleted).get ⟨i, hpick⟩ = if i ∈ deleted then none else some w[i] :=
      List.getElem_mapIdx ..
    rw [hget]
    by_cases hi : i ∈ deleted
    · obtain ⟨s, hs, hmarked⟩ := hdeleted i hi
      rw [List.getElem?_eq_getElem hw, Option.some_inj] at hs
      exact Or.inr ⟨if_pos hi, by rwa [List.get_eq_getElem, hs]⟩
    · exact Or.inl (if_neg hi)

/-- What the combinations leave of a body, unless nothing is left. -/
def combinedVariants (combine : Combinations) (nullable : OrderedSet Nonterminal) (w : Body) : List Body :=
  ((combine (w.map (choices nullable))).map List.reduceOption).filter fun v => !v.isEmpty

theorem mem_combinedVariants (hcombine : combine.Complete) {v w : Body} :
    v ∈ combinedVariants combine N w ↔ v ≠ [] ∧
      ∃ deleted : Finset ℕ, (∀ i ∈ deleted, ∃ s, w[i]? = some s ∧ isMarked N s) ∧ w.deleting deleted = v := by
  simp only [combinedVariants, List.mem_filter, List.mem_map, Bool.not_eq_true', List.isEmpty_eq_false_iff]
  constructor
  · rintro ⟨⟨picks, hpicks, rfl⟩, hne⟩
    obtain ⟨deleted, hdeleted, rfl⟩ := forall₂_choices_iff.1 (hcombine.sound hpicks)
    exact ⟨hne, deleted, hdeleted, rfl⟩
  · rintro ⟨hne, deleted, hdeleted, rfl⟩
    -- Something is left of the body, so there is something to combine.
    have hw : w.map (choices N) ≠ [] := by
      rw [Ne, List.map_eq_nil_iff]
      rintro rfl
      exact hne rfl
    exact ⟨⟨_, hcombine.complete hw (forall₂_choices_iff.2 ⟨deleted, hdeleted, rfl⟩), rfl⟩, hne⟩

/-- The choices one after the other leave the variants in their order. -/
theorem variants_eq_lexicographic (w : Body) :
    (Combinations.lexicographic (w.map (choices N))).map List.reduceOption = variants N w := by
  induction w with
  | nil => rfl
  | cons s w ih =>
    have hkept : ((Combinations.lexicographic (w.map (choices N))).map (some s :: ·)).map List.reduceOption =
        (variants N w).map (s :: ·) := by
      rw [← ih, List.map_map, List.map_map]
      rfl
    have hdeleted : ((Combinations.lexicographic (w.map (choices N))).map (none :: ·)).map List.reduceOption =
        variants N w := by
      rw [← ih, List.map_map]
      rfl
    simp only [List.map_cons, Combinations.lexicographic, variants]
    by_cases hs : isMarked N s
    · have hchoices : choices N s = [some s, none] := if_pos hs
      rw [hchoices, if_pos hs, List.flatMap_cons, List.flatMap_singleton, List.map_append, hkept, hdeleted]
    · have hchoices : choices N s = [some s] := if_neg hs
      rw [hchoices, if_neg hs, List.flatMap_singleton, hkept]

/-! ### Rewriting the map of productions -/

/-- What is left of all bodies of an owner. -/
def expanded (combine : Combinations) (nullable : OrderedSet Nonterminal) (bodies : OrderedSet Body) :
    OrderedSet Body :=
  .ofList (bodies.toList.flatMap (combinedVariants combine nullable))

/-- Rewrites the bodies of each owner, without those owners that keep none.  A nullable start symbol gets the empty body
afterwards, be it an owner by then or not. -/
def erasedMap (G : Grammar) (combine : Combinations) : SetMap Body :=
  let nullable := G.nullable.facts
  let kept := G.productions.toSetMap.mapNonempty (expanded combine nullable)
  if G.start ∈ nullable then kept.add G.start [] else kept

/-- The rules of the map `erasedMap`. -/
def erasedProductions (G : Grammar) (combine : Combinations) : Productions Body :=
  let nullable := G.nullable.facts
  let kept := Productions.ofFamily G.owners fun A => expanded combine nullable (G.bodies A)
  if G.start ∈ nullable then kept.insert ⟨G.start, []⟩ else kept

theorem toSetMap_erasedProductions : (G.erasedProductions combine).toSetMap = G.erasedMap combine := by
  have hkept : (Productions.ofFamily G.owners fun A => expanded combine G.nullable.facts (G.bodies A)).toSetMap =
      G.productions.toSetMap.mapNonempty (expanded combine G.nullable.facts) := by
    rw [Productions.toSetMap_ofFamily]
    exact (SetMap.mapNonempty_ofFamily _).symm
  unfold erasedProductions erasedMap
  simp only [← hkept]
  split
  · exact Productions.toSetMap_insert ..
  · rfl

theorem erasedProductions_lexicographic (G : Grammar) :
    G.erasedProductions .lexicographic = G.withoutErasing.productions := by
  have hexpanded : ∀ N A, expanded .lexicographic N (G.bodies A) = G.expandedBodies N A := by
    intro N A
    unfold expanded expandedBodies combinedVariants nonemptyVariants
    simp only [variants_eq_lexicographic]
  unfold erasedProductions withoutErasing
  simp only [hexpanded]

/-! ### What is left -/

/-- Deleting some occurrences of nullable nonterminals, possibly none, turns `w` into `v`. -/
def Deletes (G : Grammar) (w v : Body) : Prop :=
  ∃ deleted : Finset ℕ, (∀ i ∈ deleted, ∃ B, w[i]? = some (.nonterminal B) ∧ G.Generates B []) ∧
    w.deleting deleted = v

/-- The body `v` is to be left to `A`. -/
def Leaves (G : Grammar) (A : Nonterminal) (v : Body) : Prop :=
  (v ≠ [] ∧ ∃ w ∈ G.bodies A, G.Deletes w v) ∨ (v = [] ∧ A = G.start ∧ G.Generates G.start [])

theorem mem_combinedVariants_nullable (hcombine : combine.Complete) {v w : Body} :
    v ∈ combinedVariants combine G.nullable.facts w ↔ v ≠ [] ∧ G.Deletes w v := by
  have hnullable : ∀ i : ℕ, (∃ s, w[i]? = some s ∧ isMarked G.nullable.facts s) ↔
      ∃ B, w[i]? = some (.nonterminal B) ∧ G.Generates B [] := by
    intro i
    constructor
    · rintro ⟨s, hs, hmarked⟩
      obtain ⟨B, rfl, hB⟩ := isMarked_iff.1 hmarked
      exact ⟨B, hs, mem_nullable.1 hB⟩
    · rintro ⟨B, hs, hB⟩
      exact ⟨_, hs, isMarked_iff.2 ⟨B, rfl, mem_nullable.2 hB⟩⟩
  rw [mem_combinedVariants hcombine]
  simp only [hnullable]
  rfl

theorem mem_erasedProductions (hcombine : combine.Complete) {A : Nonterminal} {v : Body} :
    ⟨A, v⟩ ∈ G.erasedProductions combine ↔ G.Leaves A v := by
  have hkept : ⟨A, v⟩ ∈ Productions.ofFamily G.owners (fun A => expanded combine G.nullable.facts (G.bodies A)) ↔
      v ≠ [] ∧ ∃ w ∈ G.bodies A, G.Deletes w v := by
    simp only [Productions.mem_ofFamily, expanded, OrderedSet.mem_ofList, List.mem_flatMap, OrderedSet.mem_toList,
      mem_combinedVariants_nullable hcombine]
    constructor
    · rintro ⟨-, w, hw, hne, hv⟩
      exact ⟨hne, w, hw, hv⟩
    · rintro ⟨hne, w, hw, hv⟩
      exact ⟨mem_owners.2 ⟨w, mem_bodies.1 hw⟩, w, hw, hne, hv⟩
  unfold erasedProductions Leaves
  rw [← hkept]
  by_cases hstart : G.start ∈ G.nullable.facts
  · have hempty : G.Generates G.start [] := mem_nullable.1 hstart
    simp only [hstart, ↓reduceIte, OrderedSet.mem_insert, Rule.mk.injEq, hempty, and_true]
    rw [and_comm (a := v = [])]
  · have hempty : ¬ G.Generates G.start [] := fun h => hstart (mem_nullable.2 h)
    simp only [hstart, ↓reduceIte, hempty, and_false, or_false]

/-- Whatever enumeration of all combinations is used, the rewritten map gives an owner exactly the nonempty words that
its bodies become when some occurrences of nullable nonterminals are deleted, and the empty word to the start symbol if
it is nullable.  The owners are those that are left any body, and the declared symbols stay as they are. -/
theorem withoutErasing_exactly (G : Grammar) {combine : Combinations} (hcombine : combine.Complete) :
    (G.erasedMap combine).Holds G.Leaves ∧
    (∀ A, A ∈ G.withoutErasing.owners ↔ ∃ v, G.Leaves A v) ∧
    (∀ A v, v ∈ G.withoutErasing.bodies A ↔ G.Leaves A v) ∧
    G.withoutErasing.start = G.start ∧ G.withoutErasing.nonterminals = G.nonterminals ∧
    G.withoutErasing.terminals = G.terminals := by
  have hrules : ∀ A v, ⟨A, v⟩ ∈ G.withoutErasing.productions ↔ G.Leaves A v := by
    intro A v
    rw [← erasedProductions_lexicographic]
    exact mem_erasedProductions Combinations.complete_lexicographic
  refine ⟨?_, fun A => ?_, fun A v => mem_bodies.trans (hrules A v), rfl, rfl, rfl⟩
  · have hholds := Productions.holds_toSetMap (G.erasedProductions combine)
    simp only [mem_erasedProductions hcombine] at hholds
    rwa [toSetMap_erasedProductions] at hholds
  · simp only [mem_owners, hrules]

/-- `S → ε` and `A → SdS`, where `S` is all that is nullable. -/
def surrounded : Grammar :=
  let S : Nonterminal := ⟨.ofChar 'S'⟩
  let A : Nonterminal := ⟨.ofChar 'A'⟩
  (ofStart S).addAll [⟨S, []⟩, ⟨A, [.nonterminal S, .terminal ⟨.ofChar 'd'⟩, .nonterminal S]⟩]

theorem withoutErasing_exactly_surrounded : Combinations.lexicographic.Complete ∧
    (surrounded.erasedMap .lexicographic).Holds surrounded.Leaves ∧
    (∀ A, A ∈ surrounded.withoutErasing.owners ↔ ∃ v, surrounded.Leaves A v) ∧
    (∀ A v, v ∈ surrounded.withoutErasing.bodies A ↔ surrounded.Leaves A v) ∧
    surrounded.withoutErasing.start = surrounded.start ∧
    surrounded.withoutErasing.nonterminals = surrounded.nonterminals ∧
    surrounded.withoutErasing.terminals = surrounded.terminals :=
  ⟨Combinations.complete_lexicographic, withoutErasing_exactly surrounded Combinations.complete_lexicographic⟩

/-- The start symbol owns nothing any more until it gets its empty body back. -/
example : ((surrounded.erasedMap .lexicographic).entries.map fun e => (e.1.text, e.2.toList.map Body.text)) =
    [("A", ["SdS", "Sd", "dS", "d"]), ("S", ["ε"])] := by
  have hnullable : surrounded.nullable.facts = .singleton ⟨.ofChar 'S'⟩ := OrderedSet.ext (by cbv)
  unfold erasedMap
  rw [hnullable]
  decide

end Grammar

end NormalGrammar
