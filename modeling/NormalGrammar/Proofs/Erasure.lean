import NormalGrammar.Proofs.Marked

/-!
# Words after the removal of erasing productions

A variant of a body leaves out occurrences of nullable symbols, so it is read as nothing but words of the body
(`reads_of_mem_variants`), and every word of the body is read from the variant that leaves out what is read as the
empty word (`exists_variant`).  Hence `withoutErasing` adds no words (`Generates.of_withoutErasing`), and every
nonterminal keeps its nonempty words even without the empty body of the start symbol (`Generates.withoutErasing`).
-/

namespace NormalGrammar

namespace Grammar

variable {G : Grammar} {N : OrderedSet Nonterminal} {I J : Interpretation}

/-! ### Variants of a body -/

theorem mem_variants_cons {s : Symbol} {v w : Body} :
    v ∈ variants N (s :: w) ↔ (∃ u ∈ variants N w, s :: u = v) ∨ (isMarked N s ∧ v ∈ variants N w) := by
  simp only [variants]
  by_cases h : isMarked N s
  · simp [h]
  · simp [h]

theorem self_mem_variants (w : Body) : w ∈ variants N w := by
  induction w with
  | nil => simp [variants]
  | cons s w ih => exact mem_variants_cons.2 (Or.inl ⟨w, ih, rfl⟩)

theorem mem_of_mem_variants {v w : Body} (h : v ∈ variants N w) {s : Symbol} (hs : s ∈ v) : s ∈ w := by
  induction w generalizing v with
  | nil =>
    rw [variants, List.mem_singleton] at h
    rwa [h] at hs
  | cons t w ih =>
    rcases mem_variants_cons.1 h with ⟨u, hu, rfl⟩ | ⟨-, hv⟩
    · rcases List.mem_cons.1 hs with rfl | hs
      · exact List.mem_cons_self
      · exact List.mem_cons_of_mem _ (ih hu hs)
    · exact List.mem_cons_of_mem _ (ih hv hs)

/-- More nullable symbols leave more variants. -/
theorem variants_mono {M : OrderedSet Nonterminal} (h : ∀ A ∈ M, A ∈ N) {v w : Body} (hv : v ∈ variants M w) :
    v ∈ variants N w := by
  induction w generalizing v with
  | nil => exact hv
  | cons s w ih =>
    rcases mem_variants_cons.1 hv with ⟨u, hu, rfl⟩ | ⟨hs, hrest⟩
    · exact mem_variants_cons.2 (Or.inl ⟨u, ih hu, rfl⟩)
    · obtain ⟨A, rfl, hA⟩ := isMarked_iff.1 hs
      exact mem_variants_cons.2 (Or.inr ⟨isMarked_iff.2 ⟨A, rfl, h A hA⟩, ih hrest⟩)

/-- The words of a variant are words of the body. -/
theorem reads_of_mem_variants (hN : ∀ A ∈ N, I A []) {v w : Body} {x : Word} (h : v ∈ variants N w)
    (hx : Reads I v x) : Reads I w x := by
  induction w generalizing v x with
  | nil =>
    rw [variants, List.mem_singleton] at h
    rwa [h] at hx
  | cons s w ih =>
    rcases mem_variants_cons.1 h with ⟨u, hu, rfl⟩ | ⟨hs, hv⟩
    · obtain ⟨y, z, rfl, hy, hz⟩ := reads_cons.1 hx
      exact reads_cons.2 ⟨y, z, rfl, hy, ih hu hz⟩
    · obtain ⟨A, rfl, hA⟩ := isMarked_iff.1 hs
      exact ⟨[], x, rfl, hN A hA, ih hv hx⟩

/-- A word of a body is a word of one of its variants, in which no nonterminal stands for the empty word. -/
theorem exists_variant {w : Body} {x : Word}
    (h : Reads (fun A y => (y = [] → A ∈ N) ∧ (y ≠ [] → J A y)) w x) : ∃ v ∈ variants N w, Reads J v x := by
  induction w generalizing x with
  | nil => exact ⟨[], self_mem_variants [], h⟩
  | cons s w ih =>
    cases s with
    | terminal t =>
      obtain ⟨y, rfl, hy⟩ := h
      obtain ⟨v, hv, hread⟩ := ih hy
      exact ⟨.terminal t :: v, mem_variants_cons.2 (Or.inl ⟨v, hv, rfl⟩), y, rfl, hread⟩
    | nonterminal A =>
      obtain ⟨y, z, rfl, ⟨hempty, hword⟩, hz⟩ := h
      obtain ⟨v, hv, hread⟩ := ih hz
      -- What stands for the empty word is left out, anything else is kept.
      by_cases hy : y = []
      · subst hy
        have hA : isMarked N (.nonterminal A) := isMarked_iff.2 ⟨A, rfl, hempty rfl⟩
        exact ⟨v, mem_variants_cons.2 (Or.inr ⟨hA, hv⟩), hread⟩
      · exact ⟨.nonterminal A :: v, mem_variants_cons.2 (Or.inl ⟨v, hv, rfl⟩), y, z, rfl, hword hy, hread⟩

/-! ### The grammar without erasing productions -/

theorem mem_expandedBodies {A : Nonterminal} {v : Body} :
    v ∈ G.expandedBodies N A ↔ v ≠ [] ∧ ∃ w, ⟨A, w⟩ ∈ G.productions ∧ v ∈ variants N w := by
  simp only [expandedBodies, OrderedSet.mem_ofList, List.mem_flatMap, OrderedSet.mem_toList, mem_bodies,
    nonemptyVariants, List.mem_filter, Bool.not_eq_true', List.isEmpty_eq_false_iff]
  constructor
  · rintro ⟨w, hw, hv, hne⟩
    exact ⟨hne, w, hw, hv⟩
  · rintro ⟨hne, w, hw, hv⟩
    exact ⟨w, hw, hv, hne⟩

/-- The rules are the nonempty variants, and the empty body of a nullable start symbol. -/
theorem mem_withoutErasing {r : Rule Body} : r ∈ G.withoutErasing.productions ↔
    (r.body ≠ [] ∧ ∃ w, ⟨r.owner, w⟩ ∈ G.productions ∧ r.body ∈ variants G.nullable.facts w) ∨
      (r = ⟨G.start, []⟩ ∧ G.Generates G.start []) := by
  have hexpanded : r ∈ Productions.ofFamily G.owners (G.expandedBodies G.nullable.facts) ↔
      r.body ≠ [] ∧ ∃ w, ⟨r.owner, w⟩ ∈ G.productions ∧ r.body ∈ variants G.nullable.facts w := by
    rw [Productions.mem_ofFamily, mem_expandedBodies, mem_owners]
    constructor
    · exact fun h => h.2
    · rintro ⟨hne, w, hw, hv⟩
      exact ⟨⟨w, hw⟩, hne, w, hw, hv⟩
  rw [← hexpanded]
  unfold withoutErasing
  by_cases hstart : G.start ∈ G.nullable.facts
  · simp only [hstart, ↓reduceIte, OrderedSet.mem_insert, mem_nullable.1 hstart, and_true]
  · have hempty : ¬ G.Generates G.start [] := fun h => hstart (mem_nullable.2 h)
    simp only [hstart, ↓reduceIte, hempty, and_false, or_false]

@[simp] theorem withoutErasing_start : G.withoutErasing.start = G.start := rfl

@[simp] theorem withoutErasing_nonterminals : G.withoutErasing.nonterminals = G.nonterminals := rfl

@[simp] theorem withoutErasing_terminals : G.withoutErasing.terminals = G.terminals := rfl

/-- Only the start symbol keeps an empty body, if it is nullable. -/
theorem empty_mem_withoutErasing {A : Nonterminal} :
    ⟨A, []⟩ ∈ G.withoutErasing.productions ↔ A = G.start ∧ G.Generates G.start [] := by
  rw [mem_withoutErasing]
  simp

/-- The removal of erasing productions adds no words. -/
theorem Generates.of_withoutErasing {A : Nonterminal} {x : Word} (h : G.withoutErasing.Generates A x) :
    G.Generates A x := by
  refine h.interpret fun r hr y hy => ?_
  rcases mem_withoutErasing.1 hr with ⟨-, w, hw, hv⟩ | ⟨rfl, hstart⟩
  · have hnullable : ∀ B ∈ G.nullable.facts, G.Generates B [] := fun B hB => mem_nullable.1 hB
    exact .of_rule hw (reads_of_mem_variants hnullable hv hy)
  · rw [reads_nil.1 hy]
    exact hstart

/-- Nonempty words are derived without any empty body. -/
theorem Generates.withoutErasing {A : Nonterminal} {x : Word} (h : G.Generates A x) (hx : x ≠ []) :
    G.withoutErasing.withoutEmptyBodies.Generates A x := by
  refine h.interpret_and (I := fun A x => x ≠ [] → G.withoutErasing.withoutEmptyBodies.Generates A x)
    (fun r hr x hread hx => ?_) hx
  have hsplit : Reads (fun B y => (y = [] → B ∈ G.nullable.facts) ∧
      (y ≠ [] → G.withoutErasing.withoutEmptyBodies.Generates B y)) r.body x := by
    refine hread.mono fun B y hB => ⟨fun e => ?_, hB.2⟩
    subst e
    exact mem_nullable.2 hB.1
  obtain ⟨v, hv, hword⟩ := exists_variant hsplit
  have hne : v ≠ [] := by
    rintro rfl
    exact hx (reads_nil.1 hword)
  have hrule : ⟨r.owner, v⟩ ∈ G.withoutErasing.productions :=
    mem_withoutErasing.2 (Or.inl ⟨hne, r.body, hr, hv⟩)
  exact .of_rule (mem_withoutEmptyBodies.2 ⟨hrule, hne⟩) hword

theorem withoutErasing_generates {A : Nonterminal} {x : Word} (hx : x ≠ []) :
    G.withoutErasing.Generates A x ↔ G.Generates A x :=
  ⟨fun h => h.of_withoutErasing, fun h => (h.withoutErasing hx).of_withoutEmptyBodies⟩

theorem empty_generates_withoutErasing : G.withoutErasing.Generates G.start [] ↔ G.Generates G.start [] :=
  ⟨fun h => h.of_withoutErasing, fun h => .of_rule (empty_mem_withoutErasing.2 ⟨rfl, h⟩) rfl⟩

/-- In any grammar, valid or not, the removal of erasing productions leaves an empty body to the start symbol at most,
keeps the nonempty words of every nonterminal, and lets the start symbol derive the empty word as before. -/
theorem withoutErasing_keeps_words (G : Grammar) :
    (∀ A, ⟨A, []⟩ ∈ G.withoutErasing.productions → A = G.withoutErasing.start) ∧
      (∀ A x, x ≠ [] → (G.withoutErasing.Generates A x ↔ G.Generates A x)) ∧
      (G.withoutErasing.Generates G.withoutErasing.start [] ↔ G.Generates G.start []) :=
  ⟨fun _ hA => (empty_mem_withoutErasing.1 hA).1, fun _ _ hx => withoutErasing_generates hx,
    empty_generates_withoutErasing⟩

end Grammar

end NormalGrammar
