import NormalGrammar.Proofs.DerivationTrees
import NormalGrammar.Proofs.Validity

/-!
# What the removal of unit productions keeps

An empty body stays with its owner, so the removal of unit productions by itself keeps the words of those trees in which
the target of a unit production is never erased at once (`withoutUnits_exactly`).  The erased target of
`S → aA | ε`, `A → S` is needed for the word `a`, which is lost.  Behind the removal of erasing productions nothing is
lost (`withoutErasing_withoutUnits_keeps_words`), as every nonempty word is then derived without an empty body.
-/

namespace NormalGrammar

namespace Grammar

variable {G : Grammar}

/-! ### Trees that spare the targets of unit productions -/

/-- The roots of the forest are a body of the nonterminal above it, and they are not just a nonterminal that is erased
in its turn. -/
def HasSparingNode (G : Grammar) (A : Nonterminal) (children : Forest) : Prop :=
  G.HasNode A children ∧ ∀ B, children ≠ .node B .empty .empty

/-- A tree with something below its root grows a new root for every unit production that leads to it. -/
private theorem exists_sparing_of_unitReaches {A B : Nonterminal} (h : G.UnitReaches A B) {children : Forest}
    (hne : children ≠ .empty) (hnode : G.HasSparingNode B children) (hbelow : children.Everywhere G.HasSparingNode) :
    ∃ above, above ≠ .empty ∧ G.HasSparingNode A above ∧ above.Everywhere G.HasSparingNode ∧
      above.word = children.word := by
  induction h using Relation.ReflTransGen.head_induction_on with
  | refl => exact ⟨children, hne, hnode, hbelow, rfl⟩
  | @head A C hstep _ ih =>
    obtain ⟨above, habove, htop, hrest, hword⟩ := ih
    refine ⟨.node C above .empty, by simp, ⟨hstep, fun D e => habove ?_⟩, ⟨htop, hrest, trivial⟩, ?_⟩
    · exact (Forest.node.inj e).2.1
    · rw [← hword]
      exact List.append_nil _

/-- The bodies that a nonterminal takes over stand on trees that spare the targets of unit productions. -/
theorem words_of_withoutUnits (hG : G.Valid) {A : Nonterminal} {x : Word} (h : G.withoutUnits.Generates A x) :
    Forest.words G.HasSparingNode A x := by
  refine h.interpret fun r hr y hy => ?_
  obtain ⟨-, B, hreach, hB, hunit, hempty⟩ := (mem_withoutUnits hG).1 hr
  obtain ⟨f, hroots, hbelow, rfl⟩ := Forest.exists_of_reads hy
  have hnode : G.HasSparingNode B f := by
    refine ⟨?_, fun C e => ?_⟩
    · unfold HasNode
      rw [hroots]
      exact hB
    · rw [← hroots, e] at hunit
      cases hunit
  by_cases hf : f = .empty
  · -- An empty body is the owner's own.
    have howner : B = r.owner := hempty (by rw [← hroots, hf]; rfl)
    rw [howner] at hnode
    exact ⟨f, hnode, hbelow, rfl⟩
  · obtain ⟨above, -, htop, hrest, hword⟩ := exists_sparing_of_unitReaches hreach hf hnode hbelow
    exact ⟨above, htop, hrest, hword⟩

/-- The word below a node is read from a body that its root has in the end, an empty one only if nothing stands
below. -/
private def HasBodyInEnd (G : Grammar) (A : Nonterminal) (children : Forest) : Prop :=
  ∃ w, ⟨A, w⟩ ∈ G.withoutUnits.productions ∧ (children ≠ .empty → w ≠ []) ∧
    Reads G.withoutUnits.Generates w children.word

private theorem hasBodyInEnd (hG : G.Valid) {A : Nonterminal} {children : Forest} (hnode : G.HasSparingNode A children)
    (hbelow : children.Everywhere G.HasBodyInEnd) : G.HasBodyInEnd A children := by
  obtain ⟨hrule, hspared⟩ := hnode
  have hread : Reads G.withoutUnits.Generates children.roots children.word :=
    Forest.reads_of_everywhere (hbelow.imp fun _ _ ⟨_, hw, _, hword⟩ _ _ => .of_rule hw hword)
  cases hunit : children.roots.unit? with
  | none =>
    have hkept : ⟨A, children.roots⟩ ∈ G.withoutUnits.productions :=
      (mem_withoutUnits hG).2 ⟨hG.owner _ hrule, A, .refl, hrule, hunit, fun _ => rfl⟩
    exact ⟨children.roots, hkept, fun hne e => hne (Forest.roots_eq_nil.1 e), hread⟩
  | some B =>
    -- The child is not erased, so it has its word from a nonempty body, which the node takes over.
    have hroots := Body.unit?_eq_some.1 hunit
    obtain ⟨below, rfl⟩ := Forest.roots_eq_unit.1 hroots
    obtain ⟨⟨w, hw, hne, hword⟩, -⟩ := hbelow
    have hfull : w ≠ [] := hne fun e => hspared B (by rw [e])
    refine ⟨w, mem_withoutUnits_of_step hG hrule hw hfull, fun _ => hfull, ?_⟩
    rw [Forest.word, Forest.word, List.append_nil]
    exact hword

/-- Exactly the words of the trees that spare the targets of unit productions are left. -/
theorem withoutUnits_generates_iff_tree (hG : G.Valid) {A : Nonterminal} {x : Word} :
    G.withoutUnits.Generates A x ↔ Forest.words G.HasSparingNode A x := by
  constructor
  · exact words_of_withoutUnits hG
  · rintro ⟨children, hnode, hchildren, rfl⟩
    have hbelow : children.Everywhere G.HasBodyInEnd := hchildren.imp fun _ _ hnode _ => hasBodyInEnd hG hnode
    obtain ⟨w, hw, -, hword⟩ := hasBodyInEnd hG hnode hbelow
    exact .of_rule hw hword

/-- If no unit production leads to an owner of an empty body, all trees are of this kind. -/
theorem sparing_of_node (h : ∀ A B, G.UnitStep A B → ¬ (⟨B, []⟩ : Rule Body) ∈ G.productions) {A : Nonterminal}
    {children : Forest} (hnode : G.HasNode A children) (hbelow : children.Everywhere G.HasNode) :
    G.HasSparingNode A children := by
  refine ⟨hnode, fun B e => ?_⟩
  rw [e] at hnode hbelow
  exact h A B hnode hbelow.1

theorem not_unitStep_withoutUnits (hG : G.Valid) (A B : Nonterminal) : ¬ G.withoutUnits.UnitStep A B := by
  intro h
  obtain ⟨-, C, -, -, hunit, -⟩ := (mem_withoutUnits hG).1 h
  cases hunit

/-- Without its unit productions a grammar has no body of a single nonterminal, and derives the words of those trees in
which no unit production leads to a nonterminal that is erased at once.  So it derives no other words than before, and
all of them if no unit production leads to an owner of an empty body. -/
theorem withoutUnits_exactly (G : Grammar) (h : G.validate = .ok ()) :
    (∀ A B, ¬ G.withoutUnits.UnitStep A B) ∧
      (∀ A x, G.withoutUnits.Generates A x ↔ Forest.words G.HasSparingNode A x) ∧
      (∀ A x, G.withoutUnits.Generates A x → G.Generates A x) ∧
      ((∀ A B, G.UnitStep A B → ¬ (⟨B, []⟩ : Rule Body) ∈ G.productions) →
        ∀ A x, G.withoutUnits.Generates A x ↔ G.Generates A x) := by
  have hG := validate_eq_ok.1 h
  refine ⟨not_unitStep_withoutUnits hG, fun A x => withoutUnits_generates_iff_tree hG,
    fun A x hx => hx.of_withoutUnits hG, fun hspared A x => ⟨fun hx => hx.of_withoutUnits hG, fun hx => ?_⟩⟩
  obtain ⟨children, hnode, hchildren, rfl⟩ := generates_iff_tree.1 hx
  have hbelow : children.Everywhere G.HasSparingNode :=
    hchildren.imp fun _ _ hnode hbelow _ => sparing_of_node hspared hnode hbelow
  exact (withoutUnits_generates_iff_tree hG).2 ⟨children, sparing_of_node hspared hnode hchildren, hbelow, rfl⟩

/-- `S → A | ε`, `A → aAb | B` and `B → A | ab`, with a cycle of units in front of which `S` is erased. -/
def nested : Grammar :=
  let S : Nonterminal := ⟨.ofChar 'S'⟩
  let A : Nonterminal := ⟨.ofChar 'A'⟩
  let B : Nonterminal := ⟨.ofChar 'B'⟩
  let a : Terminal := ⟨.ofChar 'a'⟩
  let b : Terminal := ⟨.ofChar 'b'⟩
  (ofStart S).addAll
    [⟨S, [.nonterminal A]⟩, ⟨S, []⟩, ⟨A, [.terminal a, .nonterminal A, .terminal b]⟩, ⟨A, [.nonterminal B]⟩,
      ⟨B, [.nonterminal A]⟩, ⟨B, [.terminal a, .terminal b]⟩]

/-- Only `S` is erased, and no unit production leads to it. -/
theorem withoutUnits_exactly_nested : nested.validate = .ok () ∧
    (∀ A B, nested.UnitStep A B → ¬ (⟨B, []⟩ : Rule Body) ∈ nested.productions) ∧
    (∀ A B, ¬ nested.withoutUnits.UnitStep A B) ∧
    ∀ A x, (nested.withoutUnits.Generates A x ↔ Forest.words nested.HasSparingNode A x) ∧
      (nested.withoutUnits.Generates A x ↔ nested.Generates A x) := by
  have hvalid : nested.validate = .ok () := by decide
  obtain ⟨hunits, htrees, -, hall⟩ := withoutUnits_exactly nested hvalid
  have hspared : ∀ A B, nested.UnitStep A B → ¬ (⟨B, []⟩ : Rule Body) ∈ nested.productions := by
    have hrules : ∀ r ∈ nested.productions.toList, ∀ q ∈ nested.productions.toList,
        r.body = [.nonterminal q.owner] → q.body ≠ [] := by decide
    exact fun A B hstep hB => hrules _ hstep _ hB rfl rfl
  exact ⟨hvalid, hspared, hunits, fun A x => ⟨htrees A x, hall hspared A x⟩⟩

/-- `S → aA | ε` and `A → S`, where `a` is derived by erasing the target of the unit production. -/
def erasedTarget : Grammar :=
  let S : Nonterminal := ⟨.ofChar 'S'⟩
  let A : Nonterminal := ⟨.ofChar 'A'⟩
  let a : Terminal := ⟨.ofChar 'a'⟩
  (ofStart S).addAll [⟨S, [.terminal a, .nonterminal A]⟩, ⟨S, []⟩, ⟨A, [.nonterminal S]⟩]

/-- A valid grammar in which the start symbol alone owns an empty body can lose a word. -/
theorem withoutUnits_loses_word : erasedTarget.validate = .ok () ∧
    (∀ A, ⟨A, []⟩ ∈ erasedTarget.productions → A = erasedTarget.start) ∧
    erasedTarget.Generates erasedTarget.start [⟨.ofChar 'a'⟩] ∧
    ¬ erasedTarget.withoutUnits.Generates erasedTarget.withoutUnits.start [⟨.ofChar 'a'⟩] := by
  have hvalid : erasedTarget.validate = .ok () := by decide
  refine ⟨hvalid, ?_, ?_, fun h => ?_⟩
  · have hrules : ∀ r ∈ erasedTarget.productions.toList, r.body = [] → r.owner = erasedTarget.start := by decide
    exact fun A hA => hrules _ hA rfl
  · have hempty : erasedTarget.Generates erasedTarget.start [] := .of_rule (w := []) (by decide) rfl
    have hunit : erasedTarget.Generates ⟨.ofChar 'A'⟩ [] :=
      .of_rule (w := [.nonterminal erasedTarget.start]) (by decide) (reads_unit.2 hempty)
    exact .of_rule (w := [.terminal ⟨.ofChar 'a'⟩, .nonterminal ⟨.ofChar 'A'⟩]) (by decide)
      ⟨[], rfl, reads_unit.2 hunit⟩
  · -- What is left are the bodies `aA` of both and the empty one of `S`, so `A` has no word at all.
    have hrules : ∀ q ∈ erasedTarget.productions.toList, q.body.unit? = none →
        (q.owner = erasedTarget.start ∧ q.body = []) ∨ ∃ A ∈ q.body.nonterminals, A ≠ erasedTarget.start := by decide
    have hword := h.interpret (I := fun A x => A = erasedTarget.start ∧ x = []) fun r hr y hy => by
      obtain ⟨-, B, -, hB, hunit, howner⟩ := (mem_withoutUnits (validate_eq_ok.1 hvalid)).1 hr
      rcases hrules _ hB hunit with ⟨hstart, hempty⟩ | ⟨A, hA, hne⟩
      · simp only at hstart hempty
        rw [hempty] at hy
        exact ⟨(howner hempty).symm.trans hstart, reads_nil.1 hy⟩
      · obtain ⟨_, hstart, -⟩ := hy.exists_word (Body.mem_nonterminals.1 hA)
        exact absurd hstart hne
    simp at hword

/-! ### Behind the removal of erasing productions -/

/-- Without its erasing productions and then its units, a grammar has no body of a single nonterminal and an empty body
at most for its start symbol.  Every nonterminal keeps its nonempty words, and the start symbol derives the empty word
as before. -/
theorem withoutErasing_withoutUnits_keeps_words (G : Grammar) (h : G.validate = .ok ()) :
    (∀ A B, ¬ G.withoutErasing.withoutUnits.UnitStep A B) ∧
      (∀ A, ⟨A, []⟩ ∈ G.withoutErasing.withoutUnits.productions → A = G.withoutErasing.withoutUnits.start) ∧
      (∀ A x, x ≠ [] → (G.withoutErasing.withoutUnits.Generates A x ↔ G.Generates A x)) ∧
      (G.withoutErasing.withoutUnits.Generates G.withoutErasing.withoutUnits.start [] ↔ G.Generates G.start []) := by
  have hG := validate_eq_ok.1 h
  have hunits := hG.withoutErasing
  refine ⟨not_unitStep_withoutUnits hunits, fun A hA => ?_, fun A x hx => ⟨fun hword => ?_, fun hword => ?_⟩, ?_⟩
  · exact (empty_mem_withoutErasing.1 ((empty_mem_withoutUnits hunits).1 hA)).1
  · exact (hword.of_withoutUnits hunits).of_withoutErasing
  · exact ((hword.withoutErasing hx).withoutUnits hunits).of_withoutEmptyBodies
  · constructor
    · exact fun hword => (hword.of_withoutUnits hunits).of_withoutErasing
    · intro hword
      exact .of_rule ((empty_mem_withoutUnits hunits).2 (empty_mem_withoutErasing.2 ⟨rfl, hword⟩)) rfl

theorem withoutErasing_withoutUnits_keeps_words_erasedTarget : erasedTarget.validate = .ok () ∧
    (∀ A B, ¬ erasedTarget.withoutErasing.withoutUnits.UnitStep A B) ∧
    (∀ A, ⟨A, []⟩ ∈ erasedTarget.withoutErasing.withoutUnits.productions →
      A = erasedTarget.withoutErasing.withoutUnits.start) ∧
    (∀ A x, x ≠ [] → (erasedTarget.withoutErasing.withoutUnits.Generates A x ↔ erasedTarget.Generates A x)) ∧
    (erasedTarget.withoutErasing.withoutUnits.Generates erasedTarget.withoutErasing.withoutUnits.start [] ↔
      erasedTarget.Generates erasedTarget.start []) := by
  have hvalid : erasedTarget.validate = .ok () := by decide
  exact ⟨hvalid, withoutErasing_withoutUnits_keeps_words erasedTarget hvalid⟩

end Grammar

end NormalGrammar
