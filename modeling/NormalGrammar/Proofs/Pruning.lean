import Mathlib.Logic.Relation
import NormalGrammar.Accessibility
import NormalGrammar.Proofs.Marked

/-!
# Words after the removal of useless symbols

The accessible nonterminals are those that the start symbol reaches through bodies (`mem_accessible`).  Pruning only
takes rules away, and none that a derivation from a remaining nonterminal can use: a rule that it uses belongs to a
symbol that is reached, and all symbols of its body derive something (`Generates.transfer`).
-/

namespace NormalGrammar

namespace Grammar

variable {G K H : Grammar}

/-! ### Accessible nonterminals -/

/-- `B` occurs in a body of `A`. -/
def Leads (G : Grammar) (A B : Nonterminal) : Prop := ∃ w, ⟨A, w⟩ ∈ G.productions ∧ .nonterminal B ∈ w

/-- `B` is reached from `A` through bodies. -/
def Reaches (G : Grammar) : Nonterminal → Nonterminal → Prop := Relation.ReflTransGen G.Leads

theorem mem_successors {A B : Nonterminal} : B ∈ G.successors A ↔ G.Leads A B := by
  simp only [successors, List.mem_flatMap, OrderedSet.mem_toList, mem_bodies, Body.mem_nonterminals]
  exact Iff.rfl

theorem mem_accessInference {known : OrderedSet Nonterminal} {B : Nonterminal} :
    B ∈ G.accessInference known ↔ ∃ A ∈ known, G.Leads A B := by
  simp only [accessInference, List.mem_flatMap, OrderedSet.mem_toList, mem_successors]

theorem mem_accessible {A : Nonterminal} : A ∈ G.accessible ↔ G.Reaches G.start A := by
  constructor
  · intro hA
    refine saturate_induction _ _ (P := G.Reaches G.start) (fun B hB => ?_) (fun known hknown infer hi B hB => ?_) A hA
    · rw [OrderedSet.mem_singleton.1 hB]
      exact .refl
    · rw [List.mem_singleton.1 hi] at hB
      obtain ⟨C, hC, hstep⟩ := mem_accessInference.1 hB
      exact (hknown C hC).tail hstep
  · intro h
    induction h with
    | refl => exact mem_saturate_of_mem _ _ (OrderedSet.mem_singleton.2 rfl)
    | tail _ hstep ih =>
      have hinfer := mem_accessInference.2 ⟨_, ih, hstep⟩
      exact mem_saturate_of_infer _ _ (List.mem_singleton_self _) hinfer

/-! ### What pruning keeps -/

theorem mem_withUsedTerminals {t : Terminal} :
    t ∈ G.withUsedTerminals.terminals ↔ t ∈ G.terminals ∧ ∃ r ∈ G.productions, .terminal t ∈ r.body := by
  simp [withUsedTerminals]

@[simp] theorem withoutInaccessible_start : G.withoutInaccessible.start = G.start := rfl

theorem mem_withoutInaccessible {r : Rule Body} :
    r ∈ G.withoutInaccessible.productions ↔ r ∈ G.productions ∧ G.Reaches G.start r.owner := by
  simp [withoutInaccessible, withUsedTerminals, mem_accessible]

theorem mem_withoutInaccessible_nonterminals {A : Nonterminal} :
    A ∈ G.withoutInaccessible.nonterminals ↔ A ∈ G.nonterminals ∧ G.Reaches G.start A := by
  simp [withoutInaccessible, withUsedTerminals, mem_accessible]

theorem mem_withoutInaccessible_terminals {t : Terminal} :
    t ∈ G.withoutInaccessible.terminals ↔
      t ∈ G.terminals ∧ ∃ r ∈ G.withoutInaccessible.productions, .terminal t ∈ r.body :=
  mem_withUsedTerminals

@[simp] theorem withoutUnproductive_start : G.withoutUnproductive.start = G.start := rfl

/-- A rule stays if all nonterminals of its body are productive, for then its owner is productive too. -/
theorem mem_withoutUnproductive {r : Rule Body} :
    r ∈ G.withoutUnproductive.productions ↔
      r ∈ G.productions ∧ ∀ A, .nonterminal A ∈ r.body → ∃ x, G.Generates A x := by
  simp only [withoutUnproductive, withUsedTerminals, OrderedSet.mem_filter, Productions.mem_arranged,
    Bool.and_eq_true, decide_eq_true_eq, List.all_eq_true, Body.mem_nonterminals]
  constructor
  · rintro ⟨hr, -, hbody⟩
    exact ⟨hr, fun A hA => mem_productive.1 (hbody A hA)⟩
  · rintro ⟨hr, hbody⟩
    have hprod : ∀ A, .nonterminal A ∈ r.body → A ∈ G.productive.facts := fun A hA => mem_productive.2 (hbody A hA)
    exact ⟨hr, productive_of_rule hr hprod, hprod⟩

theorem mem_withoutUnproductive_nonterminals {A : Nonterminal} :
    A ∈ G.withoutUnproductive.nonterminals ↔
      A ∈ G.nonterminals ∧ ((∃ x, G.Generates A x) ∨ A = G.start) := by
  simp [withoutUnproductive, withUsedTerminals, mem_productive]

theorem mem_withoutUnproductive_terminals {t : Terminal} :
    t ∈ G.withoutUnproductive.terminals ↔
      t ∈ G.terminals ∧ ∃ r ∈ G.withoutUnproductive.productions, .terminal t ∈ r.body :=
  mem_withUsedTerminals

/-! ### Words -/

/-- A word is still derived if every rule that its derivation can use is kept, where `S` holds of the nonterminals
that the derivation can meet. -/
theorem Generates.transfer {S : Nonterminal → Prop}
    (keep : ∀ r ∈ K.productions, S r.owner → (∀ A, .nonterminal A ∈ r.body → ∃ y, K.Generates A y) →
      r ∈ H.productions ∧ ∀ A, .nonterminal A ∈ r.body → S A)
    {A : Nonterminal} {x : Word} (h : K.Generates A x) (hA : S A) : H.Generates A x := by
  -- `S` is carried from the owner of a rule to its body, the words from the body to the owner.
  refine h.interpret_and (I := fun A x => S A → H.Generates A x) (fun r hr x hx howner => ?_) hA
  have hwords : ∀ A, .nonterminal A ∈ r.body → ∃ y, K.Generates A y := by
    intro A hA
    obtain ⟨y, hy⟩ := hx.exists_word hA
    exact ⟨y, hy.1⟩
  obtain ⟨hkept, hbody⟩ := keep r hr howner hwords
  exact .of_rule hkept (hx.imp fun A hA y hy => hy.2 (hbody A hA))

theorem Generates.of_withoutInaccessible {A : Nonterminal} {x : Word} (h : G.withoutInaccessible.Generates A x) :
    G.Generates A x :=
  h.mono fun _ hr => (mem_withoutInaccessible.1 hr).1

theorem Generates.of_withoutUnproductive {A : Nonterminal} {x : Word} (h : G.withoutUnproductive.Generates A x) :
    G.Generates A x :=
  h.mono fun _ hr => (mem_withoutUnproductive.1 hr).1

private theorem reaches_body {r : Rule Body} (hr : r ∈ G.productions) (h : G.Reaches G.start r.owner)
    {A : Nonterminal} (hA : .nonterminal A ∈ r.body) : G.Reaches G.start A :=
  h.tail ⟨r.body, hr, hA⟩

/-- An accessible nonterminal loses no words. -/
theorem Generates.withoutInaccessible {A : Nonterminal} {x : Word} (h : G.Generates A x)
    (hA : G.Reaches G.start A) : G.withoutInaccessible.Generates A x :=
  h.transfer (fun _ hr howner _ => ⟨mem_withoutInaccessible.2 ⟨hr, howner⟩, fun _ => reaches_body hr howner⟩) hA

/-- No nonterminal loses a word. -/
theorem Generates.withoutUnproductive {A : Nonterminal} {x : Word} (h : G.Generates A x) :
    G.withoutUnproductive.Generates A x :=
  h.transfer (S := fun _ => True)
    (fun _ hr _ hwords => ⟨mem_withoutUnproductive.2 ⟨hr, hwords⟩, fun _ _ => trivial⟩) trivial

/-- The same for words that are derived without an empty body. -/
theorem Generates.withoutInaccessible_withoutEmptyBodies {A : Nonterminal} {x : Word}
    (h : G.withoutEmptyBodies.Generates A x) (hA : G.Reaches G.start A) :
    G.withoutInaccessible.withoutEmptyBodies.Generates A x := by
  refine h.transfer (fun r hr howner _ => ?_) hA
  obtain ⟨hrule, hne⟩ := mem_withoutEmptyBodies.1 hr
  have hkept := mem_withoutInaccessible.2 ⟨hrule, howner⟩
  exact ⟨mem_withoutEmptyBodies.2 ⟨hkept, hne⟩, fun _ => reaches_body hrule howner⟩

theorem Generates.withoutUnproductive_withoutEmptyBodies {A : Nonterminal} {x : Word}
    (h : G.withoutEmptyBodies.Generates A x) : G.withoutUnproductive.withoutEmptyBodies.Generates A x := by
  refine h.transfer (S := fun _ => True) (fun r hr _ hwords => ⟨?_, fun _ _ => trivial⟩) trivial
  obtain ⟨hrule, hne⟩ := mem_withoutEmptyBodies.1 hr
  have hproductive : ∀ A, .nonterminal A ∈ r.body → ∃ y, G.Generates A y := by
    intro A hA
    obtain ⟨y, hy⟩ := hwords A hA
    exact ⟨y, hy.of_withoutEmptyBodies⟩
  exact mem_withoutEmptyBodies.2 ⟨mem_withoutUnproductive.2 ⟨hrule, hproductive⟩, hne⟩

end Grammar

end NormalGrammar
