import NormalGrammar.Erasure
import NormalGrammar.Productivity
import NormalGrammar.Proofs.Reading

/-!
# What is marked

The nonterminals marked by their bodies are the least set that is closed under the rules (`mem_mark_of_rule`,
`mark_induction`).  So the nullable nonterminals are those that derive the empty word (`mem_nullable`), and the
productive ones those that derive some word (`mem_productive`).
-/

namespace NormalGrammar

namespace Grammar

variable {G : Grammar} {admits : OrderedSet Nonterminal → Symbol → Bool}

/-- The owner of a body whose symbols are all admitted in the end is marked. -/
theorem mem_mark_of_rule {r : Rule Body} (hr : r ∈ G.productions)
    (h : ∀ s ∈ r.body, admits (G.mark admits).facts s) : r.owner ∈ (G.mark admits).facts := by
  have hinfer : r.owner ∈ markInference admits r (G.mark admits).facts := mem_markInference.2 ⟨rfl, h⟩
  exact mem_saturate_of_infer _ _ (List.mem_map_of_mem (mem_rules.2 hr)) hinfer

/-- What passes from the symbols of a body to its owner holds of everything marked. -/
theorem mark_induction {P : Nonterminal → Prop}
    (step : ∀ r ∈ G.productions, ∀ marked : OrderedSet Nonterminal, (∀ A ∈ marked, P A) →
      (∀ s ∈ r.body, admits marked s) → P r.owner) {A : Nonterminal} (hA : A ∈ (G.mark admits).facts) : P A := by
  refine saturate_induction _ _ (P := P) (by simp) (fun marked hmarked infer hi B hB => ?_) A hA
  obtain ⟨r, hr, rfl⟩ := List.mem_map.1 hi
  obtain ⟨rfl, hbody⟩ := mem_markInference.1 hB
  exact step r (mem_rules.1 hr) marked hmarked hbody

/-! ### Nullable nonterminals -/

theorem isMarked_iff {marked : OrderedSet Nonterminal} {s : Symbol} :
    isMarked marked s ↔ ∃ A, s = .nonterminal A ∧ A ∈ marked := by
  cases s <;> simp [isMarked]

theorem mem_nullable {A : Nonterminal} : A ∈ G.nullable.facts ↔ G.Generates A [] := by
  constructor
  · refine mark_induction (P := fun A => G.Generates A []) fun r hr marked hmarked hbody => ?_
    refine .of_rule hr (reads_empty_iff.2 fun s hs => ?_)
    obtain ⟨B, rfl, hB⟩ := isMarked_iff.1 (hbody s hs)
    exact ⟨B, rfl, hmarked B hB⟩
  · intro h
    refine h.interpret (I := fun B x => x = [] → B ∈ G.nullable.facts) (fun r hr x hx e => ?_) rfl
    subst e
    refine mem_mark_of_rule hr fun s hs => isMarked_iff.2 ?_
    obtain ⟨B, rfl, hB⟩ := reads_empty_iff.1 hx s hs
    exact ⟨B, rfl, hB rfl⟩

/-! ### Productive nonterminals -/

private theorem admits_productive {marked : OrderedSet Nonterminal} {s : Symbol} :
    (s.nonterminal?.all fun A => decide (A ∈ marked)) ↔ ∀ A, s = .nonterminal A → A ∈ marked := by
  cases s <;> simp [Symbol.nonterminal?]

theorem mem_productive {A : Nonterminal} : A ∈ G.productive.facts ↔ ∃ x, G.Generates A x := by
  constructor
  · refine mark_induction (P := fun A => ∃ x, G.Generates A x) fun r hr marked hmarked hbody => ?_
    obtain ⟨x, hx⟩ := exists_reads fun B hB => hmarked B (admits_productive.1 (hbody _ hB) B rfl)
    exact ⟨x, .of_rule hr hx⟩
  · rintro ⟨x, h⟩
    refine h.interpret (I := fun B _ => B ∈ G.productive.facts) fun r hr x hx => ?_
    refine mem_mark_of_rule hr fun s hs => admits_productive.2 ?_
    rintro B rfl
    obtain ⟨_, hB⟩ := hx.exists_word hs
    exact hB

/-- The owner of a body of productive symbols is productive. -/
theorem productive_of_rule {r : Rule Body} (hr : r ∈ G.productions)
    (h : ∀ A, .nonterminal A ∈ r.body → A ∈ G.productive.facts) : r.owner ∈ G.productive.facts :=
  mem_mark_of_rule hr fun _ hs => admits_productive.2 fun A e => h A (e ▸ hs)

/-- In any grammar, valid or not, the nullable nonterminals are those that derive the empty word and the productive ones
those that derive some word, and each is listed once. -/
theorem marked_exactly (G : Grammar) :
    (G.nullable.facts.toList.Nodup ∧ ∀ A, A ∈ G.nullable.facts.toList ↔ G.Generates A []) ∧
    (G.productive.facts.toList.Nodup ∧ ∀ A, A ∈ G.productive.facts.toList ↔ ∃ x, G.Generates A x) :=
  ⟨⟨G.nullable.facts.nodup, fun _ => mem_nullable⟩, G.productive.facts.nodup, fun _ => mem_productive⟩

end Grammar

end NormalGrammar
