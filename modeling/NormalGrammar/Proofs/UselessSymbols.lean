import NormalGrammar.Proofs.Arrangement
import NormalGrammar.Proofs.EmptyLanguage

/-!
# What the removal of useless symbols leaves

Each of the two removals leaves a part of the grammar out, the rest stays in its order and keeps its words (`Prunes`).
One leaves the accessible nonterminals and what they own, the other the productive ones and the start symbol, and those
productions in which all nonterminals are productive (`pruning_exactly`).  A nonterminal owns a production after the
second if and only if it is productive (`owns_withoutUnproductive_iff`), so a start symbol without words leaves no
production of its own, but those of other nonterminals stay (`withoutUnproductive_emptyLanguage`).
-/

namespace NormalGrammar

/-- `H` is what is left of `G` when all productions but those that are to stay are removed, with some nonterminals and
the terminals that no longer occur, and no word of a remaining nonterminal is lost. -/
structure Grammar.Prunes (G H : Grammar) (stays : Rule Body → Prop) : Prop where
  start : H.start = G.start
  nonterminals : H.nonterminals.toList.Sublist G.nonterminals.toList
  terminals : H.terminals.toList.Sublist G.terminals.toList
  rules : H.rules.Sublist G.rules
  productions : ∀ r, r ∈ H.productions ↔ r ∈ G.productions ∧ stays r
  used : ∀ t, t ∈ H.terminals ↔ t ∈ G.terminals ∧ ∃ r ∈ H.productions, .terminal t ∈ r.body
  words : ∀ A ∈ H.nonterminals, ∀ x, H.Generates A x ↔ G.Generates A x

namespace Grammar

variable {G : Grammar}

/-- Leaving out rules keeps the others in the order in which they are read. -/
private theorem filter_arranged_rules (P : Productions Body) (p : Rule Body → Bool) :
    Productions.rules (OrderedSet.filter p P.arranged) = P.rules.filter p :=
  Productions.rules_eq_of_grouped ((Productions.grouped_rules P).filter p)

theorem prunes_withoutInaccessible (G : Grammar) :
    G.Prunes G.withoutInaccessible fun r => G.Reaches G.start r.owner where
  start := rfl
  nonterminals := List.filter_sublist
  terminals := List.filter_sublist
  rules := by
    rw [Grammar.rules, withoutInaccessible, withUsedTerminals, filter_arranged_rules]
    exact List.filter_sublist
  productions := fun _ => mem_withoutInaccessible
  used := fun _ => mem_withoutInaccessible_terminals
  words := by
    intro A hA x
    have hreach := (mem_withoutInaccessible_nonterminals.1 hA).2
    exact ⟨fun hx => hx.of_withoutInaccessible, fun hx => hx.withoutInaccessible hreach⟩

/-- The owner of a production that stays is productive, as all nonterminals of its body are. -/
theorem prunes_withoutUnproductive (G : Grammar) : G.Prunes G.withoutUnproductive fun r =>
    (∃ x, G.Generates r.owner x) ∧ ∀ A, .nonterminal A ∈ r.body → ∃ x, G.Generates A x where
  start := rfl
  nonterminals := List.filter_sublist
  terminals := List.filter_sublist
  rules := by
    rw [Grammar.rules, withoutUnproductive, withUsedTerminals, filter_arranged_rules]
    exact List.filter_sublist
  productions := by
    intro r
    rw [mem_withoutUnproductive]
    constructor
    · rintro ⟨hr, hbody⟩
      obtain ⟨x, hx⟩ := exists_reads hbody
      exact ⟨hr, ⟨x, .of_rule hr hx⟩, hbody⟩
    · exact fun h => ⟨h.1, h.2.2⟩
  used := fun _ => mem_withoutUnproductive_terminals
  words := fun _ _ _ => ⟨fun hx => hx.of_withoutUnproductive, fun hx => hx.withoutUnproductive⟩

/-! ### What is left in a valid grammar -/

theorem Valid.declared_of_reaches (hG : G.Valid) {A B : Nonterminal} (hA : A ∈ G.nonterminals) (h : G.Reaches A B) :
    B ∈ G.nonterminals := by
  cases h with
  | refl => exact hA
  | tail _ hstep =>
    obtain ⟨w, hw, hB⟩ := hstep
    exact hG.body _ hw (.nonterminal B) hB

theorem Valid.declared_of_generates (hG : G.Valid) {A : Nonterminal} {x : Word} (h : G.Generates A x) :
    A ∈ G.nonterminals := by
  obtain ⟨w, hw, -⟩ := generates_iff_reads.1 h
  exact hG.owner _ hw

/-- One removal leaves exactly the accessible nonterminals and the productions that they own, the other exactly the
productive ones and the start symbol, and the productions whose owner and whose body are productive.  Both keep just the
terminals that still occur, add no symbol and no production, and keep the words of every nonterminal that they leave. -/
theorem pruning_exactly (G : Grammar) (h : G.validate = .ok ()) :
    (∀ A, A ∈ G.withoutInaccessible.nonterminals ↔ G.Reaches G.start A) ∧
      (∀ A, A ∈ G.withoutUnproductive.nonterminals ↔ (∃ x, G.Generates A x) ∨ A = G.start) ∧
      G.Prunes G.withoutInaccessible (fun r => G.Reaches G.start r.owner) ∧
      G.Prunes G.withoutUnproductive fun r =>
        (∃ x, G.Generates r.owner x) ∧ ∀ A, .nonterminal A ∈ r.body → ∃ x, G.Generates A x := by
  have hG := validate_eq_ok.1 h
  refine ⟨fun A => ?_, fun A => ?_, G.prunes_withoutInaccessible, G.prunes_withoutUnproductive⟩
  · rw [mem_withoutInaccessible_nonterminals]
    exact ⟨fun hA => hA.2, fun hreach => ⟨hG.declared_of_reaches hG.start hreach, hreach⟩⟩
  · rw [mem_withoutUnproductive_nonterminals]
    refine ⟨fun hA => hA.2, fun hA => ⟨?_, hA⟩⟩
    rcases hA with ⟨x, hx⟩ | rfl
    · exact hG.declared_of_generates hx
    · exact hG.start

/-- `S` goes on forever, alone or by way of `A`. -/
theorem pruning_exactly_endless : endless.validate = .ok () ∧
    (∀ A, A ∈ endless.withoutInaccessible.nonterminals ↔ endless.Reaches endless.start A) ∧
    (∀ A, A ∈ endless.withoutUnproductive.nonterminals ↔ (∃ x, endless.Generates A x) ∨ A = endless.start) ∧
    endless.Prunes endless.withoutInaccessible (fun r => endless.Reaches endless.start r.owner) ∧
    endless.Prunes endless.withoutUnproductive fun r =>
      (∃ x, endless.Generates r.owner x) ∧ ∀ A, .nonterminal A ∈ r.body → ∃ x, endless.Generates A x :=
  ⟨rfl, pruning_exactly endless rfl⟩

/-! ### Grammars without words -/

/-- The productions that are left belong to the productive nonterminals. -/
theorem owns_withoutUnproductive_iff {A : Nonterminal} :
    (∃ w, ⟨A, w⟩ ∈ G.withoutUnproductive.productions) ↔ ∃ x, G.Generates A x := by
  constructor
  · rintro ⟨w, hw⟩
    exact ((G.prunes_withoutUnproductive.productions _).1 hw).2.1
  · rintro ⟨x, hx⟩
    obtain ⟨w, hw, -⟩ := generates_iff_reads.1 hx.withoutUnproductive
    exact ⟨w, hw⟩

/-- Without productions only the start symbol is left. -/
theorem withoutUnproductive_equiv_ofStart (hG : G.Valid) (hnone : ∀ r, ¬ r ∈ G.withoutUnproductive.productions) :
    G.withoutUnproductive ≈ ofStart G.start := by
  refine ⟨rfl, fun A => ?_, fun t => ?_, fun r => ?_⟩
  · show A ∈ G.withoutUnproductive.nonterminals ↔ A ∈ OrderedSet.singleton G.start
    rw [mem_withoutUnproductive_nonterminals, OrderedSet.mem_singleton]
    constructor
    · rintro ⟨-, hproductive | rfl⟩
      · obtain ⟨w, hw⟩ := owns_withoutUnproductive_iff.2 hproductive
        exact absurd hw (hnone _)
      · rfl
    · rintro rfl
      exact ⟨hG.start, Or.inr rfl⟩
  · refine iff_of_false (fun ht => ?_) OrderedSet.not_mem_empty
    obtain ⟨-, r, hr, -⟩ := mem_withoutUnproductive_terminals.1 ht
    exact hnone r hr
  · exact iff_of_false (hnone r) OrderedSet.not_mem_empty

/-- If the start symbol derives nothing, the removal of unproductive symbols leaves a valid grammar that declares it, in
which no production owns or mentions it.  The productive nonterminals keep their productions, so that there are none, and
just the start symbol is left, if and only if no nonterminal derives a word.  What is left besides goes when the
inaccessible symbols are removed. -/
theorem withoutUnproductive_emptyLanguage (G : Grammar) (h : G.validate = .ok ())
    (hempty : ∀ x, ¬ G.Generates G.start x) :
    G.withoutUnproductive.validate = .ok () ∧ G.start ∈ G.withoutUnproductive.nonterminals ∧
      (∀ r ∈ G.withoutUnproductive.productions, r.owner ≠ G.start ∧ .nonterminal G.start ∉ r.body) ∧
      (∀ A, (∃ w, ⟨A, w⟩ ∈ G.withoutUnproductive.productions) ↔ ∃ x, G.Generates A x) ∧
      [∀ A x, ¬ G.Generates A x, ∀ r, ¬ r ∈ G.withoutUnproductive.productions,
        G.withoutUnproductive ≈ ofStart G.start].TFAE ∧
      G.withoutUnproductive.withoutInaccessible ≈ ofStart G.start := by
  have hG := validate_eq_ok.1 h
  have hstart : ¬ ∃ x, G.Generates G.start x := fun ⟨x, hx⟩ => hempty x hx
  refine ⟨validate_eq_ok.2 hG.withoutUnproductive, hG.withoutUnproductive.start, fun r hr => ⟨?_, fun hmem => ?_⟩,
    fun A => owns_withoutUnproductive_iff, ?_, ?_⟩
  · intro howner
    exact hstart (owns_withoutUnproductive_iff.1 ⟨r.body, howner ▸ hr⟩)
  · exact hstart ((mem_withoutUnproductive.1 hr).2 _ hmem)
  · tfae_have 1 → 2 := fun hnone r hr => by
      obtain ⟨x, hx⟩ := owns_withoutUnproductive_iff.1 ⟨r.body, hr⟩
      exact hnone _ x hx
    tfae_have 2 → 3 := withoutUnproductive_equiv_ofStart hG
    tfae_have 3 → 1 := fun hequiv A x hx => by
      obtain ⟨w, hw⟩ := owns_withoutUnproductive_iff.2 ⟨x, hx⟩
      exact OrderedSet.not_mem_empty ((hequiv.productions _).1 hw)
    tfae_finish
  · have htrim := trim_of_swept (G := G)
    have hnothing := htrim.startOwnsNothing fun x hx => hempty x hx.of_withoutInaccessible.of_withoutUnproductive
    exact htrim.equiv_ofStart hG.withoutUnproductive.withoutInaccessible hnothing

/-- `S → aS | AS` and `A → a`, where only `A` derives a word. -/
def leftBehind : Grammar :=
  let S : Nonterminal := ⟨.ofChar 'S'⟩
  let A : Nonterminal := ⟨.ofChar 'A'⟩
  let a : Terminal := ⟨.ofChar 'a'⟩
  (ofStart S).addAll
    [⟨S, [.terminal a, .nonterminal S]⟩, ⟨S, [.nonterminal A, .nonterminal S]⟩, ⟨A, [.terminal a]⟩]

/-- Every body of `S` mentions `S`. -/
theorem leftBehind_emptyLanguage (x : Word) : ¬ leftBehind.Generates leftBehind.start x := by
  have hbodies : ∀ r ∈ leftBehind.productions.toList, r.owner = leftBehind.start →
      leftBehind.start ∈ r.body.nonterminals := by decide
  intro hx
  refine hx.interpret (I := fun A _ => A ≠ leftBehind.start) (fun r hr y hy howner => ?_) rfl
  obtain ⟨_, hword⟩ := hy.exists_word (Body.mem_nonterminals.1 (hbodies r hr howner))
  exact hword rfl

theorem withoutUnproductive_emptyLanguage_leftBehind : leftBehind.validate = .ok () ∧
    (∀ x, ¬ leftBehind.Generates leftBehind.start x) ∧
    leftBehind.withoutUnproductive.validate = .ok () ∧ leftBehind.start ∈ leftBehind.withoutUnproductive.nonterminals ∧
      (∀ r ∈ leftBehind.withoutUnproductive.productions,
        r.owner ≠ leftBehind.start ∧ .nonterminal leftBehind.start ∉ r.body) ∧
      (∀ A, (∃ w, ⟨A, w⟩ ∈ leftBehind.withoutUnproductive.productions) ↔ ∃ x, leftBehind.Generates A x) ∧
      [∀ A x, ¬ leftBehind.Generates A x, ∀ r, ¬ r ∈ leftBehind.withoutUnproductive.productions,
        leftBehind.withoutUnproductive ≈ ofStart leftBehind.start].TFAE ∧
      leftBehind.withoutUnproductive.withoutInaccessible ≈ ofStart leftBehind.start :=
  ⟨rfl, leftBehind_emptyLanguage, withoutUnproductive_emptyLanguage leftBehind rfl leftBehind_emptyLanguage⟩

/-- The production of `A` stays, though the start symbol derives nothing. -/
theorem withoutUnproductive_keeps_production : leftBehind.validate = .ok () ∧
    (∀ x, ¬ leftBehind.Generates leftBehind.start x) ∧
    ⟨⟨.ofChar 'A'⟩, [.terminal ⟨.ofChar 'a'⟩]⟩ ∈ leftBehind.withoutUnproductive.productions := by
  refine ⟨rfl, leftBehind_emptyLanguage, mem_withoutUnproductive.2 ⟨by decide, fun A hA => ?_⟩⟩
  rw [List.mem_singleton] at hA
  cases hA

end Grammar

end NormalGrammar
