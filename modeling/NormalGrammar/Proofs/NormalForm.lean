import NormalGrammar.Proofs.Reading
import NormalGrammar.Proofs.WordTable

/-!
# Reading a grammar as one in normal form

A grammar can be read as one in normal form if and only if all its rules are normal (`exists_ofGrammar`,
`Reading.normal`), and what is read then holds exactly its nonempty bodies (`ofGrammar_reading`).  So the stored
productions cover what the grammar derives without an empty body (`Reading.covers_iff`).
-/

namespace NormalGrammar

/-- A terminal, a pair of nonterminals, or the empty body of the start symbol. -/
def Rule.Normal (start : Nonterminal) (r : Rule Body) : Prop :=
  (∃ w : NormalBody, r.body = w.toBody) ∨ (r.owner = start ∧ r.body = [])

def Grammar.Normal (G : Grammar) : Prop := ∀ r ∈ G.productions, r.Normal G.start

theorem Rule.normal_iff {start : Nonterminal} {r : Rule Body} : r.Normal start ↔
    (∃ t, r.body = [.terminal t]) ∨ (∃ B C, r.body = [.nonterminal B, .nonterminal C]) ∨
      (r.owner = start ∧ r.body = []) := by
  constructor
  · rintro (⟨w, hw⟩ | hempty)
    · cases w with
      | terminal t => exact Or.inl ⟨t, hw⟩
      | pair B C => exact Or.inr (Or.inl ⟨B, C, hw⟩)
    · exact Or.inr (Or.inr hempty)
  · rintro (⟨t, ht⟩ | ⟨B, C, hpair⟩ | hempty)
    · exact Or.inl ⟨.terminal t, ht⟩
    · exact Or.inl ⟨.pair B C, hpair⟩
    · exact Or.inr hempty

namespace NormalForm

variable {G : Grammar} {N : NormalForm} {start : Nonterminal}

theorem toBody_ne_nil (w : NormalBody) : w.toBody ≠ [] := by
  cases w <;> simp [NormalBody.toBody]

theorem toBody_injective {v w : NormalBody} (h : v.toBody = w.toBody) : v = w := by
  have hread := NormalBody.ofBody_toBody v
  rw [h, NormalBody.ofBody_toBody] at hread
  exact (Except.ok.inj hread).symm

/-! ### Single rules -/

theorem readRule_toBody (A : Nonterminal) (w : NormalBody) :
    readRule start ⟨A, w.toBody⟩ = .ok (some ⟨A, w⟩) := by
  have hne : w.toBody.isEmpty = false := List.isEmpty_eq_false_iff.2 (toBody_ne_nil w)
  simp only [readRule, hne, NormalBody.ofBody_toBody, Bool.false_eq_true, ↓reduceIte]

theorem readRule_empty : readRule start ⟨start, []⟩ = .ok none := by
  simp [readRule]

/-- A normal rule is read as itself, the empty body of the start symbol as nothing. -/
theorem readRule_of_normal {r : Rule Body} (h : r.Normal start) : ∃ read, readRule start r = .ok read := by
  obtain ⟨A, w⟩ := r
  rcases h with ⟨v, rfl⟩ | ⟨rfl, rfl⟩
  · exact ⟨_, readRule_toBody A v⟩
  · exact ⟨_, readRule_empty⟩

/-- Only normal rules are read. -/
theorem normal_of_readRule {r : Rule Body} {read : Option (Rule NormalBody)} (h : readRule start r = .ok read) :
    (read = none ∧ r = ⟨start, []⟩) ∨ ∃ w, read = some ⟨r.owner, w⟩ ∧ r.body = w.toBody := by
  obtain ⟨A, w⟩ := r
  unfold readRule at h
  by_cases hempty : w.isEmpty
  · simp only [hempty, ↓reduceIte] at h
    split at h
    · rename_i howner
      cases h
      have howner : A = start := howner
      rw [List.isEmpty_iff.1 hempty, howner]
      exact Or.inl ⟨rfl, rfl⟩
    · cases h
  · simp only [hempty, Bool.false_eq_true, ↓reduceIte] at h
    split at h
    · rename_i v hv
      cases h
      exact Or.inr ⟨v, rfl, NormalBody.ofBody_eq_ok.1 hv⟩
    · cases h

/-! ### All rules -/

theorem readRules_of_normal {rules : List (Rule Body)} (h : ∀ r ∈ rules, r.Normal start) :
    ∃ read, readRules start rules = .ok read := by
  induction rules with
  | nil => exact ⟨[], rfl⟩
  | cons r rules ih =>
    rw [List.forall_mem_cons] at h
    obtain ⟨first, hfirst⟩ := readRule_of_normal h.1
    obtain ⟨rest, hrest⟩ := ih h.2
    exact ⟨first.toList ++ rest, by simp only [readRules, hfirst, hrest]; rfl⟩

/-- What is read is found among the rules, and nothing but the empty body of the start symbol is left out. -/
theorem readRules_eq_ok {rules : List (Rule Body)} {read : List (Rule NormalBody)}
    (h : readRules start rules = .ok read) : (∀ r ∈ rules, r.Normal start) ∧
      ∀ q : Rule NormalBody, q ∈ read ↔ ⟨q.owner, q.body.toBody⟩ ∈ rules := by
  induction rules generalizing read with
  | nil =>
    cases h
    simp
  | cons r rules ih =>
    simp only [readRules] at h
    split at h
    · cases h
    · rename_i first hfirst
      cases hrest : readRules start rules with
      | error e =>
        rw [hrest] at h
        cases h
      | ok rest =>
        rw [hrest] at h
        cases h
        obtain ⟨hnormal, hmem⟩ := ih hrest
        rcases normal_of_readRule hfirst with ⟨rfl, rfl⟩ | ⟨w, rfl, hw⟩
        · refine ⟨List.forall_mem_cons.2 ⟨Or.inr ⟨rfl, rfl⟩, hnormal⟩, fun q => ?_⟩
          have hne : (⟨q.owner, q.body.toBody⟩ : Rule Body) ≠ ⟨start, []⟩ :=
            fun e => toBody_ne_nil q.body (Rule.mk.inj e).2
          simp [hmem, hne]
        · refine ⟨List.forall_mem_cons.2 ⟨Or.inl ⟨w, hw⟩, hnormal⟩, fun q => ?_⟩
          have hfirst : q = ⟨r.owner, w⟩ ↔ (⟨q.owner, q.body.toBody⟩ : Rule Body) = r := by
            constructor
            · rintro rfl
              rw [← hw]
            · intro e
              have howner : q.owner = r.owner := congrArg Rule.owner e
              have hbody : q.body.toBody = w.toBody := (congrArg Rule.body e).trans hw
              rw [← howner, ← toBody_injective hbody]
          simp only [Option.toList_some, List.singleton_append, List.mem_cons, hmem, hfirst]

/-! ### Grammars -/

/-- A grammar and its reading. -/
structure Reading (G : Grammar) (N : NormalForm) : Prop where
  normal : G.Normal
  start : N.start = G.start
  erasable : N.erasable = true ↔ ⟨G.start, []⟩ ∈ G.productions
  productions : ∀ q : Rule NormalBody, q ∈ N.productions ↔ ⟨q.owner, q.body.toBody⟩ ∈ G.productions

theorem ofGrammar_reading (h : ofGrammar G = .ok N) : Reading G N := by
  unfold ofGrammar at h
  cases hread : readRules G.start G.rules with
  | error e =>
    rw [hread] at h
    cases h
  | ok read =>
    rw [hread] at h
    cases h
    obtain ⟨hnormal, hmem⟩ := readRules_eq_ok hread
    exact {
      normal := fun r hr => hnormal r (Grammar.mem_rules.2 hr)
      start := rfl
      erasable := by rw [decide_eq_true_eq, Grammar.mem_bodies]
      productions := fun q => by rw [OrderedSet.mem_ofList, hmem, Grammar.mem_rules] }

theorem exists_ofGrammar (h : G.Normal) : ∃ N, ofGrammar G = .ok N := by
  obtain ⟨read, hread⟩ := readRules_of_normal fun r hr => h r (Grammar.mem_rules.1 hr)
  unfold ofGrammar
  rw [hread]
  exact ⟨_, rfl⟩

/-- A nonterminal covers the words that the grammar derives from it without an empty body. -/
theorem Reading.covers_iff (h : Reading G N) {A : Nonterminal} {x : Word} :
    N.Covers A x ↔ G.withoutEmptyBodies.Generates A x := by
  have hrule : ∀ q : Rule NormalBody, q ∈ N.productions →
      (⟨q.owner, q.body.toBody⟩ : Rule Body) ∈ G.withoutEmptyBodies.productions := fun q hq =>
    Grammar.mem_withoutEmptyBodies.2 ⟨(h.productions q).1 hq, toBody_ne_nil q.body⟩
  constructor
  · intro hx
    induction hx with
    | letter rule => exact .of_rule (hrule _ rule) (reads_letter.2 rfl)
    | pair rule _ _ ihleft ihright =>
      exact .of_rule (hrule _ rule) (reads_cons.2 ⟨_, _, rfl, reads_unit.2 ihleft, reads_unit.2 ihright⟩)
  · intro hx
    refine hx.interpret fun r hr y hy => ?_
    obtain ⟨hmem, hne⟩ := Grammar.mem_withoutEmptyBodies.1 hr
    rcases h.normal r hmem with ⟨w, hw⟩ | ⟨-, hempty⟩
    · have hq : (⟨r.owner, w⟩ : Rule NormalBody) ∈ N.productions := by
        rw [h.productions, ← hw]
        exact hmem
      rw [hw] at hy
      cases w with
      | terminal t =>
        rw [reads_letter.1 hy]
        exact .letter hq
      | pair B C =>
        obtain ⟨p, q, rfl, hp, hq'⟩ := reads_cons.1 hy
        exact .pair hq (reads_unit.1 hp) (reads_unit.1 hq')
    · exact absurd hempty hne

end NormalForm

end NormalGrammar
