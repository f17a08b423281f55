import NormalGrammar.Normalization
import NormalGrammar.Proofs.Shape

/-!
# Which words are accepted

The table combines nonempty factors only, so a grammar in normal form accepts the nonempty words that its start symbol
derives without an empty body, and the empty word if the start symbol owns an empty body (`Reading.accepts_iff_reads`).
Where the start symbol is erasable and occurs in bodies, that can be fewer words than it derives (`accepts_exactly`).
For the result of a run it never is: every nonempty word of the source is derived there without an empty body, so the
normal form of a valid grammar accepts exactly the words of the grammar (`toNormalForm_accepts`).
-/

namespace NormalGrammar

namespace NormalForm

variable {G : Grammar} {N : NormalForm}

theorem Reading.accepts_iff_reads (h : Reading G N) {w : Word} : N.accepts w = true ↔
    (w = [] ∧ ⟨G.start, []⟩ ∈ G.productions) ∨ (w ≠ [] ∧ G.withoutEmptyBodies.Generates G.start w) := by
  rw [accepts_iff, h.covers_iff, h.erasable, h.start]

/-- In a normal grammar only an empty body of the start symbol gives the empty word. -/
theorem empty_mem_of_generates (h : G.Normal) {A : Nonterminal} (hA : G.Generates A []) :
    ⟨G.start, []⟩ ∈ G.productions := by
  refine hA.interpret (I := fun _ x => x = [] → ⟨G.start, []⟩ ∈ G.productions) (fun r hr x hx e => ?_) rfl
  subst e
  rcases h r hr with ⟨w, hw⟩ | ⟨howner, hbody⟩
  · rw [hw, reads_empty_iff] at hx
    cases w with
    | terminal t =>
      obtain ⟨B, hB, -⟩ := hx (.terminal t) (List.mem_singleton_self _)
      cases hB
    | pair B C =>
      obtain ⟨-, -, hempty⟩ := hx (.nonterminal B) List.mem_cons_self
      exact hempty rfl
  · rw [← howner, ← hbody]
    exact hr

theorem empty_generates_iff (h : G.Normal) : G.Generates G.start [] ↔ ⟨G.start, []⟩ ∈ G.productions :=
  ⟨empty_mem_of_generates h, fun hmem => .of_rule hmem rfl⟩

theorem eq_of_empty_body (h : G.Normal) {r : Rule Body} (hr : r ∈ G.productions) (hbody : r.body = []) :
    r = ⟨G.start, []⟩ := by
  obtain ⟨A, w⟩ := r
  rcases h _ hr with ⟨u, hu⟩ | ⟨howner, -⟩
  · exact absurd (hu.symm.trans hbody) (toBody_ne_nil u)
  · simp only at howner hbody
    rw [howner, hbody]

/-- No word depends on an empty body where the start symbol owns none. -/
theorem generates_withoutEmptyBodies_of_not_mem (h : G.Normal) (hnone : ¬ (⟨G.start, []⟩ : Rule Body) ∈ G.productions)
    {A : Nonterminal} {x : Word} (hx : G.Generates A x) : G.withoutEmptyBodies.Generates A x := by
  refine hx.mono fun r hr => Grammar.mem_withoutEmptyBodies.2 ⟨hr, fun hbody => hnone ?_⟩
  rw [← eq_of_empty_body h hr hbody]
  exact hr

/-- Nor does a nonempty word where the start symbol occurs in no body. -/
theorem generates_withoutEmptyBodies_of_not_occurs (h : G.Normal)
    (hbodies : ∀ r ∈ G.productions, .nonterminal G.start ∉ r.body) {A : Nonterminal} {x : Word} (hne : x ≠ [])
    (hx : G.Generates A x) : G.withoutEmptyBodies.Generates A x := by
  -- Inside a derivation no nonterminal is the start symbol, and the others have no empty body to lose.
  have hboth : (A ≠ G.start → G.withoutEmptyBodies.Generates A x) ∧
      (x ≠ [] → G.withoutEmptyBodies.Generates A x) := by
    refine hx.interpret (I := fun B y => (B ≠ G.start → G.withoutEmptyBodies.Generates B y) ∧
      (y ≠ [] → G.withoutEmptyBodies.Generates B y)) fun r hr y hy => ?_
    by_cases hbody : r.body = []
    · have hstart := eq_of_empty_body h hr hbody
      subst hstart
      exact ⟨fun hB => absurd rfl hB, fun hy' => absurd (reads_nil.1 hy) hy'⟩
    · have hinner : ∀ B, .nonterminal B ∈ r.body → B ≠ G.start := by
        intro B hB e
        rw [e] at hB
        exact hbodies r hr hB
      have hword : G.withoutEmptyBodies.Generates r.owner y :=
        .of_rule (Grammar.mem_withoutEmptyBodies.2 ⟨hr, hbody⟩) (hy.imp fun B hB z hz => hz.1 (hinner B hB))
      exact ⟨fun _ => hword, fun _ => hword⟩
  exact hboth.2 hne

theorem Reading.generates_of_accepts (h : Reading G N) {w : Word} (hw : N.accepts w = true) :
    G.Generates G.start w := by
  rcases h.accepts_iff_reads.1 hw with ⟨rfl, hempty⟩ | ⟨-, hword⟩
  · exact (empty_generates_iff h.normal).2 hempty
  · exact hword.of_withoutEmptyBodies

theorem Reading.accepts_of_generates (h : Reading G N) {w : Word} (hw : G.Generates G.start w)
    (hword : w ≠ [] → G.withoutEmptyBodies.Generates G.start w) : N.accepts w = true := by
  by_cases hne : w = []
  · subst hne
    exact h.accepts_iff_reads.2 (Or.inl ⟨rfl, (empty_generates_iff h.normal).1 hw⟩)
  · exact h.accepts_iff_reads.2 (Or.inr ⟨hne, hword hne⟩)

/-- What is read as a normal form accepts a word that the grammar derives if and only if the word is empty or has a
derivation without an empty body, and no other word.  It loses none if the start symbol owns no empty body or occurs in
no body. -/
theorem accepts_exactly (G : Grammar) (N : NormalForm) (h : ofGrammar G = .ok N) :
    (∀ w, N.accepts w = true → G.Generates G.start w) ∧
    (∀ w, (N.accepts w = true ↔ G.Generates G.start w) ↔
      (w ≠ [] → G.Generates G.start w → G.withoutEmptyBodies.Generates G.start w)) ∧
    (¬ (⟨G.start, []⟩ : Rule Body) ∈ G.productions ∨ (∀ r ∈ G.productions, .nonterminal G.start ∉ r.body) →
      ∀ w, N.accepts w = true ↔ G.Generates G.start w) := by
  have hreading := ofGrammar_reading h
  have hsound : ∀ w, N.accepts w = true → G.Generates G.start w := fun w hw => hreading.generates_of_accepts hw
  refine ⟨hsound, fun w => ⟨fun hiff hne hw => ?_, fun hcond => ⟨hsound w, fun hw => ?_⟩⟩,
    fun hsimple w => ⟨hsound w, fun hw => ?_⟩⟩
  · rcases hreading.accepts_iff_reads.1 (hiff.2 hw) with ⟨rfl, -⟩ | ⟨-, hword⟩
    · exact absurd rfl hne
    · exact hword
  · exact hreading.accepts_of_generates hw fun hne => hcond hne hw
  · refine hreading.accepts_of_generates hw fun hne => ?_
    rcases hsimple with hnone | hbodies
    · exact generates_withoutEmptyBodies_of_not_mem hreading.normal hnone hw
    · exact generates_withoutEmptyBodies_of_not_occurs hreading.normal hbodies hne hw

/-- `S → AS | ε` and `A → a`. -/
def repetition : Grammar :=
  let S : Nonterminal := ⟨.ofChar 'S'⟩
  let A : Nonterminal := ⟨.ofChar 'A'⟩
  let a : Terminal := ⟨.ofChar 'a'⟩
  .ofParts S [S, A] [a] [⟨S, [.nonterminal A, .nonterminal S]⟩, ⟨S, []⟩, ⟨A, [.terminal a]⟩]

/-- The word `a` is lost, since `S` stands for the empty word in its only derivation. -/
theorem accepts_exactly_repetition : ∃ N, ofGrammar repetition = .ok N ∧ N.accepts (.ofString "a") = false ∧
    repetition.Generates repetition.start (.ofString "a") ∧
    ¬ repetition.withoutEmptyBodies.Generates repetition.start (.ofString "a") := by
  have hword : repetition.Generates repetition.start (.ofString "a") := by
    have hA : repetition.Generates ⟨.ofChar 'A'⟩ (.ofString "a") :=
      .of_rule (w := [.terminal ⟨.ofChar 'a'⟩]) (by decide) (reads_letter.2 rfl)
    have hS : repetition.Generates repetition.start [] := .of_rule (w := []) (by decide) rfl
    exact .of_rule (w := [.nonterminal ⟨.ofChar 'A'⟩, .nonterminal repetition.start]) (by decide)
      (reads_cons.2 ⟨_, [], rfl, reads_unit.2 hA, reads_unit.2 hS⟩)
  refine ⟨_, rfl, rfl, hword, fun hread => ?_⟩
  have haccepts := (((accepts_exactly repetition _ rfl).2.1 (.ofString "a")).2 fun _ _ => hread).2 hword
  cases haccepts

end NormalForm

namespace Grammar

variable {G : Grammar}

/-- The result of a run derives its nonempty words without an empty body. -/
theorem result_generates_iff (hG : G.Valid) {w : Word} (hne : w ≠ []) :
    G.passThrough.result.withoutEmptyBodies.Generates G.start w ↔ G.Generates G.start w := by
  constructor
  · intro h
    exact h.of_withoutEmptyBodies.of_result hG (start_mem_pruned hG)
  · intro h
    exact h.result hG (start_mem_pruned hG) hne

/-- A valid grammar has a normal form, which accepts exactly the words that the start symbol derives. -/
theorem toNormalForm_accepts (G : Grammar) (h : G.validate = .ok ()) :
    ∃ N, G.toNormalForm = .ok N ∧ ∀ w, N.accepts w = true ↔ G.Generates G.start w := by
  have hG := validate_eq_ok.1 h
  obtain ⟨N, hN⟩ := NormalForm.exists_ofGrammar (result_normal hG)
  have hread : G.toNormalForm = .ok N := by
    unfold toNormalForm
    rw [run_eq_passThrough h]
    simp only [hN]
    rfl
  refine ⟨N, hread, fun w => ?_⟩
  rw [(NormalForm.ofGrammar_reading hN).accepts_iff_reads, passThrough_result_start]
  by_cases hne : w = []
  · subst hne
    rw [empty_mem_result hG]
    simp
  · rw [result_generates_iff hG hne]
    simp [hne]

theorem toNormalForm_accepts_balanced : balanced.validate = .ok () ∧ ∃ N,
    balanced.toNormalForm = .ok N ∧ ∀ w, N.accepts w = true ↔ balanced.Generates balanced.start w :=
  ⟨rfl, toNormalForm_accepts balanced rfl⟩

end Grammar

end NormalGrammar
