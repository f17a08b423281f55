import NormalGrammar.Grammar.Derivation

/-!
# Reading bodies under an interpretation

An interpretation says which words every nonterminal stands for, and a body then reads as a word symbol by symbol
(`Reads`).  A grammar interprets its nonterminals by the words that they derive, and this is the least interpretation
that is closed under its rules (`Generates.interpret`, `generates_iff_reads`).  To show that a stage adds no words to a
nonterminal it is enough to find an interpretation that is closed under the rules of its result.
-/

namespace NormalGrammar

/-- Which words every nonterminal stands for. -/
abbrev Interpretation := Nonterminal → Word → Prop

/-- The body is read as the word, the nonterminals standing for the words of `I`. -/
def Reads (I : Interpretation) : Body → Word → Prop
  | [], x => x = []
  | .terminal t :: w, x => ∃ y, x = t :: y ∧ Reads I w y
  | .nonterminal A :: w, x => ∃ y z, x = y ++ z ∧ I A y ∧ Reads I w z

variable {I J : Interpretation}

theorem reads_nil {x : Word} : Reads I [] x ↔ x = [] := Iff.rfl

theorem reads_unit {A : Nonterminal} {x : Word} : Reads I [.nonterminal A] x ↔ I A x := by
  constructor
  · rintro ⟨y, z, rfl, hy, hz⟩
    rw [reads_nil.1 hz, List.append_nil]
    exact hy
  · intro h
    exact ⟨x, [], (List.append_nil x).symm, h, rfl⟩

theorem reads_letter {t : Terminal} {x : Word} : Reads I [.terminal t] x ↔ x = [t] := by
  constructor
  · rintro ⟨y, rfl, hy⟩
    rw [reads_nil.1 hy]
  · rintro rfl
    exact ⟨[], rfl, rfl⟩

theorem reads_append {u v : Body} {x : Word} :
    Reads I (u ++ v) x ↔ ∃ y z, x = y ++ z ∧ Reads I u y ∧ Reads I v z := by
  induction u generalizing x with
  | nil =>
    constructor
    · intro h
      exact ⟨[], x, rfl, rfl, h⟩
    · rintro ⟨y, z, rfl, rfl, hz⟩
      exact hz
  | cons s u ih =>
    cases s with
    | terminal t =>
      constructor
      · rintro ⟨y, rfl, hy⟩
        obtain ⟨y, z, rfl, hu, hv⟩ := ih.1 hy
        exact ⟨t :: y, z, rfl, ⟨y, rfl, hu⟩, hv⟩
      · rintro ⟨_, z, rfl, ⟨y, rfl, hu⟩, hv⟩
        exact ⟨y ++ z, rfl, ih.2 ⟨y, z, rfl, hu, hv⟩⟩
    | nonterminal A =>
      constructor
      · rintro ⟨y, z, rfl, hA, hz⟩
        obtain ⟨p, q, rfl, hu, hv⟩ := ih.1 hz
        exact ⟨y ++ p, q, (List.append_assoc ..).symm, ⟨y, p, rfl, hA, hu⟩, hv⟩
      · rintro ⟨_, q, rfl, ⟨y, p, rfl, hA, hu⟩, hv⟩
        exact ⟨y, p ++ q, List.append_assoc .., hA, ih.2 ⟨p, q, rfl, hu, hv⟩⟩

theorem reads_cons {s : Symbol} {w : Body} {x : Word} :
    Reads I (s :: w) x ↔ ∃ y z, x = y ++ z ∧ Reads I [s] y ∧ Reads I w z := by
  rw [← List.singleton_append, reads_append]

/-- Only the nonterminals of the body matter. -/
theorem Reads.imp {w : Body} {x : Word} (h : Reads I w x)
    (hIJ : ∀ A, .nonterminal A ∈ w → ∀ y, I A y → J A y) : Reads J w x := by
  induction w generalizing x with
  | nil => exact h
  | cons s w ih =>
    have hw : ∀ A, .nonterminal A ∈ w → ∀ y, I A y → J A y := fun A hA => hIJ A (List.mem_cons_of_mem _ hA)
    cases s with
    | terminal t =>
      obtain ⟨y, rfl, hy⟩ := h
      exact ⟨y, rfl, ih hy hw⟩
    | nonterminal A =>
      obtain ⟨y, z, rfl, hA, hz⟩ := h
      exact ⟨y, z, rfl, hIJ A List.mem_cons_self y hA, ih hz hw⟩

theorem Reads.mono {w : Body} {x : Word} (h : Reads I w x) (hIJ : ∀ A y, I A y → J A y) : Reads J w x :=
  h.imp fun A _ => hIJ A

/-- Every nonterminal of a body that is read stands for some word. -/
theorem Reads.exists_word {w : Body} {x : Word} (h : Reads I w x) {A : Nonterminal} (hA : .nonterminal A ∈ w) :
    ∃ y, I A y := by
  obtain ⟨u, v, rfl⟩ := List.append_of_mem hA
  obtain ⟨_, _, -, -, hv⟩ := reads_append.1 h
  obtain ⟨y, _, -, hy, -⟩ := hv
  exact ⟨y, hy⟩

/-- A body whose nonterminals all stand for something is read as some word. -/
theorem exists_reads {w : Body} (h : ∀ A, .nonterminal A ∈ w → ∃ y, I A y) : ∃ x, Reads I w x := by
  induction w with
  | nil => exact ⟨[], rfl⟩
  | cons s w ih =>
    obtain ⟨x, hx⟩ := ih fun A hA => h A (List.mem_cons_of_mem _ hA)
    cases s with
    | terminal t => exact ⟨t :: x, x, rfl, hx⟩
    | nonterminal A =>
      obtain ⟨y, hy⟩ := h A List.mem_cons_self
      exact ⟨y ++ x, y, x, rfl, hy, hx⟩

/-- A body is read as the empty word if all its symbols are nonterminals that stand for it. -/
theorem reads_empty_iff {w : Body} : Reads I w [] ↔ ∀ s ∈ w, ∃ A, s = .nonterminal A ∧ I A [] := by
  induction w with
  | nil => simp [Reads]
  | cons s w ih =>
    rw [List.forall_mem_cons, ← ih]
    cases s with
    | terminal t => simp [Reads]
    | nonterminal A =>
      constructor
      · rintro ⟨y, z, e, hA, hw⟩
        obtain ⟨rfl, rfl⟩ := List.append_eq_nil_iff.1 e.symm
        exact ⟨⟨A, rfl, hA⟩, hw⟩
      · rintro ⟨⟨B, e, hB⟩, hw⟩
        cases e
        exact ⟨[], [], rfl, hB, hw⟩

namespace Grammar

variable {G H : Grammar}

/-! ### The words of a grammar -/

theorem generates_iff_yields {A : Nonterminal} {x : Word} : G.Generates A x ↔ G.Yields [.nonterminal A] x :=
  derives_iff_yields

theorem yields_iff_reads {w : Body} {x : Word} : G.Yields w x ↔ Reads G.Generates w x := by
  induction w generalizing x with
  | nil =>
    constructor
    · intro h
      cases h
      rfl
    · rintro rfl
      exact .nil
  | cons s w ih =>
    cases s with
    | terminal t =>
      constructor
      · intro h
        cases h with
        | terminal _ rest => exact ⟨_, rfl, ih.1 rest⟩
      · rintro ⟨y, rfl, hy⟩
        exact .terminal t (ih.2 hy)
    | nonterminal A =>
      rw [← List.singleton_append, yields_append]
      constructor
      · rintro ⟨y, z, rfl, hy, hz⟩
        exact ⟨y, z, rfl, generates_iff_yields.2 hy, ih.1 hz⟩
      · rintro ⟨y, z, rfl, hy, hz⟩
        exact ⟨y, z, rfl, generates_iff_yields.1 hy, ih.2 hz⟩

/-- A nonterminal derives what its bodies are read as. -/
theorem generates_iff_reads {A : Nonterminal} {x : Word} :
    G.Generates A x ↔ ∃ w, ⟨A, w⟩ ∈ G.productions ∧ Reads G.Generates w x := by
  rw [generates_iff_yields]
  constructor
  · intro h
    cases h with
    | nonterminal rule own rest =>
      cases rest
      rw [List.append_nil]
      exact ⟨_, rule, yields_iff_reads.1 own⟩
  · rintro ⟨w, hw, hx⟩
    have h := Yields.nonterminal hw (yields_iff_reads.2 hx) .nil
    rwa [List.append_nil] at h

theorem Generates.of_rule {A : Nonterminal} {w : Body} {x : Word} (rule : ⟨A, w⟩ ∈ G.productions)
    (h : Reads G.Generates w x) : G.Generates A x :=
  generates_iff_reads.2 ⟨w, rule, h⟩

/-- An interpretation that is closed under the rules holds all words of the grammar. -/
theorem Generates.interpret (closed : ∀ r ∈ G.productions, ∀ x, Reads I r.body x → I r.owner x)
    {A : Nonterminal} {x : Word} (h : G.Generates A x) : I A x := by
  suffices ∀ {w x}, G.Yields w x → Reads I w x from reads_unit.1 (this (generates_iff_yields.1 h))
  intro w x h
  induction h with
  | nil => rfl
  | terminal t _ ih => exact ⟨_, rfl, ih⟩
  | nonterminal rule _ _ ihown ihrest => exact ⟨_, _, rfl, closed _ rule _ ihown, ihrest⟩

/-- The same where the words are known to be derivable. -/
theorem Generates.interpret_and
    (closed : ∀ r ∈ G.productions, ∀ x, Reads (fun A y => G.Generates A y ∧ I A y) r.body x → I r.owner x)
    {A : Nonterminal} {x : Word} (h : G.Generates A x) : I A x := by
  refine (Generates.interpret (I := fun A y => G.Generates A y ∧ I A y) (fun r hr x hx => ⟨?_, closed r hr x hx⟩) h).2
  exact .of_rule hr (hx.mono fun _ _ h => h.1)

/-- More rules give no fewer words. -/
theorem Generates.mono (hGH : ∀ r ∈ G.productions, r ∈ H.productions) {A : Nonterminal} {x : Word}
    (h : G.Generates A x) : H.Generates A x :=
  h.interpret fun r hr _ hx => .of_rule (hGH r hr) hx

/-! ### Derivations that use no empty body -/

/-- The grammar without its empty bodies. -/
def withoutEmptyBodies (G : Grammar) : Grammar :=
  { G with productions := G.productions.filter fun r => !r.body.isEmpty }

@[simp] theorem mem_withoutEmptyBodies {r : Rule Body} :
    r ∈ G.withoutEmptyBodies.productions ↔ r ∈ G.productions ∧ r.body ≠ [] := by
  simp [withoutEmptyBodies]

theorem Generates.of_withoutEmptyBodies {A : Nonterminal} {x : Word} (h : G.withoutEmptyBodies.Generates A x) :
    G.Generates A x :=
  h.mono fun _ hr => (mem_withoutEmptyBodies.1 hr).1

end Grammar

end NormalGrammar
