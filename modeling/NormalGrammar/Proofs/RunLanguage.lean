import NormalGrammar.Run
import NormalGrammar.Proofs.Validity

/-!
# Words of a run

Before binarization a run has removed erasing and unit productions and pruned the grammar (`Grammar.pruned`).  From
there on it splits long bodies and isolates terminals (`exists_names`).  No stage adds a word to a nonterminal that it
keeps, and from the first stage on every nonempty word is derived without an empty body, which is what the later
stages rely on.
-/

namespace NormalGrammar

/-- The passes in front of binarization. -/
def Run.passesBeforeBinarization (run : Run) : List Pass :=
  run.passes.takeWhile fun p => decide (p.stage ≠ .binarization)

/-- The last grammar of a run before binarization. -/
def Run.beforeBinarization? (run : Run) : Option Grammar :=
  (run.passes.takeWhile fun p => decide (p.stage ≠ .binarization)).getLast?.map Pass.result

namespace Grammar

variable {G : Grammar}

/-! ### The passes -/

/-- What is left after the first three stages. -/
def reduced (G : Grammar) : Grammar := G.withoutErasing.withoutUnits.withoutInaccessible

/-- What binarization starts from: the inaccessible symbols are removed again if unproductive ones were found. -/
def pruned (G : Grammar) : Grammar :=
  if G.reduced.withoutUnproductive ≈ G.reduced then G.reduced.withoutUnproductive
  else G.reduced.withoutUnproductive.withoutInaccessible

/-- If no unproductive symbols are found, then nothing is removed behind the first three stages. -/
theorem pruned_of_productive {H : Grammar} (hreduced : G.reduced = H) (hproductive : H.withoutUnproductive = H) :
    G.pruned = H := by
  rw [pruned, hreduced, hproductive]
  exact if_pos (Equivalent.refl H)

theorem passThrough_result : G.passThrough.result = (Draft.isolate (Draft.binarize ⟨G.pruned, {}⟩)).grammar := by
  simp only [passThrough, Pass.followedBy, Pass.result, Pass.after, Stage.apply, pruned, reduced]
  by_cases h : G.reduced.withoutUnproductive ≈ G.reduced
  · simp only [reduced] at h
    simp [h]
  · simp only [reduced] at h
    simp [h]

/-- The grammars before binarization, with one more if unproductive symbols were found. -/
theorem passThrough_results (G : Grammar) : G.passThrough.passesBeforeBinarization.map Pass.result =
    [G.withoutErasing, G.withoutErasing.withoutUnits, G.reduced, G.reduced.withoutUnproductive] ++
      if G.reduced.withoutUnproductive ≈ G.reduced then []
      else [G.reduced.withoutUnproductive.withoutInaccessible] := by
  simp only [Run.passesBeforeBinarization, passThrough, Pass.followedBy, Pass.result, Pass.after, Stage.apply, reduced]
  by_cases h : G.reduced.withoutUnproductive ≈ G.reduced
  · simp only [reduced] at h
    simp [h, Pass.result, Pass.after, Stage.apply]
  · simp only [reduced] at h
    simp [h, Pass.result, Pass.after, Stage.apply]

theorem passThrough_beforeBinarization? : G.passThrough.beforeBinarization? = some G.pruned := by
  have hlast : G.passThrough.beforeBinarization? =
      (G.passThrough.passesBeforeBinarization.map Pass.result).getLast? := List.getLast?_map.symm
  rw [hlast, passThrough_results]
  unfold pruned
  split <;> rfl

theorem run_eq_passThrough (h : G.validate = .ok ()) : G.run = .ok G.passThrough := by
  unfold run
  rw [h]

/-- The last two stages split the pruned grammar and isolate its terminals. -/
theorem exists_names (G : Grammar) : ∃ (names : Rule Body → List Nonterminal) (proxy : Terminal → Nonterminal)
    (B : Grammar), Splits G.pruned names B ∧ Isolates B proxy G.passThrough.result := by
  obtain ⟨names, hsplits⟩ := binarize_splits ⟨G.pruned, {}⟩
  obtain ⟨proxy, hisolates⟩ := isolate_isolates (Draft.binarize ⟨G.pruned, {}⟩)
  refine ⟨names, proxy, _, hsplits, ?_⟩
  rw [passThrough_result]
  exact hisolates

/-! ### Symbols of the pruned grammar -/

theorem declares_of_withoutInaccessible {s : Symbol} (hs : G.withoutInaccessible.DeclaresSymbol s) :
    G.DeclaresSymbol s := by
  cases s with
  | terminal t => exact (mem_withoutInaccessible_terminals.1 hs).1
  | nonterminal A => exact (mem_withoutInaccessible_nonterminals.1 hs).1

theorem declares_of_withoutUnproductive {s : Symbol} (hs : G.withoutUnproductive.DeclaresSymbol s) :
    G.DeclaresSymbol s := by
  cases s with
  | terminal t => exact (mem_withoutUnproductive_terminals.1 hs).1
  | nonterminal A => exact (mem_withoutUnproductive_nonterminals.1 hs).1

/-- Nothing is declared before binarization that was not declared from the start. -/
theorem declares_of_pruned {s : Symbol} (hs : G.pruned.DeclaresSymbol s) : G.DeclaresSymbol s := by
  have hreduced : G.reduced.DeclaresSymbol s := by
    unfold pruned at hs
    split at hs
    · exact declares_of_withoutUnproductive hs
    · exact declares_of_withoutUnproductive (declares_of_withoutInaccessible hs)
  have hunits : G.withoutErasing.withoutUnits.DeclaresSymbol s := declares_of_withoutInaccessible hreduced
  cases s with
  | terminal t => exact hunits
  | nonterminal A => exact hunits

/-! ### Words of the pruned grammar -/

theorem Valid.reduced (hG : G.Valid) : G.reduced.Valid := hG.withoutErasing.withoutUnits.withoutInaccessible

theorem Valid.pruned (hG : G.Valid) : G.pruned.Valid := by
  unfold Grammar.pruned
  split
  · exact hG.reduced.withoutUnproductive
  · exact hG.reduced.withoutUnproductive.withoutInaccessible

@[simp] theorem pruned_start : G.pruned.start = G.start := by
  unfold pruned
  split <;> rfl

theorem start_mem_pruned (hG : G.Valid) : G.start ∈ G.pruned.nonterminals := by
  rw [← pruned_start]
  exact hG.pruned.start

theorem mem_reduced_nonterminals {A : Nonterminal} :
    A ∈ G.reduced.nonterminals ↔ A ∈ G.nonterminals ∧ G.withoutErasing.withoutUnits.Reaches G.start A :=
  mem_withoutInaccessible_nonterminals

theorem Generates.of_reduced (hG : G.Valid) {A : Nonterminal} {x : Word} (h : G.reduced.Generates A x) :
    G.Generates A x :=
  (h.of_withoutInaccessible.of_withoutUnits hG.withoutErasing).of_withoutErasing

theorem Generates.of_pruned (hG : G.Valid) {A : Nonterminal} {x : Word} (h : G.pruned.Generates A x) :
    G.Generates A x := by
  unfold pruned at h
  split at h
  · exact h.of_withoutUnproductive.of_reduced hG
  · exact h.of_withoutInaccessible.of_withoutUnproductive.of_reduced hG

theorem Generates.reduced (hG : G.Valid) {A : Nonterminal} (hA : A ∈ G.reduced.nonterminals) {x : Word}
    (h : G.Generates A x) (hx : x ≠ []) : G.reduced.withoutEmptyBodies.Generates A x := by
  have hunits := (h.withoutErasing hx).withoutUnits hG.withoutErasing
  exact hunits.withoutInaccessible_withoutEmptyBodies (mem_reduced_nonterminals.1 hA).2

/-- A nonterminal that pruning leaves derives its nonempty words without any empty body. -/
theorem Generates.pruned (hG : G.Valid) {A : Nonterminal} (hA : A ∈ G.pruned.nonterminals) {x : Word}
    (h : G.Generates A x) (hx : x ≠ []) : G.pruned.withoutEmptyBodies.Generates A x := by
  unfold Grammar.pruned at hA ⊢
  split at hA
  · rename_i heq
    rw [if_pos heq]
    have hreduced := (mem_withoutUnproductive_nonterminals.1 hA).1
    exact (h.reduced hG hreduced hx).withoutUnproductive_withoutEmptyBodies
  · rename_i hne
    rw [if_neg hne]
    obtain ⟨hproductive, hreach⟩ := mem_withoutInaccessible_nonterminals.1 hA
    have hreduced := (mem_withoutUnproductive_nonterminals.1 hproductive).1
    have hword := (h.reduced hG hreduced hx).withoutUnproductive_withoutEmptyBodies
    exact hword.withoutInaccessible_withoutEmptyBodies hreach

/-- An empty body of the start symbol is never inaccessible. -/
private theorem empty_mem_withoutInaccessible {K : Grammar} {A : Nonterminal} {P : Prop}
    (h : ⟨A, []⟩ ∈ K.productions ↔ A = K.start ∧ P) :
    ⟨A, []⟩ ∈ K.withoutInaccessible.productions ↔ A = K.start ∧ P := by
  rw [mem_withoutInaccessible, h]
  constructor
  · exact fun h => h.1
  · intro h
    refine ⟨h, ?_⟩
    rw [h.1]
    exact .refl

private theorem empty_mem_reduced (hG : G.Valid) {A : Nonterminal} :
    ⟨A, []⟩ ∈ G.reduced.productions ↔ A = G.start ∧ G.Generates G.start [] := by
  apply empty_mem_withoutInaccessible
  rw [empty_mem_withoutUnits hG.withoutErasing, empty_mem_withoutErasing]
  exact Iff.rfl

/-- The start symbol owns an empty body if it derives the empty word, and no other nonterminal owns one. -/
theorem empty_mem_pruned (hG : G.Valid) {A : Nonterminal} :
    ⟨A, []⟩ ∈ G.pruned.productions ↔ A = G.start ∧ G.Generates G.start [] := by
  have hproductive : ⟨A, []⟩ ∈ G.reduced.withoutUnproductive.productions ↔ A = G.start ∧ G.Generates G.start [] := by
    rw [mem_withoutUnproductive, empty_mem_reduced hG]
    simp
  unfold pruned
  split
  · exact hproductive
  · exact empty_mem_withoutInaccessible hproductive

end Grammar

/-! ### Words of the result -/

theorem Splits.empty_mem {G H : Grammar} {names : Rule Body → List Nonterminal} (h : Splits G names H)
    {A : Nonterminal} : ⟨A, []⟩ ∈ H.productions ↔ ⟨A, []⟩ ∈ G.productions := by
  constructor
  · intro hA
    obtain ⟨r, hr, hlink⟩ := (h.productions _).1 hA
    rcases Chain.length_linksWith (h.length r hr) hlink with hlen | ⟨e, -⟩
    · simp at hlen
    · rw [e]
      exact hr
  · intro hA
    refine (h.productions _).2 ⟨_, hA, ?_⟩
    cases names ⟨A, []⟩ <;> simp [Chain.linksWith]

theorem Isolates.empty_mem {G H : Grammar} {proxy : Terminal → Nonterminal} (h : Isolates G proxy H)
    {A : Nonterminal} : ⟨A, []⟩ ∈ H.productions ↔ ⟨A, []⟩ ∈ G.productions := by
  constructor
  · intro hA
    rcases (h.productions _).1 hA with ⟨r, hr, e⟩ | ⟨t, -, e⟩
    · by_cases hempty : r.body = []
      · have hlen : r.body.length ≠ 2 := by simp [hempty]
        rw [Proxy.isolateWith_of_ne hlen] at e
        rwa [e]
      · exact absurd (congrArg Rule.body e).symm (Proxy.isolateWith_body_ne_nil hempty)
    · simp at e
  · intro hA
    exact h.isolated_mem hA

namespace Grammar

variable {G : Grammar}

theorem passThrough_result_start : G.passThrough.result.start = G.start := by
  obtain ⟨names, proxy, B, hsplits, hisolates⟩ := G.exists_names
  rw [hisolates.start, hsplits.start, pruned_start]

theorem empty_mem_result (hG : G.Valid) {A : Nonterminal} :
    ⟨A, []⟩ ∈ G.passThrough.result.productions ↔ A = G.start ∧ G.Generates G.start [] := by
  obtain ⟨names, proxy, B, hsplits, hisolates⟩ := G.exists_names
  rw [hisolates.empty_mem, hsplits.empty_mem, empty_mem_pruned hG]

theorem Generates.of_result (hG : G.Valid) {A : Nonterminal} (hA : A ∈ G.pruned.nonterminals) {x : Word}
    (h : G.passThrough.result.Generates A x) : G.Generates A x := by
  obtain ⟨names, proxy, B, hsplits, hisolates⟩ := G.exists_names
  have hB : A ∈ B.nonterminals := (hsplits.nonterminals A).2 (Or.inl hA)
  have hsplit := hisolates.generates (hsplits.valid hG.pruned) hB h
  exact (hsplits.generates hG.pruned hA hsplit).of_pruned hG

theorem Generates.result (hG : G.Valid) {A : Nonterminal} (hA : A ∈ G.pruned.nonterminals) {x : Word}
    (h : G.Generates A x) (hx : x ≠ []) : G.passThrough.result.withoutEmptyBodies.Generates A x := by
  obtain ⟨names, proxy, B, hsplits, hisolates⟩ := G.exists_names
  exact hisolates.generates_withoutEmptyBodies_of (hsplits.generates_withoutEmptyBodies_of (h.pruned hG hA hx))

theorem empty_generates_result (hG : G.Valid) :
    G.passThrough.result.Generates G.start [] ↔ G.Generates G.start [] := by
  constructor
  · exact fun h => h.of_result hG (start_mem_pruned hG)
  · intro h
    exact .of_rule ((empty_mem_result hG).2 ⟨rfl, h⟩) rfl

/-- The start symbol keeps exactly its words. -/
theorem start_generates_result (hG : G.Valid) {x : Word} :
    G.passThrough.result.Generates G.passThrough.result.start x ↔ G.Generates G.start x := by
  rw [passThrough_result_start]
  by_cases hx : x = []
  · rw [hx]
    exact empty_generates_result hG
  · constructor
    · exact fun h => h.of_result hG (start_mem_pruned hG)
    · exact fun h => (h.result hG (start_mem_pruned hG) hx).of_withoutEmptyBodies

/-- A run keeps the nonempty words of every nonterminal that is still declared before binarization, and the start
symbol keeps or lacks the empty word too. -/
theorem run_keeps_words (G : Grammar) (h : G.validate = .ok ()) : ∃ run core,
    G.run = .ok run ∧ run.beforeBinarization? = some core ∧
      (∀ A ∈ core.nonterminals, ∀ x, x ≠ [] → (run.result.Generates A x ↔ G.Generates A x)) ∧
      (run.result.Generates run.result.start [] ↔ G.Generates G.start []) := by
  have hG := validate_eq_ok.1 h
  refine ⟨G.passThrough, G.pruned, run_eq_passThrough h, passThrough_beforeBinarization?, ?_, ?_⟩
  · intro A hA x hx
    constructor
    · exact fun hword => hword.of_result hG hA
    · exact fun hword => (hword.result hG hA hx).of_withoutEmptyBodies
  · rw [passThrough_result_start]
    exact empty_generates_result hG

/-- The balanced words, by `S → aSb | SS | ε`. -/
def balanced : Grammar :=
  let S : Nonterminal := ⟨.ofChar 'S'⟩
  let a : Terminal := ⟨.ofChar 'a'⟩
  let b : Terminal := ⟨.ofChar 'b'⟩
  (ofStart S).addAll
    [⟨S, [.terminal a, .nonterminal S, .terminal b]⟩, ⟨S, [.nonterminal S, .nonterminal S]⟩, ⟨S, []⟩]

theorem run_keeps_words_balanced : balanced.validate = .ok () ∧ ∃ run core,
    balanced.run = .ok run ∧ run.beforeBinarization? = some core ∧
      (∀ A ∈ core.nonterminals, ∀ x, x ≠ [] → (run.result.Generates A x ↔ balanced.Generates A x)) ∧
      (run.result.Generates run.result.start [] ↔ balanced.Generates balanced.start []) :=
  ⟨rfl, run_keeps_words balanced rfl⟩

end Grammar

end NormalGrammar
