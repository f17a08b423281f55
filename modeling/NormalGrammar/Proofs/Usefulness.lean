import NormalGrammar.Proofs.Trim

/-!
# Every symbol of a result is of use

A symbol occurs in a grammar if it stands between two words in some body that the start symbol derives.  What occurs
passes from the owner of a rule to every symbol of its body, as the other symbols of the body derive words
(`Occurs.of_rule`).  In a trim grammar all nonterminals occur (`Trim.occurs`) and derive words unless the language is
empty, so each is used in the derivation of some word (`Trim.exists_derivation`), and each terminal is a letter of some
word (`Trim.exists_word`).  The result of a run is trim, so it has no useless symbols (`result_useful`).
-/

namespace NormalGrammar

namespace Grammar

variable {G : Grammar}

/-- The symbol stands between two words in a body that the start symbol derives. -/
def Occurs (G : Grammar) (s : Symbol) : Prop :=
  ∃ x y : Word, G.Derives [.nonterminal G.start] (x.toBody ++ s :: y.toBody)

theorem occurs_start (G : Grammar) : G.Occurs (.nonterminal G.start) := ⟨[], [], .refl _⟩

/-- A body derives a word if all its nonterminals do. -/
theorem exists_derives_word {w : Body} (h : ∀ A, .nonterminal A ∈ w → ∃ x, G.Generates A x) :
    ∃ x : Word, G.Derives w x.toBody := by
  obtain ⟨x, hx⟩ := exists_reads h
  exact ⟨x, derives_iff_yields.2 (yields_iff_reads.2 hx)⟩

/-- A symbol of a body occurs if the owner does, since what stands beside it derives words. -/
theorem Occurs.of_rule {A : Nonterminal} {w : Body} (hA : G.Occurs (.nonterminal A)) (rule : ⟨A, w⟩ ∈ G.productions)
    (hwords : ∀ B, .nonterminal B ∈ w → ∃ x, G.Generates B x) {s : Symbol} (hs : s ∈ w) : G.Occurs s := by
  obtain ⟨x, y, houter⟩ := hA
  obtain ⟨u, v, rfl⟩ := List.append_of_mem hs
  obtain ⟨p, hp⟩ : ∃ p : Word, G.Derives u p.toBody :=
    exists_derives_word fun B hB => hwords B (List.mem_append_left _ hB)
  obtain ⟨q, hq⟩ : ∃ q : Word, G.Derives v q.toBody :=
    exists_derives_word fun B hB => hwords B (List.mem_append_right _ (List.mem_cons_of_mem _ hB))
  have hstep := (Step.replace x.toBody y.toBody rule).derives
  have hbody : G.Derives (u ++ s :: v) (p.toBody ++ s :: q.toBody) := hp.append (Derives.append (.refl [s]) hq)
  have hinner := Derives.append (.refl x.toBody) (hbody.append (.refl y.toBody))
  have hwhole := (houter.trans hstep).trans hinner
  refine ⟨x ++ p, q ++ y, ?_⟩
  simpa only [Word.toBody, List.map_append, List.append_assoc, List.cons_append] using hwhole

/-- In a trim grammar everything accessible occurs. -/
theorem Trim.occurs (hG : G.Trim) {A : Nonterminal} (h : G.Reaches G.start A) : G.Occurs (.nonterminal A) := by
  induction h with
  | refl => exact G.occurs_start
  | tail _ hstep ih =>
    obtain ⟨w, hw, hB⟩ := hstep
    exact ih.of_rule hw (hG.productive _ hw) hB

/-- A nonterminal is used in the derivation of some word if there is a word at all. -/
theorem Trim.exists_derivation (hG : G.Trim) (hword : ∃ x, G.Generates G.start x) {A : Nonterminal}
    (hA : A ∈ G.nonterminals) : ∃ (u v : Body) (w : Word), G.Derives [.nonterminal G.start] (u ++ .nonterminal A :: v) ∧
      G.Derives (u ++ .nonterminal A :: v) w.toBody := by
  obtain ⟨x, y, houter⟩ := hG.occurs (hG.accessible A hA)
  obtain ⟨z, hz⟩ : ∃ z, G.Generates A z := by
    rcases hG.productive_or_start hA with hproductive | rfl
    · exact hproductive
    · exact hword
  have hinner := Derives.append (.refl x.toBody) (hz.append (.refl y.toBody))
  refine ⟨x.toBody, y.toBody, x ++ (z ++ y), houter, ?_⟩
  simpa only [Word.toBody, List.map_append, List.singleton_append] using hinner

/-- A terminal is a letter of some word. -/
theorem Trim.exists_word (hG : G.Trim) (hvalid : G.Valid) {t : Terminal} (ht : t ∈ G.terminals) :
    ∃ w, t ∈ w ∧ G.Generates G.start w := by
  obtain ⟨r, hr, hmem⟩ := hG.used t ht
  have howner := hG.occurs (hG.accessible _ (hvalid.owner r hr))
  obtain ⟨x, y, hword⟩ := howner.of_rule hr (hG.productive r hr) hmem
  refine ⟨x ++ t :: y, by simp, ?_⟩
  simpa only [Generates, Word.toBody, List.map_append, List.map_cons] using hword

/-- The result of a run over a grammar of some word has no useless symbols: every nonterminal is used in the derivation
of some word, and every terminal occurs in some word of the language. -/
theorem result_useful (G : Grammar) (h : G.validate = .ok ()) (hword : ∃ x, G.Generates G.start x) : ∃ run,
    G.run = .ok run ∧
    (∀ A ∈ run.result.nonterminals, ∃ (u v : Body) (w : Word),
      run.result.Derives [.nonterminal run.result.start] (u ++ .nonterminal A :: v) ∧
        run.result.Derives (u ++ .nonterminal A :: v) w.toBody) ∧
    (∀ t ∈ run.result.terminals, ∃ w, t ∈ w ∧ run.result.Generates run.result.start w ∧ G.Generates G.start w) := by
  have hG := validate_eq_ok.1 h
  have htrim := result_trim hG
  refine ⟨G.passThrough, run_eq_passThrough h, fun A hA => ?_, fun t ht => ?_⟩
  · refine htrim.exists_derivation ?_ hA
    obtain ⟨x, hx⟩ := hword
    exact ⟨x, (start_generates_result hG).2 hx⟩
  · obtain ⟨w, hmem, hw⟩ := htrim.exists_word (result_valid hG) ht
    exact ⟨w, hmem, hw, (start_generates_result hG).1 hw⟩

/-- `S → AB | aab`, `A → a` and `B → bB`, where `A` is accessible only together with `B`, which derives no word. -/
def orphaned : Grammar :=
  let S : Nonterminal := ⟨.ofChar 'S'⟩
  let A : Nonterminal := ⟨.ofChar 'A'⟩
  let B : Nonterminal := ⟨.ofChar 'B'⟩
  let a : Terminal := ⟨.ofChar 'a'⟩
  let b : Terminal := ⟨.ofChar 'b'⟩
  (ofStart S).addAll
    [⟨S, [.nonterminal A, .nonterminal B]⟩, ⟨S, [.terminal a, .terminal a, .terminal b]⟩, ⟨A, [.terminal a]⟩,
      ⟨B, [.terminal b, .nonterminal B]⟩]

theorem result_useful_orphaned : orphaned.validate = .ok () ∧ orphaned.Generates orphaned.start (.ofString "aab") ∧
    ∃ run, orphaned.run = .ok run ∧
    (∀ A ∈ run.result.nonterminals, ∃ (u v : Body) (w : Word),
      run.result.Derives [.nonterminal run.result.start] (u ++ .nonterminal A :: v) ∧
        run.result.Derives (u ++ .nonterminal A :: v) w.toBody) ∧
    (∀ t ∈ run.result.terminals, ∃ w, t ∈ w ∧ run.result.Generates run.result.start w ∧
      orphaned.Generates orphaned.start w) := by
  have hword : orphaned.Generates orphaned.start (.ofString "aab") :=
    .of_rule (w := Word.toBody (.ofString "aab")) (by decide) (yields_iff_reads.1 (yields_toBody _))
  exact ⟨rfl, hword, result_useful orphaned rfl ⟨_, hword⟩⟩

end Grammar

end NormalGrammar
