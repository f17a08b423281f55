import NormalGrammar.Stage
import NormalGrammar.Proofs.Binarization
import NormalGrammar.Proofs.Erasure
import NormalGrammar.Proofs.Isolation
import NormalGrammar.Proofs.Pruning
import NormalGrammar.Proofs.UnitPairs

/-!
# Stages keep grammars valid

Each stage turns a valid grammar into a valid one, whatever names were drawn before (`Stage.valid_apply`).  The first
two stages leave the declarations alone and put no new symbol into a body, pruning declares what is left, and the last
two declare the nonterminals that they add, none of which has the name of a terminal.
-/

namespace NormalGrammar

namespace Grammar

variable {G H : Grammar}

namespace Valid

theorem withoutErasing (hG : G.Valid) : G.withoutErasing.Valid where
  start := hG.start
  unambiguous := hG.unambiguous
  owner := by
    intro r hr
    rcases mem_withoutErasing.1 hr with ⟨-, w, hw, -⟩ | ⟨rfl, -⟩
    · exact hG.owner ⟨r.owner, w⟩ hw
    · exact hG.start
  body := by
    intro r hr s hs
    rcases mem_withoutErasing.1 hr with ⟨-, w, hw, hv⟩ | ⟨rfl, -⟩
    · exact hG.body _ hw s (mem_of_mem_variants hv hs)
    · simp at hs

theorem withoutUnits (hG : G.Valid) : G.withoutUnits.Valid where
  start := hG.start
  unambiguous := hG.unambiguous
  owner := fun _ hr => ((mem_withoutUnits hG).1 hr).1
  body := by
    intro r hr s hs
    obtain ⟨-, B, -, hB, -⟩ := (mem_withoutUnits hG).1 hr
    exact hG.body _ hB s hs

/-- Declaring less makes no name ambiguous. -/
private theorem unambiguous_of_declared (hG : G.Valid) (hterminals : ∀ t ∈ H.terminals, t ∈ G.terminals)
    (hnonterminals : ∀ A ∈ H.nonterminals, A ∈ G.nonterminals) (name : Name) :
    ¬ (⟨name⟩ ∈ H.terminals ∧ ⟨name⟩ ∈ H.nonterminals) :=
  fun h => hG.unambiguous name ⟨hterminals _ h.1, hnonterminals _ h.2⟩

theorem withoutInaccessible (hG : G.Valid) : G.withoutInaccessible.Valid where
  start := mem_withoutInaccessible_nonterminals.2 ⟨hG.start, .refl⟩
  unambiguous := hG.unambiguous_of_declared (fun _ ht => (mem_withoutInaccessible_terminals.1 ht).1)
    fun _ hA => (mem_withoutInaccessible_nonterminals.1 hA).1
  owner := by
    intro r hr
    obtain ⟨hrule, hreach⟩ := mem_withoutInaccessible.1 hr
    exact mem_withoutInaccessible_nonterminals.2 ⟨hG.owner r hrule, hreach⟩
  body := by
    intro r hr s hs
    obtain ⟨hrule, hreach⟩ := mem_withoutInaccessible.1 hr
    have hdeclared := hG.body r hrule s hs
    cases s with
    | terminal t => exact mem_withoutInaccessible_terminals.2 ⟨hdeclared, r, hr, hs⟩
    | nonterminal A => exact mem_withoutInaccessible_nonterminals.2 ⟨hdeclared, hreach.tail ⟨r.body, hrule, hs⟩⟩

theorem withoutUnproductive (hG : G.Valid) : G.withoutUnproductive.Valid where
  start := mem_withoutUnproductive_nonterminals.2 ⟨hG.start, Or.inr rfl⟩
  unambiguous := hG.unambiguous_of_declared (fun _ ht => (mem_withoutUnproductive_terminals.1 ht).1)
    fun _ hA => (mem_withoutUnproductive_nonterminals.1 hA).1
  owner := by
    intro r hr
    obtain ⟨hrule, hbody⟩ := mem_withoutUnproductive.1 hr
    obtain ⟨x, hx⟩ := exists_reads hbody
    exact mem_withoutUnproductive_nonterminals.2 ⟨hG.owner r hrule, Or.inl ⟨x, .of_rule hrule hx⟩⟩
  body := by
    intro r hr s hs
    obtain ⟨hrule, hbody⟩ := mem_withoutUnproductive.1 hr
    have hdeclared := hG.body r hrule s hs
    cases s with
    | terminal t => exact mem_withoutUnproductive_terminals.2 ⟨hdeclared, r, hr, hs⟩
    | nonterminal A => exact mem_withoutUnproductive_nonterminals.2 ⟨hdeclared, Or.inl (hbody A hs)⟩

end Valid

end Grammar

namespace Splits

variable {G H : Grammar} {names : Rule Body → List Nonterminal}

theorem valid (h : Splits G names H) (hG : G.Valid) : H.Valid where
  start := by
    rw [h.start]
    exact (h.nonterminals _).2 (Or.inl hG.start)
  unambiguous := by
    rintro name ⟨ht, hA⟩
    rw [h.terminals] at ht
    rcases (h.nonterminals _).1 hA with hA | ⟨r, hr, hX⟩
    · exact hG.unambiguous name ⟨ht, hA⟩
    · exact h.notTerminal r hr _ hX ht
  owner := by
    intro q hq
    obtain ⟨r, hr, hlink⟩ := (h.productions q).1 hq
    refine (h.nonterminals _).2 ?_
    rcases Chain.owner_of_mem_linksWith hlink with e | hX
    · rw [e]
      exact Or.inl (hG.owner r hr)
    · exact Or.inr ⟨r, hr, hX⟩
  body := by
    intro q hq s hs
    obtain ⟨r, hr, hlink⟩ := (h.productions q).1 hq
    rcases Chain.symbol_of_mem_linksWith hlink hs with hs | ⟨X, hX, rfl⟩
    · have hdeclared := hG.body r hr s hs
      cases s with
      | terminal t =>
        show t ∈ H.terminals
        rw [h.terminals]
        exact hdeclared
      | nonterminal A => exact (h.nonterminals A).2 (Or.inl hdeclared)
    · exact (h.nonterminals X).2 (Or.inr ⟨r, hr, hX⟩)

end Splits

namespace Isolates

variable {G H : Grammar} {proxy : Terminal → Nonterminal}

theorem valid (h : Isolates G proxy H) (hG : G.Valid) : H.Valid where
  start := by
    rw [h.start]
    exact (h.nonterminals _).2 (Or.inl hG.start)
  unambiguous := by
    rintro name ⟨ht, hA⟩
    rw [h.terminals] at ht
    rcases (h.nonterminals _).1 hA with hA | ⟨u, hu, e⟩
    · exact hG.unambiguous name ⟨ht, hA⟩
    · refine h.notTerminal u hu ?_
      rw [← e]
      exact ht
  owner := by
    intro q hq
    rcases (h.productions q).1 hq with ⟨r, hr, rfl⟩ | ⟨t, ht, rfl⟩
    · rw [Proxy.isolateWith_owner]
      exact (h.nonterminals _).2 (Or.inl (hG.owner r hr))
    · exact (h.nonterminals _).2 (Or.inr ⟨t, ht, rfl⟩)
  body := by
    intro q hq s hs
    have hterminal : ∀ t, t ∈ G.terminals → H.DeclaresSymbol (.terminal t) := by
      intro t ht
      show t ∈ H.terminals
      rwa [h.terminals]
    rcases (h.productions q).1 hq with ⟨r, hr, rfl⟩ | ⟨t, ht, rfl⟩
    · rcases Proxy.mem_isolateWith hs with hs | ⟨t, hlen, ht, rfl⟩
      · have hdeclared := hG.body r hr s hs
        cases s with
        | terminal t => exact hterminal t hdeclared
        | nonterminal A => exact (h.nonterminals A).2 (Or.inl hdeclared)
      · exact (h.nonterminals _).2 (Or.inr ⟨t, Grammar.mem_pairedTerminals.2 ⟨r, hr, hlen, ht⟩, rfl⟩)
    · rw [List.mem_singleton.1 hs]
      obtain ⟨r, hr, -, hmem⟩ := Grammar.mem_pairedTerminals.1 ht
      exact hterminal t (hG.body r hr _ hmem)

end Isolates

/-- Every stage keeps a valid grammar valid. -/
theorem Stage.valid_apply (stage : Stage) {d : Draft} (h : d.grammar.Valid) : (stage.apply d).grammar.Valid := by
  cases stage with
  | erasure => exact h.withoutErasing
  | units => exact h.withoutUnits
  | accessibility => exact h.withoutInaccessible
  | productivity => exact h.withoutUnproductive
  | binarization =>
    obtain ⟨names, hsplits⟩ := binarize_splits d
    exact hsplits.valid h
  | isolation =>
    obtain ⟨proxy, hisolates⟩ := isolate_isolates d
    exact hisolates.valid h

end NormalGrammar
