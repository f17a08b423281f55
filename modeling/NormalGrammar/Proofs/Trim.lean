import NormalGrammar.Proofs.RunLanguage

/-!
# Results have no useless symbols

A grammar is trim if all its nonterminals are accessible, all that its bodies mention derive some word, and all its
terminals occur in bodies.  Pruning makes a grammar trim (`pruned_trim`): once the unproductive symbols are gone, the
second removal of inaccessible ones leaves the remaining words alone.  Splitting and isolation add only useful symbols,
so the result of a run is trim (`result_trim`).
-/

namespace NormalGrammar

/-- Every declared symbol is of use. -/
structure Grammar.Trim (G : Grammar) : Prop where
  accessible : ∀ A ∈ G.nonterminals, G.Reaches G.start A
  productive : ∀ r ∈ G.productions, ∀ A, .nonterminal A ∈ r.body → ∃ x, G.Generates A x
  used : ∀ t ∈ G.terminals, ∃ r ∈ G.productions, .terminal t ∈ r.body

namespace Grammar

variable {G H : Grammar}

/-- An accessible nonterminal other than the start symbol occurs in a body, so it is productive. -/
theorem Trim.productive_or_start (hG : G.Trim) {A : Nonterminal} (hA : A ∈ G.nonterminals) :
    (∃ x, G.Generates A x) ∨ A = G.start := by
  cases hG.accessible A hA with
  | refl => exact Or.inr rfl
  | tail _ hstep =>
    obtain ⟨w, hw, hmem⟩ := hstep
    exact Or.inl (hG.productive _ hw A hmem)

/-- What is reached step by step in one grammar is reached in another that can follow every step. -/
theorem Reaches.of_leads (hGH : ∀ A B, G.Leads A B → H.Reaches A B) {A B : Nonterminal} (h : G.Reaches A B) :
    H.Reaches A B :=
  Relation.ReflTransGen.lift' id hGH A B h

theorem Reaches.mono (hGH : ∀ r ∈ G.productions, r ∈ H.productions) {A B : Nonterminal} (h : G.Reaches A B) :
    H.Reaches A B := by
  refine h.of_leads fun C D hstep => .single ?_
  obtain ⟨w, hw, hD⟩ := hstep
  exact ⟨w, hGH _ hw, hD⟩

/-! ### Pruning -/

theorem Reaches.withoutInaccessible {A : Nonterminal} (h : G.Reaches G.start A) :
    G.withoutInaccessible.Reaches G.start A := by
  induction h with
  | refl => exact .refl
  | tail hreach hstep ih =>
    obtain ⟨w, hw, hA⟩ := hstep
    exact ih.tail ⟨w, mem_withoutInaccessible.2 ⟨hw, hreach⟩, hA⟩

theorem accessible_withoutInaccessible :
    ∀ A ∈ G.withoutInaccessible.nonterminals, G.withoutInaccessible.Reaches G.start A :=
  fun _ hA => (mem_withoutInaccessible_nonterminals.1 hA).2.withoutInaccessible

theorem productive_withoutUnproductive : ∀ r ∈ G.withoutUnproductive.productions,
    ∀ A, .nonterminal A ∈ r.body → ∃ x, G.withoutUnproductive.Generates A x := by
  intro r hr A hA
  obtain ⟨x, hx⟩ := (mem_withoutUnproductive.1 hr).2 A hA
  exact ⟨x, hx.withoutUnproductive⟩

/-- If pruning the unproductive symbols changes nothing, the accessible symbols stay so. -/
private theorem trim_of_unchanged (hsame : G.withoutInaccessible.withoutUnproductive ≈ G.withoutInaccessible) :
    G.withoutInaccessible.withoutUnproductive.Trim where
  accessible := by
    intro A hA
    have hreach := accessible_withoutInaccessible A ((hsame.nonterminals A).1 hA)
    exact hreach.mono fun r hr => (hsame.productions r).2 hr
  productive := productive_withoutUnproductive
  used := fun _ ht => (mem_withoutUnproductive_terminals.1 ht).2

/-- Without its unproductive symbols a grammar becomes trim by removing the inaccessible ones. -/
theorem trim_of_swept : G.withoutUnproductive.withoutInaccessible.Trim where
  accessible := accessible_withoutInaccessible
  productive := by
    intro r hr A hA
    obtain ⟨hrule, hreach⟩ := mem_withoutInaccessible.1 hr
    obtain ⟨x, hx⟩ := productive_withoutUnproductive r hrule A hA
    exact ⟨x, hx.withoutInaccessible (hreach.tail ⟨r.body, hrule, hA⟩)⟩
  used := fun _ ht => (mem_withoutInaccessible_terminals.1 ht).2

theorem pruned_trim : G.pruned.Trim := by
  unfold pruned
  split
  · rename_i hsame
    exact trim_of_unchanged hsame
  · exact trim_of_swept

end Grammar

/-! ### Binarization -/

namespace Splits

variable {G H : Grammar} {names : Rule Body → List Nonterminal}

theorem reaches (h : Splits G names H) {A B : Nonterminal} (hreach : G.Reaches A B) : H.Reaches A B := by
  refine hreach.of_leads fun C D hstep => ?_
  obtain ⟨w, hw, hD⟩ := hstep
  exact Grammar.reaches_of_linksWith (h.length_le hw) (h.links_mem hw) (Or.inl hD)

/-- What an inner link stands for is read as some word, so the link derives it. -/
theorem inner_productive (h : Splits G names H) (hG : G.Trim) {r : Rule Body} (hr : r ∈ G.productions)
    {X : Nonterminal} (hX : X ∈ names r) : ∃ x, H.Generates X x := by
  obtain ⟨v, hv⟩ := Chain.exists_remainder (h.length_le hr) hX
  have hwords : ∀ A, .nonterminal A ∈ v → ∃ y, H.Generates A y := by
    intro A hA
    obtain ⟨y, hy⟩ := hG.productive r hr A (Chain.mem_body_of_mem_remainders hv hA)
    exact ⟨y, h.generates_of hy⟩
  obtain ⟨x, hx⟩ := exists_reads hwords
  exact ⟨x, Grammar.generates_of_mem_remainders (h.length_le hr) (h.links_mem hr) hv hx⟩

theorem trim (h : Splits G names H) (hvalid : G.Valid) (hG : G.Trim) : H.Trim where
  accessible := by
    intro A hA
    rw [h.start]
    rcases (h.nonterminals A).1 hA with hA | ⟨r, hr, hX⟩
    · exact h.reaches (hG.accessible A hA)
    · -- An inner link is reached from the owner of its chain.
      have howner := h.reaches (hG.accessible _ (hvalid.owner r hr))
      exact howner.trans (Grammar.reaches_of_linksWith (h.length_le hr) (h.links_mem hr) (Or.inr hX))
  productive := by
    intro q hq A hA
    obtain ⟨r, hr, hlink⟩ := (h.productions q).1 hq
    rcases Chain.symbol_of_mem_linksWith hlink hA with hA | ⟨X, hX, e⟩
    · obtain ⟨x, hx⟩ := hG.productive r hr A hA
      exact ⟨x, h.generates_of hx⟩
    · cases e
      exact h.inner_productive hG hr hX
  used := by
    intro t ht
    rw [h.terminals] at ht
    obtain ⟨r, hr, hmem⟩ := hG.used t ht
    have hlink : ∃ q ∈ Chain.linksWith (names r) r.owner r.body, .terminal t ∈ q.body := Chain.exists_link hmem
    obtain ⟨q, hq, hmem⟩ := hlink
    exact ⟨q, h.links_mem hr q hq, hmem⟩

end Splits

/-! ### Isolation -/

namespace Isolates

variable {G H : Grammar} {proxy : Terminal → Nonterminal}

theorem reaches (h : Isolates G proxy H) {A B : Nonterminal} (hreach : G.Reaches A B) : H.Reaches A B := by
  refine hreach.of_leads fun C D hstep => .single ?_
  obtain ⟨w, hw, hD⟩ := hstep
  exact ⟨_, h.isolated_body_mem hw, Proxy.nonterminal_mem_isolateWith hD⟩

theorem trim (h : Isolates G proxy H) (hvalid : G.Valid) (hG : G.Trim) : H.Trim where
  accessible := by
    intro A hA
    rw [h.start]
    rcases (h.nonterminals A).1 hA with hA | ⟨t, ht, rfl⟩
    · exact h.reaches (hG.accessible A hA)
    · obtain ⟨r, hr, hlen, hmem⟩ := Grammar.mem_pairedTerminals.1 ht
      have howner := h.reaches (hG.accessible _ (hvalid.owner r hr))
      exact howner.tail ⟨_, h.isolated_body_mem hr, Proxy.proxy_mem_isolateWith hlen hmem⟩
  productive := by
    intro q hq A hA
    rcases (h.productions q).1 hq with ⟨r, hr, rfl⟩ | ⟨t, -, rfl⟩
    · rcases Proxy.mem_isolateWith hA with hA | ⟨t, hlen, ht, e⟩
      · obtain ⟨x, hx⟩ := hG.productive r hr A hA
        exact ⟨x, h.generates_of hx⟩
      · cases e
        have hrule := h.proxy_mem (Grammar.mem_pairedTerminals.2 ⟨r, hr, hlen, ht⟩)
        exact ⟨[t], .of_rule hrule (reads_letter.2 rfl)⟩
    · rw [List.mem_singleton] at hA
      cases hA
  used := by
    intro t ht
    rw [h.terminals] at ht
    obtain ⟨r, hr, hmem⟩ := hG.used t ht
    by_cases hlen : r.body.length = 2
    · exact ⟨_, h.proxy_mem (Grammar.mem_pairedTerminals.2 ⟨r, hr, hlen, hmem⟩), List.mem_singleton_self _⟩
    · refine ⟨r, ?_, hmem⟩
      have hrule := h.isolated_mem hr
      rwa [Proxy.isolateWith_of_ne hlen] at hrule

end Isolates

namespace Grammar

variable {G : Grammar}

theorem result_valid (hG : G.Valid) : G.passThrough.result.Valid := by
  obtain ⟨names, proxy, B, hsplits, hisolates⟩ := G.exists_names
  exact hisolates.valid (hsplits.valid hG.pruned)

theorem result_trim (hG : G.Valid) : G.passThrough.result.Trim := by
  obtain ⟨names, proxy, B, hsplits, hisolates⟩ := G.exists_names
  exact hisolates.trim (hsplits.valid hG.pruned) (hsplits.trim hG.pruned pruned_trim)

end Grammar

end NormalGrammar
