import NormalGrammar.Grammar.Words
import NormalGrammar.Proofs.Reading
import NormalGrammar.Proofs.Rounds

/-!
# Which short words are found

A body gives rise to the short words that it is read as when its nonterminals stand for the words known so far
(`mem_bodyWords`): a word that is short in the end has only short fronts, so cutting long ones off on the way loses
nothing.  So every fact is a derivation, and as nothing can be added in the end every derivation of a short word is
found (`mem_wordFacts`), however long it is.
-/

namespace NormalGrammar

/-- Only factors of the word matter, which are no longer than the word. -/
theorem Reads.imp_of_length_le {I J : Interpretation} {w : Body} {x : Word} (h : Reads I w x)
    (hIJ : ∀ A y, y.length ≤ x.length → I A y → J A y) : Reads J w x := by
  induction w generalizing x with
  | nil => exact h
  | cons s w ih =>
    cases s with
    | terminal t =>
      obtain ⟨y, rfl, hy⟩ := h
      refine ⟨y, rfl, ih hy fun A z hz => hIJ A z ?_⟩
      rw [List.length_cons]
      omega
    | nonterminal A =>
      obtain ⟨y, z, rfl, hA, hz⟩ := h
      rw [List.length_append] at hIJ
      exact ⟨y, z, rfl, hIJ A y (by omega) hA, ih hz fun B u hu => hIJ B u (by omega)⟩

namespace Grammar

variable {G : Grammar} {limit : Nat} {known : OrderedSet (Rule Word)}

/-- What is known, as an interpretation. -/
def knownReading (known : OrderedSet (Rule Word)) : Interpretation := fun A x => ⟨A, x⟩ ∈ known

theorem mem_knownWords {s : Symbol} {x : Word} : x ∈ knownWords known s ↔ Reads (knownReading known) [s] x := by
  cases s with
  | terminal t => rw [knownWords, List.mem_singleton, reads_letter]
  | nonterminal A => rw [knownWords, OrderedSet.mem_toList, Productions.mem_bodies, reads_unit, knownReading]

/-- Fronts are continued by what the rest of the body is read as. -/
private theorem mem_foldl_joinWords {body : Body} {fronts : List Word} (hfronts : ∀ u ∈ fronts, u.length ≤ limit)
    {x : Word} : x ∈ body.foldl (fun fronts s => joinWords limit fronts (knownWords known s)) fronts ↔
      x.length ≤ limit ∧ ∃ u ∈ fronts, ∃ v, x = u ++ v ∧ Reads (knownReading known) body v := by
  induction body generalizing fronts with
  | nil =>
    rw [List.foldl_nil]
    constructor
    · intro hx
      exact ⟨hfronts x hx, x, hx, [], (List.append_nil x).symm, rfl⟩
    · rintro ⟨-, u, hu, v, rfl, hv⟩
      rw [reads_nil.1 hv, List.append_nil]
      exact hu
  | cons s body ih =>
    rw [List.foldl_cons, ih fun u hu => (mem_joinWords.1 hu).2]
    constructor
    · rintro ⟨hlen, y, hy, z, rfl, hz⟩
      obtain ⟨⟨u, hu, a, ha, rfl⟩, -⟩ := mem_joinWords.1 hy
      refine ⟨hlen, u, hu, a ++ z, List.append_assoc .., ?_⟩
      exact reads_cons.2 ⟨a, z, rfl, mem_knownWords.1 ha, hz⟩
    · rintro ⟨hlen, u, hu, v, rfl, hv⟩
      obtain ⟨a, z, rfl, ha, hz⟩ := reads_cons.1 hv
      -- The front `u ++ a` is no longer than the whole word, so it is kept.
      have hshort : (u ++ a).length ≤ limit := by
        simp only [List.length_append] at hlen ⊢
        omega
      have hfront : u ++ a ∈ joinWords limit fronts (knownWords known s) :=
        mem_joinWords.2 ⟨⟨u, hu, a, mem_knownWords.2 ha, rfl⟩, hshort⟩
      exact ⟨hlen, u ++ a, hfront, z, (List.append_assoc ..).symm, hz⟩

theorem mem_bodyWords {body : Body} {x : Word} :
    x ∈ bodyWords limit known body ↔ x.length ≤ limit ∧ Reads (knownReading known) body x := by
  unfold bodyWords
  rw [mem_foldl_joinWords (by simp)]
  simp

theorem mem_wordInference {r : Rule Body} {f : Rule Word} : f ∈ wordInference limit r known ↔
    f.owner = r.owner ∧ f.body.length ≤ limit ∧ Reads (knownReading known) r.body f.body := by
  rw [wordInference, List.mem_map]
  constructor
  · rintro ⟨x, hx, rfl⟩
    exact ⟨rfl, mem_bodyWords.1 hx⟩
  · rintro ⟨howner, hx⟩
    exact ⟨f.body, mem_bodyWords.2 hx, by rw [← howner]⟩

/-- The facts are the derivations of short words. -/
theorem mem_wordFacts {A : Nonterminal} {x : Word} :
    ⟨A, x⟩ ∈ G.wordFacts limit ↔ x.length ≤ limit ∧ G.Generates A x := by
  constructor
  · refine fun h => saturate_induction (G.wordInference_bounded limit) _
      (P := fun f => f.body.length ≤ limit ∧ G.Generates f.owner f.body) (by simp) ?_ _ h
    intro known hknown infer hi f hf
    obtain ⟨r, hr, rfl⟩ := List.mem_map.1 hi
    obtain ⟨howner, hlen, hread⟩ := mem_wordInference.1 hf
    refine ⟨hlen, ?_⟩
    rw [howner]
    exact .of_rule (mem_rules.1 hr) (hread.mono fun B y hy => (hknown _ hy).2)
  · rintro ⟨hlen, hword⟩
    refine hword.interpret (I := fun B y => y.length ≤ limit → ⟨B, y⟩ ∈ G.wordFacts limit)
      (fun r hr y hy hle => ?_) hlen
    have hread : Reads (knownReading (G.wordFacts limit)) r.body y :=
      hy.imp_of_length_le fun B z hz hB => hB (Nat.le_trans hz hle)
    have hinfer : ⟨r.owner, y⟩ ∈ wordInference limit r (G.wordFacts limit) := mem_wordInference.2 ⟨rfl, hle, hread⟩
    exact mem_saturate_of_infer _ _ (List.mem_map_of_mem (mem_rules.2 hr)) hinfer

/-- One round over all productions. -/
def wordRound (G : Grammar) (limit : Nat) : OrderedSet (Rule Word) → OrderedSet (Rule Word) :=
  inferRound (G.rules.map (wordInference limit))

/-- After finitely many rounds that each find something, a round finds nothing and the search ends.  It has then found,
each once, exactly the words up to the limit that the start symbol derives. -/
theorem shortWords_exactly (G : Grammar) (limit : Nat) :
    (∃ n, (G.wordRound limit)^[n] .empty = G.wordFacts limit ∧
      G.wordRound limit (G.wordFacts limit) = G.wordFacts limit ∧
      ∀ m < n, (G.wordRound limit)^[m + 1] .empty ≠ (G.wordRound limit)^[m] .empty) ∧
    (G.shortWords limit).toList.Nodup ∧
    ∀ x, x ∈ (G.shortWords limit).toList ↔ x.length ≤ limit ∧ G.Generates G.start x := by
  refine ⟨?_, (G.shortWords limit).nodup, fun x => ?_⟩
  · have hempty : ∀ f ∈ (.empty : OrderedSet (Rule Word)), G.IsShortFact limit f := by simp
    obtain ⟨n, -, hfacts, hidle, hbusy⟩ := saturate_iterate (G.wordInference_bounded limit) hempty
    exact ⟨n, hfacts, hidle, hbusy⟩
  · rw [OrderedSet.mem_toList, shortWords, Productions.mem_bodies, mem_wordFacts]

end Grammar

end NormalGrammar
