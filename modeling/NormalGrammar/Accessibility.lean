import NormalGrammar.Event
import NormalGrammar.Grammar
import NormalGrammar.Saturation

/-!
# Accessible symbols

A nonterminal is accessible if it is the start symbol or occurs in a body of an accessible one.  The accessible ones
are found in order of their distance from the start symbol.  `withoutInaccessible` keeps only them and their
productions, and the terminals that still occur.
-/

namespace NormalGrammar

namespace Grammar

/-- The nonterminals in the bodies of `A`. -/
def successors (G : Grammar) (A : Nonterminal) : List Nonterminal := (G.bodies A).toList.flatMap Body.nonterminals

def accessInference (G : Grammar) : Inference Nonterminal := fun known => known.toList.flatMap G.successors

theorem accessInference_bounded (G : Grammar) :
    Bounded [G.accessInference] (· ∈ G.start :: G.owners.toList.flatMap G.successors) where
  finite := ⟨_, fun _ h => h⟩
  closed known _ infer hi A hA := by
    rw [List.mem_singleton] at hi
    subst hi
    obtain ⟨B, -, hB⟩ := List.mem_flatMap.1 hA
    obtain ⟨w, hw, -⟩ := List.mem_flatMap.1 hB
    exact List.mem_cons_of_mem _ (List.mem_flatMap.2 ⟨B, mem_owners.2 ⟨w, mem_bodies.1 hw⟩, hB⟩)

/-- The nonterminals that the start symbol reaches through bodies, the nearest first. -/
def accessible (G : Grammar) : OrderedSet Nonterminal :=
  (saturate [G.accessInference] G.accessInference_bounded (.singleton G.start)
    (fun A hA => by rw [OrderedSet.mem_singleton.1 hA]; exact List.mem_cons_self)).facts

def withoutInaccessible (G : Grammar) : Grammar :=
  let accessible := G.accessible
  withUsedTerminals { G with
    nonterminals := G.nonterminals.filter fun A => decide (A ∈ accessible)
    productions := G.productions.arranged.filter fun r => decide (r.owner ∈ accessible) }

def accessibilityEvents (G : Grammar) : List Event :=
  let accessible := G.accessible
  let removed := (G.nonterminals.toList.filter fun A => decide (¬ A ∈ accessible)).map Nonterminal.text
  [⟨.debug, .accessibility, "Removing inaccessible symbols"⟩,
    ⟨.trace, .accessibility, s!"Accessible non-terminals: {braced (accessible.toList.map Nonterminal.text)}"⟩] ++
  if removed.isEmpty then [] else [⟨.debug, .accessibility, s!"Removing {commaSeparated removed}"⟩]

end Grammar

end NormalGrammar
