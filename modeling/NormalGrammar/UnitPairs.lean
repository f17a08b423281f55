import NormalGrammar.Event
import NormalGrammar.Saturation
import NormalGrammar.Grammar

/-!
# Unit productions

The facts `A → B` say that the nonterminal `B` is reached from `A` by unit productions only.  Every declared
nonterminal reaches itself, and what it reaches leads on by unit productions to whatever their targets reach.
`withoutUnits` gives every nonterminal the other bodies of all that it reaches, except that an empty body stays with
its owner.
-/

namespace NormalGrammar

namespace Grammar

/-- The targets of the unit productions of `A`. -/
def unitTargets (G : Grammar) (A : Nonterminal) : List Nonterminal := (G.bodies A).toList.filterMap Body.unit?

/-- What is reached from `A` by a unit production of something known to be reached from `A`. -/
def unitInference (G : Grammar) (A : Nonterminal) : Inference (Rule Nonterminal) := fun known =>
  let targets := OrderedSet.ofList ((Productions.bodies known A).toList.flatMap G.unitTargets)
  let reached := OrderedSet.ofList (targets.toList.flatMap fun B => (Productions.bodies known B).toList)
  reached.toList.map (Rule.mk A)

theorem unitInference_bounded (G : Grammar) :
    Bounded (G.nonterminals.toList.map G.unitInference)
      (fun f => f.owner ∈ G.nonterminals ∧ f.body ∈ G.nonterminals) where
  finite := by
    refine ⟨G.nonterminals.toList.flatMap fun A => G.nonterminals.toList.map (Rule.mk A), fun f hf => ?_⟩
    exact List.mem_flatMap.2 ⟨f.owner, hf.1, List.mem_map_of_mem hf.2⟩
  closed known hknown infer hi f hf := by
    obtain ⟨A, hA, rfl⟩ := List.mem_map.1 hi
    obtain ⟨C, hC, rfl⟩ := List.mem_map.1 hf
    obtain ⟨B, -, hB⟩ := List.mem_flatMap.1 (OrderedSet.mem_ofList.1 hC)
    exact ⟨hA, (hknown _ (Productions.mem_bodies.1 hB)).2⟩

/-- All pairs of nonterminals of which the first reaches the second by unit productions. -/
def unitPairs (G : Grammar) : Saturated (Rule Nonterminal) :=
  saturate (G.nonterminals.toList.map G.unitInference) G.unitInference_bounded
    (.ofList (G.nonterminals.toList.map fun A => ⟨A, A⟩))
    (fun f hf => by
      obtain ⟨A, hA, rfl⟩ := List.mem_map.1 (OrderedSet.mem_ofList.1 hf)
      exact ⟨hA, hA⟩)

/-- The bodies that `A` takes over from the nonterminals in `reached`. -/
def unitFreeBodies (G : Grammar) (A : Nonterminal) (reached : OrderedSet Nonterminal) : OrderedSet Body :=
  .ofList (reached.toList.flatMap fun B =>
    (G.bodies B).toList.filter fun w => w.unit?.isNone && (!w.isEmpty || decide (B = A)))

def withoutUnits (G : Grammar) : Grammar :=
  let pairs := G.unitPairs.facts
  { G with
    productions := .ofFamily G.nonterminals fun A => G.unitFreeBodies A (Productions.bodies pairs A) }

def unitEvents (G : Grammar) : List Event :=
  let pairs := G.unitPairs
  let found (A : Nonterminal) : List Event :=
    let reached := Productions.bodies pairs.facts A
    let names := braced (reached.toList.map Nonterminal.text)
    ⟨.trace, .units, s!"Unit pairs of {A.text}: {names}"⟩ ::
      if (G.unitFreeBodies A reached).isEmpty then [⟨.debug, .units, s!"{A.text} has no productions left"⟩] else []
  [⟨.debug, .units, "Eliminating unit productions"⟩] ++ G.nonterminals.toList.flatMap found ++
    [⟨.trace, .units, s!"Unit pair closure took {pairs.rounds} rounds"⟩]

end Grammar

end NormalGrammar
