import NormalGrammar.Proofs.StageSequence

/-!
# Names that a run draws

The last two stages draw names: binarization for the links of its chains, isolation for its proxies (`Pass.drawn`).  Each
name is new to the grammar that it is drawn for, so the result of a run declares the nonterminals that were left before
binarization and those that were drawn, all different, and no name that was left is drawn (`run_draws_undeclared`).  A
name that the stages before have removed may well be drawn again (`run_draws_declared`).
-/

namespace NormalGrammar

/-- The nonterminals that own the links behind the first. -/
def Chain.drawn (c : Chain) : List Nonterminal := c.links.tail.map Rule.owner

/-- The nonterminals that a pass draws. -/
def Pass.drawn (p : Pass) : List Nonterminal :=
  match p.stage with
  | .binarization => (Draft.chains p.before.grammar.rules p.before).1.flatMap Chain.drawn
  | .isolation => (Draft.proxies p.before.grammar.pairedTerminals.toList p.before).1.map Proxy.nonterminal
  | .erasure | .units | .accessibility | .productivity => []

def Run.drawn (run : Run) : List Nonterminal := run.passes.flatMap Pass.drawn

/-! ### What is drawn is declared, and was not before -/

namespace Draft

theorem adds_chainLinks (A : Nonterminal) (w : Body) (d : Draft) :
    d.Adds ((chainLinks A w d).1.tail.map Rule.owner) (chainLinks A w d).2 := by
  obtain ⟨Xs, hlen, hlinks, hadds⟩ := chainLinks_eq A w d
  have hle : Xs.length ≤ w.length := by omega
  rw [hlinks, List.map_tail, Chain.owners_linksWith hle]
  exact hadds

theorem adds_chains (rules : List (Rule Body)) (d : Draft) :
    d.Adds ((chains rules d).1.flatMap Chain.drawn) (chains rules d).2 := by
  induction rules generalizing d with
  | nil => exact .refl d
  | cons r rules ih => exact (adds_chainLinks r.owner r.body d).trans (ih _)

theorem adds_proxies (ts : List Terminal) (d : Draft) :
    d.Adds ((proxies ts d).1.map Proxy.nonterminal) (proxies ts d).2 := by
  induction ts generalizing d with
  | nil => exact .refl d
  | cons t ts ih => exact (adds_newProxy d t).trans (ih _)

end Draft

namespace Pass

theorem drawn_undeclared (p : Pass) : ∀ X ∈ p.drawn, ¬ p.before.grammar.declares X.name := by
  unfold drawn
  split
  · exact fun _ hX => (Draft.adds_chains _ _).undeclared hX
  · exact fun _ hX => (Draft.adds_proxies _ _).undeclared hX
  all_goals exact fun _ hX => absurd hX List.not_mem_nil

/-- The last two stages declare what they draw, and then only set productions. -/
theorem adds_drawn {p : Pass} (h : p.stage = .binarization ∨ p.stage = .isolation) :
    ∃ e rules, p.before.Adds p.drawn e ∧ p.after = e.withProductions rules := by
  obtain ⟨stage, d⟩ := p
  rcases h with rfl | rfl
  · exact ⟨_, _, Draft.adds_chains d.grammar.rules d, d.binarize_eq⟩
  · exact ⟨_, _, Draft.adds_proxies d.grammar.pairedTerminals.toList d, d.isolate_eq⟩

theorem result_nonterminals {p : Pass} (h : p.stage = .binarization ∨ p.stage = .isolation) :
    p.result.nonterminals.toList = p.before.grammar.nonterminals.toList ++ p.drawn := by
  obtain ⟨e, rules, hadds, hafter⟩ := adds_drawn h
  rw [result, hafter]
  exact hadds.nonterminals

theorem result_terminals {p : Pass} (h : p.stage = .binarization ∨ p.stage = .isolation) :
    p.result.terminals = p.before.grammar.terminals := by
  obtain ⟨e, rules, hadds, hafter⟩ := adds_drawn h
  rw [result, hafter]
  exact hadds.terminals

theorem declares_result {p : Pass} (h : p.stage = .binarization ∨ p.stage = .isolation) {name : Name}
    (hname : p.before.grammar.declares name) : p.result.declares name := by
  rw [Grammar.declares_iff] at hname ⊢
  rcases hname with hA | ht
  · left
    rw [← OrderedSet.mem_toList, result_nonterminals h]
    exact List.mem_append_left _ hA
  · right
    rw [result_terminals h]
    exact ht

end Pass

namespace Grammar

variable {G : Grammar}

/-- The pass that splits the bodies that are left. -/
def binarizationPass (G : Grammar) : Pass := ⟨.binarization, G.pruned, {}⟩

def isolationPass (G : Grammar) : Pass := G.binarizationPass.followedBy .isolation

@[simp] theorem binarizationPass_before : G.binarizationPass.before.grammar = G.pruned := rfl

@[simp] theorem isolationPass_before : G.isolationPass.before.grammar = G.binarizationPass.result := rfl

theorem passThrough_result_eq : G.passThrough.result = G.isolationPass.result := passThrough_result

theorem passThrough_drawn : G.passThrough.drawn = G.binarizationPass.drawn ++ G.isolationPass.drawn := by
  simp only [Run.drawn, passThrough, Pass.followedBy, Pass.result, Pass.after, Stage.apply, binarizationPass,
    isolationPass, pruned, reduced]
  by_cases h : G.reduced.withoutUnproductive ≈ G.reduced
  · simp only [reduced] at h
    simp [h, Pass.drawn]
  · simp only [reduced] at h
    simp [h, Pass.drawn]

/-- What is drawn is declared behind what was left before binarization. -/
theorem passThrough_nonterminals (G : Grammar) :
    G.passThrough.result.nonterminals.toList = G.pruned.nonterminals.toList ++ G.passThrough.drawn := by
  rw [passThrough_result_eq, passThrough_drawn, Pass.result_nonterminals (Or.inr rfl), isolationPass_before,
    Pass.result_nonterminals (Or.inl rfl), binarizationPass_before, List.append_assoc]

/-- The result of a run declares what is left before binarization, all of which was declared from the start, and behind
it the nonterminals that are drawn.  These are all different, and none has the name of a symbol that is left. -/
theorem run_draws_undeclared (G : Grammar) (h : G.validate = .ok ()) : ∃ run core,
    G.run = .ok run ∧ run.beforeBinarization? = some core ∧
      (∀ s, core.DeclaresSymbol s → G.DeclaresSymbol s) ∧
      run.result.nonterminals.toList = core.nonterminals.toList ++ run.drawn ∧
      run.drawn.Nodup ∧ ∀ X ∈ run.drawn, ¬ core.declares X.name := by
  have hresult := G.passThrough_nonterminals
  refine ⟨G.passThrough, G.pruned, run_eq_passThrough h, passThrough_beforeBinarization?, fun _ => declares_of_pruned,
    hresult, ?_, fun X hX hdeclared => ?_⟩
  · have hnodup := G.passThrough.result.nonterminals.nodup
    rw [hresult, List.nodup_append] at hnodup
    exact hnodup.2.1
  · rw [passThrough_drawn, List.mem_append] at hX
    rw [← binarizationPass_before] at hdeclared
    rcases hX with hX | hX
    · exact G.binarizationPass.drawn_undeclared X hX hdeclared
    · have hlater : G.binarizationPass.result.declares X.name := Pass.declares_result (Or.inl rfl) hdeclared
      rw [← isolationPass_before] at hlater
      exact G.isolationPass.drawn_undeclared X hX hlater

/-- `X1` stays in use, so that the one link behind the first is owned by `X2`. -/
theorem run_draws_undeclared_crowded : crowded.validate = .ok () ∧ ∃ run core,
    crowded.run = .ok run ∧ run.beforeBinarization? = some core ∧
      (∀ s, core.DeclaresSymbol s → crowded.DeclaresSymbol s) ∧
      run.result.nonterminals.toList = core.nonterminals.toList ++ run.drawn ∧
      run.drawn.Nodup ∧ ∀ X ∈ run.drawn, ¬ core.declares X.name := by
  have hvalid : crowded.validate = .ok () := by decide
  exact ⟨hvalid, run_draws_undeclared crowded hvalid⟩

/-- `S → X1` and `X1 → abc`. -/
def takenOver : Grammar :=
  let S : Nonterminal := ⟨.ofChar 'S'⟩
  let X : Nonterminal := ⟨Name.numbered 1⟩
  (ofStart S).addAll [⟨S, [.nonterminal X]⟩, ⟨X, ("abc".toList.map fun c => .terminal ⟨.ofChar c⟩)⟩]

/-- `S → abc`. -/
def singleWord : Grammar :=
  let S : Nonterminal := ⟨.ofChar 'S'⟩
  (ofStart S).addAll [⟨S, (Word.ofString "abc").toBody⟩]

/-- When `S` has taken over the body, `X1` is no longer accessible. -/
theorem pruned_takenOver : takenOver.pruned = singleWord := by
  have herasure : takenOver.withoutErasing = takenOver := by
    have hfacts : takenOver.nullable.facts = .empty := OrderedSet.ext (by cbv)
    unfold withoutErasing
    rw [hfacts]
    decide
  have hunits : takenOver.withoutUnits = singleWord.addAll [⟨⟨Name.numbered 1⟩, (Word.ofString "abc").toBody⟩] := by
    have hfacts : takenOver.unitPairs.facts = .ofList [⟨⟨.ofChar 'S'⟩, ⟨.ofChar 'S'⟩⟩,
        ⟨⟨Name.numbered 1⟩, ⟨Name.numbered 1⟩⟩, ⟨⟨.ofChar 'S'⟩, ⟨Name.numbered 1⟩⟩] := OrderedSet.ext (by cbv)
    unfold withoutUnits
    rw [hfacts]
    decide
  have haccessible : takenOver.withoutUnits.withoutInaccessible = singleWord := by
    rw [hunits]
    have hfacts : (singleWord.addAll [⟨⟨Name.numbered 1⟩, (Word.ofString "abc").toBody⟩]).accessible =
        .singleton ⟨.ofChar 'S'⟩ := OrderedSet.ext (by cbv)
    unfold withoutInaccessible
    rw [hfacts]
    decide
  have hproductive : singleWord.withoutUnproductive = singleWord := by
    have hfacts : singleWord.productive.facts = .singleton ⟨.ofChar 'S'⟩ := OrderedSet.ext (by cbv)
    unfold withoutUnproductive
    rw [hfacts]
    decide
  exact pruned_of_productive (by rw [reduced, herasure, haccessible]) hproductive

/-- The run draws the name of `X1` again, for a link of its own. -/
theorem run_draws_declared : takenOver.validate = .ok () ∧ ⟨Name.numbered 1⟩ ∈ takenOver.nonterminals ∧
    ∃ run, takenOver.run = .ok run ∧ ⟨Name.numbered 1⟩ ∈ run.drawn := by
  have hvalid : takenOver.validate = .ok () := by decide
  have hresult : takenOver.passThrough.result.nonterminals.toList = [⟨.ofChar 'S'⟩] ++ [⟨Name.numbered 1⟩,
      ⟨Name.proxy ⟨.ofChar 'a'⟩⟩, ⟨Name.proxy ⟨.ofChar 'b'⟩⟩, ⟨Name.proxy ⟨.ofChar 'c'⟩⟩] := by
    rw [passThrough_result, pruned_takenOver]
    cbv
  rw [passThrough_nonterminals, pruned_takenOver] at hresult
  refine ⟨hvalid, by decide, takenOver.passThrough, run_eq_passThrough hvalid, ?_⟩
  rw [List.append_cancel_left hresult]
  exact List.mem_cons_self

end Grammar

end NormalGrammar
