import Mathlib.Data.List.Basic
import NormalGrammar.Proofs.Marked
import NormalGrammar.Proofs.Rounds
import NormalGrammar.Proofs.UnitPairs

/-!
# How many rounds it takes

A round that marks something marks one of the declared nonterminals, so marking takes at most one round more than there
are nonterminals.  There may be many more unit pairs than that.  But as long as something reached from a nonterminal is
missing, every round finds some of it (`unitRound_finds`), and this for all nonterminals side by side, so the unit pairs
take no more rounds either (`rounds_le_size`).
-/

namespace NormalGrammar

namespace Grammar

variable {G : Grammar}

/-! ### Marking -/

variable {admits : OrderedSet Nonterminal → Symbol → Bool}

/-- Marks `A`, unless it is marked already, if it owns a body whose symbols are all admitted. -/
def markOwner (G : Grammar) (admits : OrderedSet Nonterminal → Symbol → Bool) (marked : OrderedSet Nonterminal)
    (A : Nonterminal) : OrderedSet Nonterminal :=
  if A ∈ marked then marked
  else if (G.bodies A).toList.any fun w => w.all (admits marked) then marked.insert A
  else marked

/-- One round over the owners, each on what is marked by then. -/
def markRound (G : Grammar) (admits : OrderedSet Nonterminal → Symbol → Bool) (marked : OrderedSet Nonterminal) :
    OrderedSet Nonterminal :=
  G.owners.toList.foldl (G.markOwner admits) marked

/-- The rules of one owner, tried one after the other, mark it at most once. -/
private theorem inferRound_bodies (A : Nonterminal) (bodies : List Body) (marked : OrderedSet Nonterminal) :
    inferRound (bodies.map fun w => markInference admits ⟨A, w⟩) marked =
      if A ∈ marked then marked
      else if bodies.any fun w => w.all (admits marked) then marked.insert A
      else marked := by
  induction bodies generalizing marked with
  | nil => simp [inferRound]
  | cons w bodies ih =>
    have hround : inferRound ((w :: bodies).map fun w => markInference admits ⟨A, w⟩) marked =
        inferRound (bodies.map fun w => markInference admits ⟨A, w⟩)
          (marked.insertAll (markInference admits ⟨A, w⟩ marked)) := rfl
    rw [hround, ih]
    by_cases hw : w.all (admits marked)
    · have hmarked : marked.insertAll (markInference admits ⟨A, w⟩ marked) = marked.insert A := by
        rw [markInference, if_pos hw, OrderedSet.insertAll_cons, OrderedSet.insertAll_nil]
      rw [hmarked, if_pos (OrderedSet.mem_insert.2 (Or.inr rfl)), List.any_cons, hw, Bool.true_or, if_pos rfl]
      split
      · rename_i hA
        exact OrderedSet.insert_of_mem hA
      · rfl
    · have hmarked : marked.insertAll (markInference admits ⟨A, w⟩ marked) = marked := by
        rw [markInference, if_neg hw, OrderedSet.insertAll_nil]
      rw [hmarked, List.any_cons, Bool.eq_false_iff.2 hw, Bool.false_or]

/-- To skip what is marked and the bodies behind the first that is admitted makes no difference to a round. -/
theorem inferRound_rules (G : Grammar) (admits : OrderedSet Nonterminal → Symbol → Bool) :
    inferRound (G.rules.map (markInference admits)) = G.markRound admits := by
  funext marked
  have hrules : G.rules.map (markInference admits) =
      G.owners.toList.flatMap fun A => (G.bodies A).toList.map fun w => markInference admits ⟨A, w⟩ := by
    show (G.owners.toList.flatMap fun A => (G.bodies A).toList.map (Rule.mk A)).map _ = _
    rw [List.map_flatMap]
    simp only [List.map_map]
    rfl
  rw [hrules, inferRound, List.foldl_flatMap]
  refine congrArg (fun mark => G.owners.toList.foldl mark marked) ?_
  funext marked A
  exact inferRound_bodies A (G.bodies A).toList marked

theorem mark_ends (G : Grammar) (admits : OrderedSet Nonterminal → Symbol → Bool) :
    (G.mark admits).Ends (inferRound (G.rules.map (markInference admits))) .empty :=
  saturate_ends _ _

theorem Valid.mark_declared (hG : G.Valid) {A : Nonterminal} (hA : A ∈ (G.mark admits).facts) : A ∈ G.nonterminals :=
  mark_induction (P := (· ∈ G.nonterminals)) (fun r hr _ _ _ => hG.owner r hr) hA

theorem Valid.mark_rounds_le (hG : G.Valid) (admits : OrderedSet Nonterminal → Symbol → Bool) :
    (G.mark admits).rounds ≤ G.nonterminals.size + 1 := by
  have hrounds := (G.mark_ends admits).rounds_le
  have hsize : (G.mark admits).facts.size ≤ G.nonterminals.size := OrderedSet.size_le fun _ => hG.mark_declared
  omega

/-! ### Unit pairs -/

/-- The pairs with which the search for unit pairs starts. -/
def selfPairs (G : Grammar) : OrderedSet (Rule Nonterminal) := .ofList (G.nonterminals.toList.map fun A => ⟨A, A⟩)

/-- One round over the nonterminals, each on the pairs that are known by then. -/
def unitRound (G : Grammar) : OrderedSet (Rule Nonterminal) → OrderedSet (Rule Nonterminal) :=
  inferRound (G.nonterminals.toList.map G.unitInference)

/-- The pairs that are known after some rounds. -/
def unitRounds (G : Grammar) (n : Nat) : OrderedSet (Rule Nonterminal) := G.unitRound^[n] G.selfPairs

theorem unitPairs_ends (G : Grammar) : G.unitPairs.Ends G.unitRound G.selfPairs := saturate_ends _ _

theorem declared_of_mem_selfPairs {f : Rule Nonterminal} (hf : f ∈ G.selfPairs) :
    f.owner ∈ G.nonterminals ∧ f.body ∈ G.nonterminals := by
  obtain ⟨A, hA, rfl⟩ := List.mem_map.1 (OrderedSet.mem_ofList.1 hf)
  exact ⟨hA, hA⟩

theorem declared_of_mem_unitRounds {n : Nat} {f : Rule Nonterminal} (hf : f ∈ G.unitRounds n) :
    f.owner ∈ G.nonterminals ∧ f.body ∈ G.nonterminals :=
  iterate_range G.unitInference_bounded (fun _ => declared_of_mem_selfPairs) n f hf

theorem mem_unitRounds_of_le {m n : Nat} (hmn : m ≤ n) {f : Rule Nonterminal} (hf : f ∈ G.unitRounds m) :
    f ∈ G.unitRounds n :=
  mem_iterate_of_le hmn hf

theorem self_mem_unitRounds {A : Nonterminal} (hA : A ∈ G.nonterminals) (n : Nat) : ⟨A, A⟩ ∈ G.unitRounds n :=
  mem_unitRounds_of_le (Nat.zero_le n) (OrderedSet.mem_ofList.2 (List.mem_map_of_mem hA))

/-- A round goes one step further. -/
theorem mem_unitRounds_succ {A B C : Nonterminal} {n : Nat} (hA : A ∈ G.nonterminals) (hC : C ∈ G.nonterminals)
    (hB : ⟨A, B⟩ ∈ G.unitRounds n) (hstep : G.UnitStep B C) : ⟨A, C⟩ ∈ G.unitRounds (n + 1) := by
  have hinfer : ⟨A, C⟩ ∈ G.unitInference A (G.unitRounds n) :=
    mem_unitInference.2 ⟨rfl, B, C, hB, hstep, self_mem_unitRounds hC n⟩
  rw [unitRounds, Function.iterate_succ_apply']
  refine mem_inferRound_of_infer (List.mem_map_of_mem hA) (fun s t hst f hf => ?_) hinfer
  obtain ⟨howner, B, C, hB, hstep, hC⟩ := mem_unitInference.1 hf
  exact mem_unitInference.2 ⟨howner, B, C, hst _ hB, hstep, hst _ hC⟩

/-- On the way from where `p` holds to where it does not, a step leads out of it. -/
private theorem exists_step_out {α : Type} {R : α → α → Prop} {p : α → Prop} {a b : α}
    (h : Relation.ReflTransGen R a b) (ha : p a) (hb : ¬ p b) : ∃ c d, p c ∧ R c d ∧ ¬ p d := by
  induction h with
  | refl => exact absurd ha hb
  | @tail c d _ hstep ih =>
    by_cases hc : p c
    · exact ⟨c, d, hc, hstep, hb⟩
    · exact ih hc

/-- As long as something reached from `A` is missing, a round finds something reached from `A`. -/
theorem Valid.unitRound_finds (hG : G.Valid) {A B : Nonterminal} {n : Nat} (hA : A ∈ G.nonterminals)
    (hAB : G.UnitReaches A B) (hmissing : ¬ ⟨A, B⟩ ∈ G.unitRounds n) :
    ∃ C, ⟨A, C⟩ ∈ G.unitRounds (n + 1) ∧ ¬ ⟨A, C⟩ ∈ G.unitRounds n := by
  obtain ⟨C, D, hC, hstep, hD⟩ :=
    exists_step_out (p := fun C => ⟨A, C⟩ ∈ G.unitRounds n) hAB (self_mem_unitRounds hA n) hmissing
  exact ⟨D, mem_unitRounds_succ hA (hG.unitStep_declared hstep) hC hstep, hD⟩

/-- After as many rounds as there are nonterminals all unit pairs are known. -/
theorem Valid.mem_unitRounds (hG : G.Valid) {A B : Nonterminal} (hA : A ∈ G.nonterminals) (hAB : G.UnitReaches A B) :
    ⟨A, B⟩ ∈ G.unitRounds G.nonterminals.size := by
  by_contra hmissing
  -- Each of the rounds found another nonterminal that is reached from `A`, which is one to begin with.
  have hgrown := OrderedSet.size_add_le (f := fun n => Productions.bodies (G.unitRounds n) A)
    (n := G.nonterminals.size) fun m hm => by
      refine ⟨fun C hC => ?_, ?_⟩
      · exact Productions.mem_bodies.2 (mem_unitRounds_of_le (Nat.le_succ m) (Productions.mem_bodies.1 hC))
      · have hbefore : ¬ ⟨A, B⟩ ∈ G.unitRounds m := fun h => hmissing (mem_unitRounds_of_le (Nat.le_of_lt hm) h)
        obtain ⟨C, hC, hnew⟩ := hG.unitRound_finds hA hAB hbefore
        exact ⟨C, Productions.mem_bodies.2 hC, fun h => hnew (Productions.mem_bodies.1 h)⟩
  have hstart : (OrderedSet.singleton A).size ≤ (Productions.bodies (G.unitRounds 0) A).size := by
    refine OrderedSet.size_le fun C hC => ?_
    rw [OrderedSet.mem_singleton.1 hC]
    exact Productions.mem_bodies.2 (self_mem_unitRounds hA 0)
  have hbound : (Productions.bodies (G.unitRounds G.nonterminals.size) A).size ≤ G.nonterminals.size :=
    OrderedSet.size_le fun C hC => (declared_of_mem_unitRounds (Productions.mem_bodies.1 hC)).2
  have hone : (OrderedSet.singleton A).size = 1 := rfl
  omega

theorem Valid.unitPairs_rounds_le (hG : G.Valid) : G.unitPairs.rounds ≤ G.nonterminals.size + 1 := by
  by_contra hmany
  obtain ⟨f, hf, hnew⟩ := G.unitPairs_ends.busy G.nonterminals.size (by omega)
  have hfact : f ∈ G.unitPairs.facts := G.unitPairs_ends.mem_facts (by omega) hf
  obtain ⟨howner, hreach⟩ := (mem_unitPairs hG).1 hfact
  exact hnew (hG.mem_unitRounds howner hreach)

/-- The loops that mark nonterminals, whatever symbols they admit, and the loop that looks for unit pairs end with the
first round that finds nothing new.  In a valid grammar the nullable and the productive nonterminals and the unit pairs
take at most one round more than there are nonterminals. -/
theorem rounds_le_size (G : Grammar) (h : G.validate = .ok ()) :
    (∀ admits, (G.mark admits).Ends (G.markRound admits) .empty) ∧ G.unitPairs.Ends G.unitRound G.selfPairs ∧
    G.nullable.rounds ≤ G.nonterminals.size + 1 ∧ G.productive.rounds ≤ G.nonterminals.size + 1 ∧
    G.unitPairs.rounds ≤ G.nonterminals.size + 1 := by
  have hG : G.Valid := validate_eq_ok.1 h
  refine ⟨fun admits => ?_, G.unitPairs_ends, hG.mark_rounds_le _, hG.mark_rounds_le _, hG.unitPairs_rounds_le⟩
  rw [← G.inferRound_rules admits]
  exact G.mark_ends admits

/-- `S → A`, `A → B` and `B → ε`. -/
def descending : Grammar :=
  let S : Nonterminal := ⟨.ofChar 'S'⟩
  let A : Nonterminal := ⟨.ofChar 'A'⟩
  let B : Nonterminal := ⟨.ofChar 'B'⟩
  (ofStart S).addAll [⟨S, [.nonterminal A]⟩, ⟨A, [.nonterminal B]⟩, ⟨B, []⟩]

/-- Each round marks one of the three nonterminals, from the last to the first, and a fourth one marks nothing. -/
theorem rounds_le_size_descending : descending.validate = .ok () ∧
    descending.nullable.rounds = 4 ∧ descending.productive.rounds = 4 ∧ descending.unitPairs.rounds = 3 ∧
    (∀ admits, (descending.mark admits).Ends (descending.markRound admits) .empty) ∧
    descending.unitPairs.Ends descending.unitRound descending.selfPairs ∧
    descending.nullable.rounds ≤ descending.nonterminals.size + 1 ∧
    descending.productive.rounds ≤ descending.nonterminals.size + 1 ∧
    descending.unitPairs.rounds ≤ descending.nonterminals.size + 1 := by
  have hvalid : descending.validate = .ok () := by decide
  exact ⟨hvalid, by cbv, by cbv, by cbv, rounds_le_size descending hvalid⟩

end Grammar

end NormalGrammar
