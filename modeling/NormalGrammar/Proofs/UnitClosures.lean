import Mathlib.Data.List.Nodup
import NormalGrammar.Proofs.ProductionMaps
import NormalGrammar.Proofs.RoundBounds

/-!
# Unit pairs as a map

What is reached by unit productions can be kept as a map that gives every nonterminal the set of what is known to be
reached from it.  A round goes through the nonterminals and adds to the set of each what stands, at that moment, in the
sets of the targets of its members (`extendClosure`), so some of these sets have grown in this round and others have
not.  This is what a round of the unit inferences does (`toSetMap_unitRounds`).  The keys never change, and in the end a
set holds exactly what is reached (`unitPairs_exactly`).
-/

namespace NormalGrammar

namespace OrderedSet

variable {α β : Type} [DecidableEq α] [DecidableEq β]

/-- What comes from an element for the second time is there already. -/
theorem insertAll_flatMap_ofList (f : α → List β) (s : OrderedSet β) (l : List α) :
    s.insertAll ((ofList l).toList.flatMap f) = s.insertAll (l.flatMap f) := by
  suffices ∀ t : OrderedSet α, ∀ s : OrderedSet β, (∀ a ∈ t, ∀ b ∈ f a, b ∈ s) → ∃ new,
      (t.insertAll l).toList = t.toList ++ new ∧ s.insertAll (new.flatMap f) = s.insertAll (l.flatMap f) by
    obtain ⟨new, hlist, hinsert⟩ := this empty s (by simp)
    rw [← hinsert]
    exact congrArg (fun l => s.insertAll (l.flatMap f)) hlist
  induction l with
  | nil => exact fun t s _ => ⟨[], by simp, rfl⟩
  | cons a l ih =>
    intro t s hseen
    rw [insertAll_cons, List.flatMap_cons, insertAll_append]
    by_cases ha : a ∈ t
    · rw [insert_of_mem ha, insertAll_of_forall_mem (hseen a ha)]
      exact ih t s hseen
    · have hnext : ∀ c ∈ t.insert a, ∀ b ∈ f c, b ∈ s.insertAll (f a) := by
        intro c hc b hb
        rcases mem_insert.1 hc with hc | rfl
        · exact mem_insertAll.2 (Or.inl (hseen c hc b hb))
        · exact mem_insertAll.2 (Or.inr hb)
      obtain ⟨new, hlist, hinsert⟩ := ih (t.insert a) (s.insertAll (f a)) hnext
      refine ⟨a :: new, ?_, ?_⟩
      · rw [hlist, toList_insert_of_not_mem ha, List.append_assoc, List.singleton_append]
      · rw [List.flatMap_cons, insertAll_append, hinsert]

end OrderedSet

namespace Grammar

variable {G : Grammar}

/-! ### Rounds over a map -/

/-- Adds to the set of `A` what the targets of its members have in their sets. -/
def extendClosure (G : Grammar) (closures : SetMap Nonterminal) (A : Nonterminal) : SetMap Nonterminal :=
  closures.modify A fun s => s.insertAll (((closures.members A).flatMap G.unitTargets).flatMap closures.members)

/-- One round over the nonterminals, each on the sets as they are by then. -/
def closureRound (G : Grammar) (closures : SetMap Nonterminal) : SetMap Nonterminal :=
  G.nonterminals.toList.foldl G.extendClosure closures

/-- At first every nonterminal reaches itself. -/
def selfClosures (G : Grammar) : SetMap Nonterminal := .ofFamily G.nonterminals .singleton

/-- What every nonterminal reaches by unit productions. -/
def unitClosures (G : Grammar) : SetMap Nonterminal := Productions.toSetMap G.unitPairs.facts

theorem keys_closureRound (closures : SetMap Nonterminal) : (G.closureRound closures).keys = closures.keys := by
  unfold closureRound
  induction G.nonterminals.toList generalizing closures with
  | nil => rfl
  | cons A l ih =>
    have hstep : (G.extendClosure closures A).keys = closures.keys := SetMap.keys_modify
    rw [List.foldl_cons, ih, hstep]

/-- A unit inference adds the same pairs if it goes through what it has found as often as it has found it. -/
private theorem insertAll_unitInference (known : OrderedSet (Rule Nonterminal)) (A : Nonterminal) :
    known.insertAll (G.unitInference A known) =
      known.insertAll (((((Productions.bodies known A).toList.flatMap G.unitTargets).flatMap fun B =>
        (Productions.bodies known B).toList)).map (Rule.mk A)) := by
  have hpairs : ∀ l : List Nonterminal, known.insertAll ((OrderedSet.ofList l).toList.map (Rule.mk A)) =
      known.insertAll (l.map (Rule.mk A)) := by
    intro l
    rw [List.map_eq_flatMap, List.map_eq_flatMap]
    exact OrderedSet.insertAll_flatMap_ofList _ known l
  show known.insertAll ((OrderedSet.ofList ((OrderedSet.ofList _).toList.flatMap _)).toList.map (Rule.mk A)) = _
  rw [hpairs, List.map_flatMap, List.map_flatMap]
  exact OrderedSet.insertAll_flatMap_ofList _ known _

/-- A unit inference extends the set of one nonterminal. -/
theorem extendClosure_toSetMap {known : OrderedSet (Rule Nonterminal)} {A : Nonterminal}
    (hA : A ∈ Productions.owners known) : G.extendClosure (Productions.toSetMap known) A =
      Productions.toSetMap (known.insertAll (G.unitInference A known)) := by
  have hmembers : (Productions.toSetMap known).members = fun B => (Productions.bodies known B).toList :=
    funext (Productions.members_toSetMap known)
  rw [insertAll_unitInference, Productions.toSetMap_insertAll hA, extendClosure, hmembers]

private theorem foldl_extendClosure {known : OrderedSet (Rule Nonterminal)} {l : List Nonterminal}
    (h : ∀ A ∈ l, A ∈ Productions.owners known) : l.foldl G.extendClosure (Productions.toSetMap known) =
      Productions.toSetMap (inferRound (l.map G.unitInference) known) := by
  induction l generalizing known with
  | nil => rfl
  | cons A l ih =>
    have hnext : ∀ B ∈ l, B ∈ Productions.owners (known.insertAll (G.unitInference A known)) := by
      intro B hB
      obtain ⟨C, hC⟩ := Productions.mem_owners.1 (h B (List.mem_cons_of_mem _ hB))
      exact Productions.mem_owners.2 ⟨C, OrderedSet.mem_insertAll.2 (Or.inl hC)⟩
    rw [List.foldl_cons, extendClosure_toSetMap (h A List.mem_cons_self)]
    exact ih hnext

/-- A round of unit inferences extends the sets one after the other. -/
theorem closureRound_toSetMap {known : OrderedSet (Rule Nonterminal)}
    (h : ∀ A ∈ G.nonterminals, A ∈ Productions.owners known) :
    G.closureRound (Productions.toSetMap known) = Productions.toSetMap (G.unitRound known) :=
  foldl_extendClosure h

theorem selfClosures_eq (G : Grammar) : G.selfClosures = Productions.toSetMap G.selfPairs := by
  have hpairs : G.selfPairs = Productions.ofFamily G.nonterminals .singleton := by
    apply OrderedSet.ext
    have hnodup : (G.nonterminals.toList.map fun A => (⟨A, A⟩ : Rule Nonterminal)).Nodup :=
      G.nonterminals.nodup.map fun A B e => (Rule.mk.inj e).1
    unfold selfPairs
    rw [OrderedSet.toList_ofList hnodup, List.map_eq_flatMap]
    rfl
  rw [hpairs, Productions.toSetMap_ofFamily]
  have hkeys : (G.nonterminals.filter fun A => !(OrderedSet.singleton A).isEmpty) = G.nonterminals :=
    OrderedSet.ext (List.filter_eq_self.2 fun A _ => rfl)
  rw [hkeys]
  rfl

/-- After any number of rounds the map holds the pairs that are known by then. -/
theorem toSetMap_unitRounds (G : Grammar) (n : Nat) :
    G.closureRound^[n] G.selfClosures = Productions.toSetMap (G.unitRounds n) := by
  induction n with
  | zero => exact G.selfClosures_eq
  | succ n ih =>
    have howners : ∀ A ∈ G.nonterminals, A ∈ Productions.owners (G.unitRounds n) := fun A hA =>
      Productions.mem_owners.2 ⟨A, self_mem_unitRounds hA n⟩
    have hround : G.unitRounds (n + 1) = G.unitRound (G.unitRounds n) := Function.iterate_succ_apply' ..
    rw [Function.iterate_succ_apply', ih, closureRound_toSetMap howners, hround]

theorem keys_unitClosures (G : Grammar) : G.unitClosures.keys = G.nonterminals := by
  have hrounds : ∀ n, (G.closureRound^[n] G.selfClosures).keys = G.nonterminals := by
    intro n
    induction n with
    | zero => exact SetMap.keys_ofFamily
    | succ n ih => rw [Function.iterate_succ_apply', keys_closureRound, ih]
  unfold unitClosures
  rw [← G.unitPairs_ends.found]
  exact (congrArg SetMap.keys (G.toSetMap_unitRounds _)).symm.trans (hrounds _)

theorem get?_unitClosures {A : Nonterminal} (hA : A ∈ G.nonterminals) :
    G.unitClosures.get? A = some (Productions.bodies G.unitPairs.facts A) := by
  have howners : Productions.owners G.unitPairs.facts = G.nonterminals := by
    rw [← G.keys_unitClosures]
    exact SetMap.keys_ofFamily.symm
  unfold unitClosures Productions.toSetMap
  rw [SetMap.get?_ofFamily, howners, if_pos hA]

/-- A round that finds a pair changes the map. -/
private theorem toSetMap_ne {known known' : OrderedSet (Rule Nonterminal)} {f : Rule Nonterminal} (hf : f ∈ known)
    (hnew : ¬ f ∈ known') : Productions.toSetMap known ≠ Productions.toSetMap known' := by
  intro e
  have hmembers := congrArg (fun M => SetMap.members M f.owner) e
  simp only [Productions.members_toSetMap] at hmembers
  have hbody : f.body ∈ (Productions.bodies known' f.owner).toList := by
    rw [← hmembers]
    exact Productions.mem_bodies.2 hf
  exact hnew (Productions.mem_bodies.1 hbody)

/-- The rounds over the sets of all nonterminals end with the first that changes nothing.  The map then has exactly the
declared nonterminals for its keys, and in a valid grammar the set of a nonterminal holds exactly what it reaches by any
number of unit productions. -/
theorem unitPairs_exactly (G : Grammar) (h : G.validate = .ok ()) :
    (∃ n, G.unitPairs.rounds = n + 1 ∧ G.closureRound^[n] G.selfClosures = G.unitClosures ∧
      G.closureRound G.unitClosures = G.unitClosures ∧
      ∀ m < n, G.closureRound^[m + 1] G.selfClosures ≠ G.closureRound^[m] G.selfClosures) ∧
    G.unitClosures.keys = G.nonterminals ∧
    ∀ A ∈ G.nonterminals, ∃ reached, G.unitClosures.get? A = some reached ∧
      ∀ B, B ∈ reached ↔ G.UnitReaches A B := by
  have hG : G.Valid := validate_eq_ok.1 h
  refine ⟨?_, G.keys_unitClosures, fun A hA => ?_⟩
  · have hends := G.unitPairs_ends
    obtain ⟨n, hn⟩ : ∃ n, G.unitPairs.rounds = n + 1 := Nat.exists_eq_add_one.2 hends.some_round
    have hlast : G.unitRounds n = G.unitPairs.facts := by
      have hidle := hends.idle
      rwa [hn, Nat.add_sub_cancel] at hidle
    have hfound : G.unitRounds (n + 1) = G.unitPairs.facts := by
      have hfound := hends.found
      rwa [hn] at hfound
    have hmap : G.closureRound^[n] G.selfClosures = G.unitClosures := by
      rw [toSetMap_unitRounds, hlast]
      rfl
    refine ⟨n, hn, hmap, ?_, fun m hm => ?_⟩
    · have hround : G.closureRound (G.closureRound^[n] G.selfClosures) = G.closureRound^[n + 1] G.selfClosures :=
        (Function.iterate_succ_apply' ..).symm
      rw [← hmap, hround, toSetMap_unitRounds, toSetMap_unitRounds, hfound, hlast]
    · obtain ⟨f, hf, hnew⟩ := hends.busy m (by omega)
      rw [toSetMap_unitRounds, toSetMap_unitRounds]
      exact toSetMap_ne hf hnew
  · refine ⟨_, get?_unitClosures hA, fun B => ?_⟩
    rw [Productions.mem_bodies, mem_unitPairs hG]
    exact and_iff_right hA

/-- `S → A | a`, `A → B`, `B → S | b` and `C → A`, with a cycle of unit productions. -/
def circular : Grammar :=
  let S : Nonterminal := ⟨.ofChar 'S'⟩
  let A : Nonterminal := ⟨.ofChar 'A'⟩
  let B : Nonterminal := ⟨.ofChar 'B'⟩
  let C : Nonterminal := ⟨.ofChar 'C'⟩
  (ofStart S).addAll [⟨S, [.nonterminal A]⟩, ⟨S, [.terminal ⟨.ofChar 'a'⟩]⟩, ⟨A, [.nonterminal B]⟩,
    ⟨B, [.nonterminal S]⟩, ⟨B, [.terminal ⟨.ofChar 'b'⟩]⟩, ⟨C, [.nonterminal A]⟩]

theorem unitPairs_exactly_circular : circular.validate = .ok () ∧
    (∃ n, circular.unitPairs.rounds = n + 1 ∧ circular.closureRound^[n] circular.selfClosures = circular.unitClosures ∧
      circular.closureRound circular.unitClosures = circular.unitClosures ∧
      ∀ m < n, circular.closureRound^[m + 1] circular.selfClosures ≠ circular.closureRound^[m] circular.selfClosures) ∧
    circular.unitClosures.keys = circular.nonterminals ∧
    ∀ A ∈ circular.nonterminals, ∃ reached, circular.unitClosures.get? A = some reached ∧
      ∀ B, B ∈ reached ↔ circular.UnitReaches A B := by
  have hvalid : circular.validate = .ok () := by decide
  exact ⟨hvalid, unitPairs_exactly circular hvalid⟩

/-- The sets of `A` and `B` grow while others still lack what they are to take from them. -/
example : ((circular.closureRound circular.selfClosures).entries.map fun e =>
    (e.1.text, e.2.toList.map Nonterminal.text)) =
    [("S", ["S", "A"]), ("A", ["A", "B"]), ("B", ["B", "S", "A"]), ("C", ["C", "A", "B"])] := by
  decide

end Grammar

end NormalGrammar
