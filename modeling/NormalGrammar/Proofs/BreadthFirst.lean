import Mathlib.Order.Lattice.Nat
import NormalGrammar.Accessibility.Queue
import NormalGrammar.Proofs.Arrangement
import NormalGrammar.Proofs.Pruning
import NormalGrammar.Proofs.Rounds

/-!
# The order of the accessible nonterminals

After `n` rounds the nonterminals at a distance of at most `n` from the start symbol are known (`mem_accessRounds`).  A
round adds what it finds at the end, so the accessible nonterminals come in the order of their distance
(`pairwise_accessRounds`).  The search with a queue finds the same in the same order (`search_eq_accessible`): when a
round starts, the queue holds what the round before has found, and by the time all of this has left the queue exactly
what the round finds stands in it (`searchFrom_generation`).
-/

namespace NormalGrammar

namespace Grammar

variable {G : Grammar}

/-! ### Distances -/

/-- Following `n` productions leads from `A` to `B`. -/
inductive ReachesIn (G : Grammar) (A : Nonterminal) : Nat → Nonterminal → Prop
  | refl : ReachesIn G A 0 A
  | tail {n : Nat} {B C : Nonterminal} (front : ReachesIn G A n B) (last : G.Leads B C) : ReachesIn G A (n + 1) C

theorem reaches_iff_reachesIn {A B : Nonterminal} : G.Reaches A B ↔ ∃ n, G.ReachesIn A n B := by
  constructor
  · intro h
    induction h with
    | refl => exact ⟨0, .refl⟩
    | tail _ hstep ih =>
      obtain ⟨n, hn⟩ := ih
      exact ⟨n + 1, .tail hn hstep⟩
  · rintro ⟨n, h⟩
    induction h with
    | refl => exact .refl
    | tail _ hstep ih => exact ih.tail hstep

/-- The least number of productions that lead from the start symbol to `A`. -/
noncomputable def distance (G : Grammar) (A : Nonterminal) : Nat := sInf {n | G.ReachesIn G.start n A}

theorem isLeast_distance {A : Nonterminal} (h : G.Reaches G.start A) :
    IsLeast {n | G.ReachesIn G.start n A} (G.distance A) := by
  have hsome : {n | G.ReachesIn G.start n A}.Nonempty := reaches_iff_reachesIn.1 h
  exact ⟨Nat.sInf_mem hsome, fun n hn => Nat.sInf_le hn⟩

/-! ### Rounds -/

/-- All nonterminals in the bodies of what is known are found at once. -/
def accessRound (G : Grammar) : OrderedSet Nonterminal → OrderedSet Nonterminal := inferRound [G.accessInference]

/-- What is known after some rounds. -/
def accessRounds (G : Grammar) (n : Nat) : OrderedSet Nonterminal := G.accessRound^[n] (.singleton G.start)

theorem accessRounds_succ (G : Grammar) (n : Nat) : G.accessRounds (n + 1) = G.accessRound (G.accessRounds n) :=
  Function.iterate_succ_apply' ..

theorem mem_accessRound {known : OrderedSet Nonterminal} {B : Nonterminal} :
    B ∈ G.accessRound known ↔ B ∈ known ∨ ∃ A ∈ known, G.Leads A B := by
  show B ∈ known.insertAll (G.accessInference known) ↔ _
  rw [OrderedSet.mem_insertAll, mem_accessInference]

theorem mem_accessRounds {n : Nat} {A : Nonterminal} :
    A ∈ G.accessRounds n ↔ ∃ m ≤ n, G.ReachesIn G.start m A := by
  induction n generalizing A with
  | zero =>
    have hzero : A ∈ G.accessRounds 0 ↔ A = G.start := OrderedSet.mem_singleton
    rw [hzero]
    constructor
    · rintro rfl
      exact ⟨0, Nat.le_refl 0, .refl⟩
    · rintro ⟨m, hm, h⟩
      obtain rfl : m = 0 := by omega
      cases h
      rfl
  | succ n ih =>
    rw [accessRounds_succ, mem_accessRound, ih]
    constructor
    · rintro (⟨m, hm, h⟩ | ⟨B, hB, hstep⟩)
      · exact ⟨m, by omega, h⟩
      · obtain ⟨m, hm, h⟩ := ih.1 hB
        exact ⟨m + 1, by omega, .tail h hstep⟩
    · rintro ⟨m, hm, h⟩
      by_cases hle : m ≤ n
      · exact Or.inl ⟨m, hle, h⟩
      · obtain rfl : m = n + 1 := by omega
        cases h with
        | tail front last => exact Or.inr ⟨_, ih.2 ⟨n, Nat.le_refl n, front⟩, last⟩

theorem reaches_of_mem_accessRounds {n : Nat} {A : Nonterminal} (h : A ∈ G.accessRounds n) : G.Reaches G.start A := by
  obtain ⟨m, -, hm⟩ := mem_accessRounds.1 h
  exact reaches_iff_reachesIn.2 ⟨m, hm⟩

theorem mem_accessRounds_iff_distance_le {n : Nat} {A : Nonterminal} (h : G.Reaches G.start A) :
    A ∈ G.accessRounds n ↔ G.distance A ≤ n := by
  obtain ⟨hreach, hleast⟩ := isLeast_distance h
  rw [mem_accessRounds]
  constructor
  · rintro ⟨m, hm, hA⟩
    exact Nat.le_trans (hleast hA) hm
  · intro hn
    exact ⟨G.distance A, hn, hreach⟩

/-- What is known after any number of rounds stands in the order of its distance. -/
theorem pairwise_accessRounds (G : Grammar) (n : Nat) :
    (G.accessRounds n).toList.Pairwise fun A B => G.distance A ≤ G.distance B := by
  induction n with
  | zero => exact List.pairwise_singleton _ _
  | succ n ih =>
    obtain ⟨new, hnew⟩ := toList_inferRound [G.accessInference] (G.accessRounds n)
    have hlist : (G.accessRounds (n + 1)).toList = (G.accessRounds n).toList ++ new := by
      rw [accessRounds_succ]
      exact hnew
    have hold : ∀ A ∈ (G.accessRounds n).toList, G.distance A ≤ n := by
      intro A hA
      exact (mem_accessRounds_iff_distance_le (reaches_of_mem_accessRounds hA)).1 hA
    -- What a round finds is one production farther away than the round before could see.
    have hfound : ∀ A ∈ new, G.distance A = n + 1 := by
      intro A hA
      have hmem : A ∈ G.accessRounds (n + 1) := by
        rw [← OrderedSet.mem_toList, hlist]
        exact List.mem_append_right _ hA
      have hfresh : ¬ A ∈ G.accessRounds n := OrderedSet.not_mem_of_toList_append hlist hA
      have hreach := reaches_of_mem_accessRounds hmem
      have hle := (mem_accessRounds_iff_distance_le hreach).1 hmem
      have hlt := mt (mem_accessRounds_iff_distance_le hreach).2 hfresh
      omega
    rw [hlist, List.pairwise_append]
    refine ⟨ih, List.pairwise_of_forall_mem_list fun A hA B hB => ?_, fun A hA B hB => ?_⟩
    · rw [hfound A hA, hfound B hB]
    · have := hold A hA
      have := hfound B hB
      omega

private theorem start_mem_range (G : Grammar) :
    ∀ A ∈ OrderedSet.singleton G.start, A ∈ G.start :: G.owners.toList.flatMap G.successors := by
  intro A hA
  rw [OrderedSet.mem_singleton.1 hA]
  exact List.mem_cons_self

/-- After some rounds another one finds nothing new. -/
theorem exists_accessRounds (G : Grammar) :
    ∃ n, G.accessRounds n = G.accessible ∧ G.accessRounds (n + 1) = G.accessible := by
  obtain ⟨n, -, hfacts, hidle, -⟩ := saturate_iterate G.accessInference_bounded G.start_mem_range
  have hfound : G.accessRounds n = G.accessible := hfacts
  refine ⟨n, hfound, ?_⟩
  rw [accessRounds_succ, hfound]
  exact hidle

end Grammar

/-! ### Turns of the search -/

namespace Search

theorem meetAll_append (s : Search) (l m : List Nonterminal) : s.meetAll (l ++ m) = (s.meetAll l).meetAll m :=
  List.foldl_append

/-- What is new joins both what was met and the queue, in the same order. -/
theorem exists_meetAll (s : Search) (l : List Nonterminal) : ∃ new,
    s.meetAll l = ⟨s.met.insertAll l, s.queue ++ new⟩ ∧ (s.met.insertAll l).toList = s.met.toList ++ new := by
  induction l generalizing s with
  | nil => exact ⟨[], by rw [List.append_nil]; rfl, (List.append_nil _).symm⟩
  | cons A l ih =>
    have hcons : s.meetAll (A :: l) = (s.meet A).meetAll l := rfl
    rw [hcons, OrderedSet.insertAll_cons]
    by_cases hA : A ∈ s.met
    · have hmeet : s.meet A = s := if_pos hA
      rw [hmeet, OrderedSet.insert_of_mem hA]
      exact ih s
    · have hmeet : s.meet A = ⟨s.met.insert A, s.queue ++ [A]⟩ := if_neg hA
      obtain ⟨new, hsearch, hlist⟩ := ih ⟨s.met.insert A, s.queue ++ [A]⟩
      refine ⟨A :: new, ?_, ?_⟩
      · rw [hmeet, hsearch, List.append_assoc, List.singleton_append]
      · rw [hlist, OrderedSet.toList_insert_of_not_mem hA, List.append_assoc, List.singleton_append]

/-- What stands at the front of the queue makes no difference to what is met. -/
theorem meetAll_front (met : OrderedSet Nonterminal) (front back l : List Nonterminal) :
    meetAll ⟨met, front ++ back⟩ l = ⟨(meetAll ⟨met, back⟩ l).met, front ++ (meetAll ⟨met, back⟩ l).queue⟩ := by
  obtain ⟨new, hsearch, hlist⟩ := exists_meetAll ⟨met, front ++ back⟩ l
  obtain ⟨new', hsearch', hlist'⟩ := exists_meetAll ⟨met, back⟩ l
  have hnew : new = new' := List.append_cancel_left (hlist.symm.trans hlist')
  rw [hsearch, hsearch', hnew, List.append_assoc]

end Search

namespace Grammar

variable {G : Grammar}

theorem searchFrom_nil (G : Grammar) (met : OrderedSet Nonterminal) : G.searchFrom ⟨met, []⟩ = met := by
  rw [searchFrom]
  exact dif_pos rfl

theorem searchFrom_cons (G : Grammar) (met : OrderedSet Nonterminal) (A : Nonterminal) (queue : List Nonterminal) :
    G.searchFrom ⟨met, A :: queue⟩ = G.searchFrom (Search.meetAll ⟨met, queue⟩ (G.successors A)) := by
  rw [searchFrom]
  exact dif_neg (List.cons_ne_nil A queue)

/-- To take the nonterminals at the front out of the queue one by one is to meet all that their bodies mention. -/
theorem searchFrom_front (G : Grammar) (met : OrderedSet Nonterminal) (front back : List Nonterminal) :
    G.searchFrom ⟨met, front ++ back⟩ = G.searchFrom (Search.meetAll ⟨met, back⟩ (front.flatMap G.successors)) := by
  induction front generalizing met back with
  | nil => rfl
  | cons A front ih =>
    rw [List.cons_append, searchFrom_cons, Search.meetAll_front, ih, List.flatMap_cons, Search.meetAll_append]

/-- If all that is known but the queue has been expanded, the search goes on with what a round finds. -/
theorem searchFrom_generation {known : OrderedSet Nonterminal} {old front : List Nonterminal}
    (hsplit : known.toList = old ++ front) (hold : ∀ A ∈ old, ∀ B ∈ G.successors A, B ∈ known) :
    ∃ new, G.searchFrom ⟨known, front⟩ = G.searchFrom ⟨G.accessRound known, new⟩ ∧
      (G.accessRound known).toList = known.toList ++ new := by
  have hround : G.accessRound known = known.insertAll (front.flatMap G.successors) := by
    have hidle : ∀ B ∈ old.flatMap G.successors, B ∈ known := by
      intro B hB
      obtain ⟨A, hA, hmem⟩ := List.mem_flatMap.1 hB
      exact hold A hA B hmem
    show known.insertAll (known.toList.flatMap G.successors) = _
    rw [hsplit, List.flatMap_append, OrderedSet.insertAll_append, OrderedSet.insertAll_of_forall_mem hidle]
  obtain ⟨new, hsearch, hlist⟩ := Search.exists_meetAll ⟨known, []⟩ (front.flatMap G.successors)
  have hfront := G.searchFrom_front known front []
  rw [List.append_nil, hsearch] at hfront
  rw [hround]
  exact ⟨new, hfront, hlist⟩

/-- When a round is over, what it has found stands in the queue. -/
theorem search_eq_searchFrom (G : Grammar) (n : Nat) :
    ∃ new, G.search = G.searchFrom ⟨G.accessRounds (n + 1), new⟩ ∧
      (G.accessRounds (n + 1)).toList = (G.accessRounds n).toList ++ new := by
  induction n with
  | zero =>
    have hsplit : (OrderedSet.singleton G.start).toList = [] ++ [G.start] := rfl
    exact searchFrom_generation hsplit (by simp)
  | succ n ih =>
    obtain ⟨front, hsearch, hsplit⟩ := ih
    have hexpanded : ∀ A ∈ (G.accessRounds n).toList, ∀ B ∈ G.successors A, B ∈ G.accessRounds (n + 1) := by
      intro A hA B hB
      rw [accessRounds_succ]
      exact mem_accessRound.2 (Or.inr ⟨A, hA, mem_successors.1 hB⟩)
    rw [hsearch, accessRounds_succ G (n + 1)]
    exact searchFrom_generation hsplit hexpanded

theorem search_eq_accessible (G : Grammar) : G.search = G.accessible := by
  obtain ⟨n, hfound, hidle⟩ := G.exists_accessRounds
  obtain ⟨new, hsearch, hlist⟩ := G.search_eq_searchFrom n
  rw [hfound, hidle] at hlist
  have hnone : new = [] := List.append_right_eq_self.1 hlist.symm
  rw [hsearch, hidle, hnone, searchFrom_nil]

/-- A turn takes one nonterminal out of the queue, and what is new is counted on both sides. -/
theorem size_turn {s : Search} (hs : s.queue ≠ []) :
    (G.turn s).met.size + s.queue.length = s.met.size + (G.turn s).queue.length + 1 := by
  obtain ⟨met, queue⟩ := s
  cases queue with
  | nil => exact absurd rfl hs
  | cons A queue =>
    obtain ⟨new, hsearch, hlist⟩ := Search.exists_meetAll ⟨met, queue⟩ (G.successors A)
    have hturn : G.turn ⟨met, A :: queue⟩ = ⟨met.insertAll (G.successors A), queue ++ new⟩ := hsearch
    have hsize : (met.insertAll (G.successors A)).size = met.size + new.length := by
      unfold OrderedSet.size
      rw [hlist, List.length_append]
    rw [hturn]
    simp only [hsize, List.length_append, List.length_cons]
    omega

/-- The search is over after finitely many turns.  All that was met took a turn of its own, unless it had left the queue
before. -/
theorem exists_turns (G : Grammar) (s : Search) : ∃ n, n + s.met.size = s.queue.length + (G.searchFrom s).size ∧
    G.turn^[n] s = ⟨G.searchFrom s, []⟩ ∧ ∀ m < n, (G.turn^[m] s).queue ≠ [] := by
  fun_induction searchFrom G s with
  | case1 s hs =>
    refine ⟨0, ?_, ?_, by simp⟩
    · rw [hs]
      rfl
    · obtain ⟨met, queue⟩ := s
      rw [show queue = [] from hs]
      rfl
  | case2 s hs ih =>
    obtain ⟨n, hcount, hend, hbusy⟩ := ih
    have hsize := G.size_turn hs
    refine ⟨n + 1, by omega, hend, fun m hm => ?_⟩
    cases m with
    | zero => exact hs
    | succ m => exact hbusy m (by omega)

/-- In any grammar, valid or not, the search empties its queue after one turn for each nonterminal that it finds.  It
then has found, each once, exactly what the start symbol reaches, itself included, and nothing stands in front of a
nonterminal that fewer productions lead to. -/
theorem accessible_breadthFirst (G : Grammar) :
    G.search = G.accessible ∧
    (G.turn^[G.search.size] G.searchStart = ⟨G.search, []⟩ ∧
      ∀ m < G.search.size, (G.turn^[m] G.searchStart).queue ≠ []) ∧
    G.search.toList.Nodup ∧ (∀ A, A ∈ G.search.toList ↔ G.Reaches G.start A) ∧
    G.search.toList.Pairwise fun A B => G.distance A ≤ G.distance B := by
  refine ⟨G.search_eq_accessible, ?_, G.search.nodup, fun A => ?_, ?_⟩
  · obtain ⟨n, hcount, hend, hbusy⟩ := G.exists_turns G.searchStart
    have hturns : n = G.search.size := by
      have hmet : G.searchStart.met.size = 1 := rfl
      have hqueue : G.searchStart.queue.length = 1 := rfl
      unfold search
      omega
    rw [← hturns]
    exact ⟨hend, hbusy⟩
  · rw [search_eq_accessible, OrderedSet.mem_toList, mem_accessible]
  · obtain ⟨n, hn, -⟩ := G.exists_accessRounds
    rw [search_eq_accessible, ← hn]
    exact G.pairwise_accessRounds n

end Grammar

end NormalGrammar
