import NormalGrammar.Accessibility

/-!
# The search with a queue

The accessible nonterminals can also be found one by one.  Whatever the search meets for the first time joins the end of
a queue, and a turn takes the first nonterminal out of the queue and meets those of its bodies in order.  The search is
over when the queue is empty.  This happens because a turn takes out one nonterminal, and only what was not met before
joins the queue: a turn lets the size of the queue and the number of nonterminals that are not met yet shrink together.
-/

namespace NormalGrammar

/-- What was met so far, and in the queue what waits for its bodies to be read. -/
structure Search where
  met : OrderedSet Nonterminal
  queue : List Nonterminal
  deriving DecidableEq

namespace Search

/-- A nonterminal that is met for the first time joins the end of the queue. -/
def meet (s : Search) (A : Nonterminal) : Search :=
  if A ∈ s.met then s else ⟨s.met.insert A, s.queue ++ [A]⟩

def meetAll (s : Search) (l : List Nonterminal) : Search := l.foldl meet s

/-- What is left to do if only the nonterminals in `range` can be met. -/
def todo (range : List Nonterminal) (s : Search) : Nat :=
  (range.filter fun A => decide (¬ A ∈ s.met)).length + s.queue.length

variable {range : List Nonterminal}

theorem todo_meet_le (s : Search) {A : Nonterminal} (hA : A ∈ range) : todo range (s.meet A) ≤ todo range s := by
  by_cases hmet : A ∈ s.met
  · have hsame : s.meet A = s := if_pos hmet
    exact Nat.le_of_eq (congrArg (todo range) hsame)
  · rw [meet, if_neg hmet]
    have hless : (range.filter fun B => decide (¬ B ∈ s.met.insert A)).length <
        (range.filter fun B => decide (¬ B ∈ s.met)).length := by
      refine length_filter_lt (fun B hB => ?_) hA (decide_eq_true hmet) (by simp)
      simp only [OrderedSet.mem_insert, not_or, decide_eq_true_eq] at hB ⊢
      exact hB.1
    show (range.filter fun B => decide (¬ B ∈ s.met.insert A)).length + (s.queue ++ [A]).length ≤
      (range.filter fun B => decide (¬ B ∈ s.met)).length + s.queue.length
    rw [List.length_append, List.length_singleton]
    omega

theorem todo_meetAll_le (s : Search) {l : List Nonterminal} (hl : ∀ A ∈ l, A ∈ range) :
    todo range (s.meetAll l) ≤ todo range s := by
  induction l generalizing s with
  | nil => exact Nat.le_refl _
  | cons A l ih =>
    have hfirst := s.todo_meet_le (hl A List.mem_cons_self)
    have hrest := ih (s.meet A) fun B hB => hl B (List.mem_cons_of_mem _ hB)
    exact Nat.le_trans hrest hfirst

end Search

namespace Grammar

/-- The first nonterminal leaves the queue, and those of its bodies are met. -/
def turn (G : Grammar) (s : Search) : Search :=
  match s.queue with
  | [] => s
  | A :: queue => Search.meetAll ⟨s.met, queue⟩ (G.successors A)

/-- All that can be met. -/
def searchRange (G : Grammar) : List Nonterminal := G.owners.toList.flatMap G.successors

theorem successors_subset_searchRange (G : Grammar) (A : Nonterminal) : ∀ B ∈ G.successors A, B ∈ G.searchRange := by
  intro B hB
  obtain ⟨w, hw, -⟩ := List.mem_flatMap.1 hB
  exact List.mem_flatMap.2 ⟨A, mem_owners.2 ⟨w, mem_bodies.1 hw⟩, hB⟩

theorem todo_turn_lt (G : Grammar) {s : Search} (hs : s.queue ≠ []) :
    Search.todo G.searchRange (G.turn s) < Search.todo G.searchRange s := by
  obtain ⟨met, queue⟩ := s
  cases queue with
  | nil => exact absurd rfl hs
  | cons A queue =>
    have hmeet := Search.todo_meetAll_le ⟨met, queue⟩ (G.successors_subset_searchRange A)
    have hturn : G.turn ⟨met, A :: queue⟩ = Search.meetAll ⟨met, queue⟩ (G.successors A) := rfl
    have hqueue : Search.todo G.searchRange ⟨met, A :: queue⟩ = Search.todo G.searchRange ⟨met, queue⟩ + 1 := rfl
    rw [hturn, hqueue]
    exact Nat.lt_succ_of_le hmeet

/-- What is met in the end if turns are taken until the queue is empty. -/
def searchFrom (G : Grammar) (s : Search) : OrderedSet Nonterminal :=
  if _hs : s.queue = [] then s.met else searchFrom G (G.turn s)
termination_by Search.todo G.searchRange s
decreasing_by exact G.todo_turn_lt _hs

/-- At first only the start symbol is met. -/
def searchStart (G : Grammar) : Search := ⟨.singleton G.start, [G.start]⟩

/-- What the start symbol reaches, found with a queue. -/
def search (G : Grammar) : OrderedSet Nonterminal := G.searchFrom G.searchStart

end Grammar

end NormalGrammar
