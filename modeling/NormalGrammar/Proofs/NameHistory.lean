import NormalGrammar.Proofs.NewNames

/-!
# Asking for names again and again

A source of names answers one request after the other, and every request brings the grammar in which its answer has to
be new.  This may be another grammar each time, and none of them has to declare what was answered before.  But numbers
are used up in this way, and since a name that carries one determines it, no such name is ever answered twice
(`draws_new`).
-/

namespace NormalGrammar

/-- A request and the source of names that it meets. -/
structure NameDraw where
  request : NameRequest
  before : FreshNames
  deriving DecidableEq

namespace NameDraw

def nonterminal (d : NameDraw) : Nonterminal := (d.request.draw d.before).1

def after (d : NameDraw) : FreshNames := (d.request.draw d.before).2

theorem drawn (d : NameDraw) : Drawn d.before d.request d.nonterminal d.after := drawn_draw d.before d.request

end NameDraw

/-- The requests one after the other, each with the source of names that the one before has left. -/
def FreshNames.draws (names : FreshNames) : List NameRequest → List NameDraw
  | [] => []
  | r :: rs => ⟨r, names⟩ :: draws (r.draw names).2 rs

namespace FreshNames

theorem map_request_draws (names : FreshNames) (requests : List NameRequest) :
    (names.draws requests).map NameDraw.request = requests := by
  induction requests generalizing names with
  | nil => rfl
  | cons r rs ih => exact congrArg (r :: ·) (ih _)

/-- The number to try next never goes back. -/
theorem le_of_mem_draws {names : FreshNames} {requests : List NameRequest} {d : NameDraw}
    (hd : d ∈ names.draws requests) : names.next ≤ d.before.next := by
  induction requests generalizing names with
  | nil => exact absurd hd List.not_mem_nil
  | cons r rs ih =>
    rcases List.mem_cons.1 hd with rfl | hd
    · exact Nat.le_refl _
    · exact Nat.le_trans (drawn_draw names r).next_le (ih hd)

theorem pairwise_draws (names : FreshNames) (requests : List NameRequest) :
    (names.draws requests).Pairwise fun d e => d.after.next ≤ e.before.next := by
  induction requests generalizing names with
  | nil => exact .nil
  | cons r rs ih => exact .cons (fun e he => le_of_mem_draws he) (ih _)

/-- Every request is met, by a name that its grammar does not declare, and after no more tries than the grammar has
names and one.  The number to try next never goes back, and of two requests that are met by a number the later gets
another name, whatever grammars and terminals they are about. -/
theorem draws_new (names : FreshNames) (requests : List NameRequest) :
    (names.draws requests).map NameDraw.request = requests ∧
    (∀ d ∈ names.draws requests, Drawn d.before d.request d.nonterminal d.after ∧
      ¬ d.nonterminal ∈ d.request.grammar.nonterminals ∧ ¬ ⟨d.nonterminal.name⟩ ∈ d.request.grammar.terminals ∧
      names.next ≤ d.before.next ∧ d.before.next ≤ d.after.next ∧
      d.after.next ≤ d.before.next + d.request.grammar.names.length + 1) ∧
    (names.draws requests).Pairwise fun d e => d.after.next ≤ e.before.next ∧
      (d.request.NeedsNumber → e.request.NeedsNumber → d.nonterminal ≠ e.nonterminal) := by
  refine ⟨map_request_draws names requests, fun d hd => ?_, (pairwise_draws names requests).imp fun hle => ⟨hle, ?_⟩⟩
  · have hnew := d.drawn.undeclared
    rw [Grammar.declares_iff, not_or] at hnew
    exact ⟨d.drawn, hnew.1, hnew.2, le_of_mem_draws hd, d.drawn.next_le, d.drawn.next_near⟩
  · intro hd he hsame
    have hfront := (NameDraw.drawn _).lastNumber_range hd
    have hend := (NameDraw.drawn _).lastNumber_range he
    rw [hsame] at hfront
    omega

/-- `a` and `a_1`. -/
def underscored : Terminal × Terminal := (⟨.ofChar 'a'⟩, ⟨.ofChars 'a' ['_', '1']⟩)

/-- Proxies for `a` and for `a_1` and a numbered name, each in a grammar that declares one name only. -/
def underscoredRequests : List NameRequest :=
  [.proxy underscored.1 (.ofStart ⟨.proxy underscored.1⟩), .proxy underscored.2 (.ofStart ⟨.proxy underscored.2⟩),
    .numbered (.ofStart ⟨.numbered 3⟩)]

/-- `T_a_1` and `T_a_1_2` are told apart by the numbers that they end in. -/
theorem draws_new_underscored :
    (FreshNames.draws {} underscoredRequests).map (fun d => d.nonterminal.text) = ["T_a_1", "T_a_1_2", "X4"] ∧
    (FreshNames.draws {} underscoredRequests).Pairwise fun d e => d.after.next ≤ e.before.next ∧
      (d.request.NeedsNumber → e.request.NeedsNumber → d.nonterminal ≠ e.nonterminal) :=
  ⟨by decide +kernel, (draws_new {} underscoredRequests).2.2⟩

/-- A plain name is kept apart from names with numbers only by the grammar that declares them. -/
example : Name.proxy ⟨.ofChars 'a' ['_', '1']⟩ = Name.numberedProxy ⟨.ofChar 'a'⟩ 1 := by decide

end FreshNames

end NormalGrammar
