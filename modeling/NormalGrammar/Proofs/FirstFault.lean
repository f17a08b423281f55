import Mathlib.Logic.Basic
import NormalGrammar.Grammar.Validation

/-!
# The first violation

A grammar that is not valid may violate several conditions at once, and `validate` reports the first of them
(`validate_exactly`).  The start symbol comes first, then the terminals in order, then the owners in order.  An owner
comes before its bodies, of which the first with an undeclared symbol counts, and in it the first such symbol.  The rules
are searched one by one, each with its owner in front, which comes to the same as going owner by owner
(`findSome?_ruleFault?`).
-/

namespace NormalGrammar

/-- The element satisfies `P`, and none in front of it does. -/
def FirstWith {α : Type} (P : α → Prop) (l : List α) (a : α) : Prop :=
  ∃ before after, l = before ++ a :: after ∧ P a ∧ ∀ b ∈ before, ¬ P b

/-- A search gives what it makes of the first element on which it does not fail. -/
theorem findSome?_eq_some_iff_firstWith {α β : Type} {f : α → Option β} {P : α → Prop} {l : List α}
    (hf : ∀ a ∈ l, f a = none ↔ ¬ P a) {b : β} : l.findSome? f = some b ↔ ∃ a, FirstWith P l a ∧ f a = some b := by
  rw [List.findSome?_eq_some_iff]
  constructor
  · rintro ⟨before, a, after, rfl, ha, hnone⟩
    have hP : ¬ ¬ P a := by
      rw [← hf a (by simp), ha]
      simp
    exact ⟨a, ⟨before, after, rfl, Classical.not_not.1 hP, fun c hc => (hf c (by simp [hc])).1 (hnone c hc)⟩, ha⟩
  · rintro ⟨a, ⟨before, after, rfl, -, hnone⟩, ha⟩
    exact ⟨before, a, after, rfl, ha, fun c hc => (hf c (by simp [hc])).2 (hnone c hc)⟩

private theorem findSome?_flatMap {α β γ : Type} {l : List α} {g : α → List β} {f : β → Option γ} {h : α → Option γ}
    (hg : ∀ a ∈ l, (g a).findSome? f = h a) : (l.flatMap g).findSome? f = l.findSome? h := by
  induction l with
  | nil => rfl
  | cons a l ih =>
    rw [List.forall_mem_cons] at hg
    rw [List.flatMap_cons, List.findSome?_append, List.findSome?_cons, hg.1, ih hg.2]
    cases h a <;> rfl

/-- The error that names an undeclared symbol in the body of a rule. -/
def ValidationError.undeclaredSymbol (r : Rule Body) : Symbol → ValidationError
  | .terminal t => .undeclaredTerminal r t
  | .nonterminal A => .undeclaredNonterminal r A

namespace Grammar

variable {G : Grammar}

/-! ### The order of violations -/

/-- The name of the terminal is that of a nonterminal too. -/
def Ambiguous (G : Grammar) (t : Terminal) : Prop := ⟨t.name⟩ ∈ G.nonterminals

/-- Some symbol of the body is not declared as what it is used as. -/
def FaultyBody (G : Grammar) (w : Body) : Prop := ∃ s ∈ w, ¬ G.DeclaresSymbol s

/-- The owner is not declared, or one of its bodies has a symbol that is not. -/
def FaultyOwner (G : Grammar) (A : Nonterminal) : Prop := ¬ A ∈ G.nonterminals ∨ ∃ w ∈ G.bodies A, G.FaultyBody w

/-- The error names the first violation: the start symbol, else the first ambiguous terminal, else the first faulty
owner, which is named by itself if it is not declared, and else by its first faulty body and the first undeclared symbol
of this body. -/
inductive FirstFault (G : Grammar) : ValidationError → Prop
  | start (undeclared : ¬ G.start ∈ G.nonterminals) : FirstFault G (.undeclaredStart G.start)
  | terminal (start : G.start ∈ G.nonterminals) {t : Terminal} (first : FirstWith G.Ambiguous G.terminals.toList t) :
    FirstFault G (.ambiguous t.name)
  | owner (start : G.start ∈ G.nonterminals) (terminals : ∀ t ∈ G.terminals, ¬ G.Ambiguous t) {A : Nonterminal}
    (first : FirstWith G.FaultyOwner G.owners.toList A) (undeclared : ¬ A ∈ G.nonterminals) :
    FirstFault G (.undeclaredOwner A)
  | symbol (start : G.start ∈ G.nonterminals) (terminals : ∀ t ∈ G.terminals, ¬ G.Ambiguous t) {A : Nonterminal}
    (first : FirstWith G.FaultyOwner G.owners.toList A) (declared : A ∈ G.nonterminals) {w : Body}
    (body : FirstWith G.FaultyBody (G.bodies A).toList w) {s : Symbol}
    (symbol : FirstWith (fun s => ¬ G.DeclaresSymbol s) w s) : FirstFault G (.undeclaredSymbol ⟨A, w⟩ s)

/-! ### Searching owner by owner -/

/-- The first error in a body of `A`. -/
def bodyFault? (G : Grammar) (A : Nonterminal) (w : Body) : Option ValidationError :=
  w.findSome? (G.symbolFault? ⟨A, w⟩)

/-- The first error in the productions of `A`. -/
def ownerFault? (G : Grammar) (A : Nonterminal) : Option ValidationError :=
  if A ∈ G.nonterminals then (G.bodies A).toList.findSome? (G.bodyFault? A) else some (.undeclaredOwner A)

theorem findSome?_ruleFault? (G : Grammar) : G.rules.findSome? G.ruleFault? = G.owners.toList.findSome? G.ownerFault? := by
  have hrules : G.rules = G.owners.toList.flatMap fun A => (G.bodies A).toList.map (Rule.mk A) := rfl
  rw [hrules]
  refine findSome?_flatMap fun A hA => ?_
  rw [List.findSome?_map]
  by_cases hdeclared : A ∈ G.nonterminals
  · have hbodies : G.ruleFault? ∘ Rule.mk A = G.bodyFault? A := funext fun w => if_pos hdeclared
    rw [hbodies, ownerFault?, if_pos hdeclared]
  · -- The owner is reported in front of its first body, and there is one.
    obtain ⟨w, hw⟩ := mem_owners.1 hA
    obtain ⟨v, rest, hbodies⟩ := List.exists_cons_of_ne_nil (List.ne_nil_of_mem (mem_bodies.2 hw))
    have hfault : (G.ruleFault? ∘ Rule.mk A) v = some (.undeclaredOwner A) := if_neg hdeclared
    rw [hbodies, List.findSome?_cons, hfault, ownerFault?, if_neg hdeclared]

theorem bodyFault?_eq_none {A : Nonterminal} {w : Body} : G.bodyFault? A w = none ↔ ¬ G.FaultyBody w := by
  simp only [bodyFault?, FaultyBody, List.findSome?_eq_none_iff, symbolFault?_eq_none, not_exists, not_and, not_not]

theorem ownerFault?_eq_none {A : Nonterminal} : G.ownerFault? A = none ↔ ¬ G.FaultyOwner A := by
  unfold ownerFault? FaultyOwner
  by_cases hdeclared : A ∈ G.nonterminals
  · simp only [hdeclared, ↓reduceIte, List.findSome?_eq_none_iff, OrderedSet.mem_toList, bodyFault?_eq_none,
      not_true_eq_false, false_or, not_exists, not_and]
  · simp only [hdeclared, ↓reduceIte, reduceCtorEq, not_false_eq_true, true_or, not_true_eq_false]

theorem symbolFault?_eq_some {r : Rule Body} {s : Symbol} {e : ValidationError} :
    G.symbolFault? r s = some e ↔ ¬ G.DeclaresSymbol s ∧ e = .undeclaredSymbol r s := by
  cases s <;> simp [symbolFault?, DeclaresSymbol, ValidationError.undeclaredSymbol, eq_comm]

theorem bodyFault?_eq_some {A : Nonterminal} {w : Body} {e : ValidationError} : G.bodyFault? A w = some e ↔
    ∃ s, FirstWith (fun s => ¬ G.DeclaresSymbol s) w s ∧ e = .undeclaredSymbol ⟨A, w⟩ s := by
  have hsymbol : ∀ s ∈ w, G.symbolFault? ⟨A, w⟩ s = none ↔ ¬ ¬ G.DeclaresSymbol s := fun s _ => by
    rw [symbolFault?_eq_none, not_not]
  unfold bodyFault?
  rw [findSome?_eq_some_iff_firstWith hsymbol]
  constructor
  · rintro ⟨s, hs, he⟩
    exact ⟨s, hs, (symbolFault?_eq_some.1 he).2⟩
  · rintro ⟨s, hs, he⟩
    obtain ⟨-, -, -, hundeclared, -⟩ := id hs
    exact ⟨s, hs, symbolFault?_eq_some.2 ⟨hundeclared, he⟩⟩

theorem ownerFault?_eq_some {A : Nonterminal} {e : ValidationError} : G.ownerFault? A = some e ↔
    (¬ A ∈ G.nonterminals ∧ e = .undeclaredOwner A) ∨ (A ∈ G.nonterminals ∧
      ∃ w, FirstWith G.FaultyBody (G.bodies A).toList w ∧
        ∃ s, FirstWith (fun s => ¬ G.DeclaresSymbol s) w s ∧ e = .undeclaredSymbol ⟨A, w⟩ s) := by
  unfold ownerFault?
  by_cases hdeclared : A ∈ G.nonterminals
  · simp only [hdeclared, ↓reduceIte, findSome?_eq_some_iff_firstWith fun w _ => bodyFault?_eq_none,
      bodyFault?_eq_some, not_true_eq_false, false_and, true_and, false_or]
  · simp only [hdeclared, ↓reduceIte, Option.some.injEq, not_false_eq_true, true_and, false_and, or_false]
    exact eq_comm

/-! ### The search as a whole -/

theorem ambiguousTerminal?_eq_some {t : Terminal} :
    G.ambiguousTerminal? = some t ↔ FirstWith G.Ambiguous G.terminals.toList t := by
  simp only [ambiguousTerminal?, List.find?_eq_some_iff_append, FirstWith, Ambiguous, decide_eq_true_eq,
    Bool.not_eq_true', decide_eq_false_iff_not]
  constructor
  · rintro ⟨ht, before, after, hlist, hbefore⟩
    exact ⟨before, after, hlist, ht, hbefore⟩
  · rintro ⟨before, after, hlist, ht, hbefore⟩
    exact ⟨ht, before, after, hlist, hbefore⟩

/-- With the start symbol declared and no terminal ambiguous the first violation is one of an owner. -/
private theorem findSome?_ownerFault?_eq_some (hstart : G.start ∈ G.nonterminals)
    (hterminals : ∀ t ∈ G.terminals, ¬ G.Ambiguous t) {e : ValidationError} :
    G.owners.toList.findSome? G.ownerFault? = some e ↔ G.FirstFault e := by
  rw [findSome?_eq_some_iff_firstWith fun A _ => ownerFault?_eq_none]
  constructor
  · rintro ⟨A, hA, he⟩
    rcases ownerFault?_eq_some.1 he with ⟨hundeclared, rfl⟩ | ⟨hdeclared, w, hw, s, hs, rfl⟩
    · exact .owner hstart hterminals hA hundeclared
    · exact .symbol hstart hterminals hA hdeclared hw hs
  · intro h
    cases h with
    | start hundeclared => exact absurd hstart hundeclared
    | @terminal _ t hfirst =>
      obtain ⟨before, after, hlist, ht, -⟩ := hfirst
      have hmem : t ∈ G.terminals := by
        rw [← OrderedSet.mem_toList, hlist]
        simp
      exact absurd ht (hterminals t hmem)
    | owner _ _ hA hundeclared => exact ⟨_, hA, ownerFault?_eq_some.2 (Or.inl ⟨hundeclared, rfl⟩)⟩
    | symbol _ _ hA hdeclared hw hs =>
      exact ⟨_, hA, ownerFault?_eq_some.2 (Or.inr ⟨hdeclared, _, hw, _, hs, rfl⟩)⟩

theorem fault?_eq_some {e : ValidationError} : G.fault? = some e ↔ G.FirstFault e := by
  unfold fault?
  by_cases hstart : G.start ∈ G.nonterminals
  · rw [if_pos hstart]
    cases hfind : G.ambiguousTerminal? with
    | none =>
      have hterminals : ∀ t ∈ G.terminals, ¬ G.Ambiguous t := fun t ht hA =>
        ambiguousTerminal?_eq_none.1 hfind t.name ⟨ht, hA⟩
      rw [← findSome?_ownerFault?_eq_some hstart hterminals, ← findSome?_ruleFault?]
    | some t =>
      obtain ⟨ht, hA⟩ := of_ambiguousTerminal?_eq_some hfind
      constructor
      · intro h
        cases h
        exact .terminal hstart (ambiguousTerminal?_eq_some.1 hfind)
      · intro h
        cases h with
        | start hundeclared => exact absurd hstart hundeclared
        | terminal _ hfirst =>
          rw [ambiguousTerminal?_eq_some.2 hfirst] at hfind
          cases hfind
          rfl
        | owner _ hterminals => exact absurd hA (hterminals t ht)
        | symbol _ hterminals => exact absurd hA (hterminals t ht)
  · rw [if_neg hstart]
    constructor
    · intro h
      cases h
      exact .start hstart
    · intro h
      cases h with
      | start => rfl
      | terminal hdeclared => exact absurd hdeclared hstart
      | owner hdeclared => exact absurd hdeclared hstart
      | symbol hdeclared => exact absurd hdeclared hstart

/-- Nothing is reported exactly for a valid grammar, and else exactly the first violation. -/
theorem validate_exactly (G : Grammar) :
    (G.validate = .ok () ↔ G.Valid) ∧ ∀ e, G.validate = .error e ↔ G.FirstFault e := by
  refine ⟨validate_eq_ok, fun e => ?_⟩
  rw [← fault?_eq_some]
  unfold validate
  split <;> simp_all

/-- All bodies of `S` come before `B`, which owns a rule that was inserted earlier. -/
example :
    let S : Nonterminal := ⟨.ofChar 'S'⟩
    let B : Nonterminal := ⟨.ofChar 'B'⟩
    let a : Symbol := .terminal ⟨.ofChar 'a'⟩
    let b : Terminal := ⟨.ofChar 'b'⟩
    (ofParts S [S] [⟨.ofChar 'a'⟩] [⟨S, [a]⟩, ⟨B, [a]⟩, ⟨S, [a, .terminal b, .nonterminal B]⟩]).validate =
      .error (.undeclaredTerminal ⟨S, [a, .terminal b, .nonterminal B]⟩ b) :=
  rfl

end Grammar

end NormalGrammar
