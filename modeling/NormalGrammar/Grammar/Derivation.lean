import NormalGrammar.Grammar

/-!
# Derivations

A step replaces one nonterminal of a body by one of its bodies, and a derivation is a sequence of steps.  The words
that a body derives can also be read off the body symbol by symbol (`Yields`): each symbol contributes a factor of the
word.  Both readings agree (`derives_iff_yields`).
-/

namespace NormalGrammar

namespace Grammar

/-- One nonterminal is replaced by one of its bodies. -/
inductive Step (G : Grammar) : Body → Body → Prop
  | replace (before : Body) {A : Nonterminal} {w : Body} (after : Body) (rule : ⟨A, w⟩ ∈ G.productions) :
      Step G (before ++ .nonterminal A :: after) (before ++ (w ++ after))

inductive Derives (G : Grammar) : Body → Body → Prop
  | refl (w : Body) : Derives G w w
  | head {u v w : Body} (first : G.Step u v) (rest : Derives G v w) : Derives G u w

/-- The body yields the word, a factor for each of its symbols. -/
inductive Yields (G : Grammar) : Body → Word → Prop
  | nil : Yields G [] []
  | terminal (t : Terminal) {w : Body} {x : Word} (rest : Yields G w x) : Yields G (.terminal t :: w) (t :: x)
  | nonterminal {A : Nonterminal} {v w : Body} {x y : Word} (rule : ⟨A, v⟩ ∈ G.productions) (own : Yields G v x)
      (rest : Yields G w y) : Yields G (.nonterminal A :: w) (x ++ y)

/-- The nonterminal derives the word. -/
def Generates (G : Grammar) (A : Nonterminal) (x : Word) : Prop := G.Derives [.nonterminal A] x.toBody

variable {G : Grammar}

/-! ### Derivations side by side -/

theorem Step.derives {u v : Body} (h : G.Step u v) : G.Derives u v := .head h (.refl v)

theorem Derives.trans {u v w : Body} (h : G.Derives u v) (h' : G.Derives v w) : G.Derives u w := by
  induction h with
  | refl => exact h'
  | head first _ ih => exact .head first (ih h')

theorem Step.append_left {u v : Body} (h : G.Step u v) (w : Body) : G.Step (w ++ u) (w ++ v) := by
  cases h with
  | replace before after rule =>
    rw [← List.append_assoc, ← List.append_assoc]
    exact .replace (w ++ before) after rule

theorem Step.append_right {u v : Body} (h : G.Step u v) (w : Body) : G.Step (u ++ w) (v ++ w) := by
  cases h with
  | replace before after rule =>
    rw [List.append_assoc, List.append_assoc, List.append_assoc, List.cons_append]
    exact .replace before (after ++ w) rule

theorem Derives.append {u v u' v' : Body} (h : G.Derives u v) (h' : G.Derives u' v') :
    G.Derives (u ++ u') (v ++ v') := by
  induction h with
  | refl w =>
    induction h' with
    | refl => exact .refl _
    | head first _ ih => exact .head (first.append_left w) ih
  | head first _ ih => exact .head (first.append_right u') ih

/-! ### The two readings agree -/

theorem Yields.derives {w : Body} {x : Word} (h : G.Yields w x) : G.Derives w x.toBody := by
  induction h with
  | nil => exact .refl []
  | terminal t _ ih => exact Derives.append (.refl [.terminal t]) ih
  | nonterminal rule _ _ ihown ihrest =>
    have first := (Step.replace [] [] rule).derives
    rw [List.append_nil] at first
    rw [Word.toBody, List.map_append]
    exact (first.trans ihown).append ihrest

theorem yields_toBody (x : Word) : G.Yields x.toBody x := by
  induction x with
  | nil => exact .nil
  | cons t x ih => exact .terminal t ih

theorem Yields.append {u v : Body} {x y : Word} (h : G.Yields u x) (h' : G.Yields v y) :
    G.Yields (u ++ v) (x ++ y) := by
  induction h with
  | nil => exact h'
  | terminal t _ ih => exact .terminal t ih
  | nonterminal rule own _ _ ihrest =>
    rw [List.append_assoc]
    exact .nonterminal rule own ihrest

theorem yields_append {u v : Body} {z : Word} :
    G.Yields (u ++ v) z ↔ ∃ x y, z = x ++ y ∧ G.Yields u x ∧ G.Yields v y := by
  constructor
  · intro h
    induction u generalizing z with
    | nil => exact ⟨[], z, rfl, .nil, h⟩
    | cons s u ih =>
      cases h with
      | terminal t rest =>
        obtain ⟨x, y, rfl, hx, hy⟩ := ih rest
        exact ⟨t :: x, y, rfl, .terminal t hx, hy⟩
      | nonterminal rule own rest =>
        obtain ⟨x, y, rfl, hx, hy⟩ := ih rest
        exact ⟨_, y, (List.append_assoc ..).symm, .nonterminal rule own hx, hy⟩
  · rintro ⟨x, y, rfl, hx, hy⟩
    exact hx.append hy

theorem Step.yields {u v : Body} (h : G.Step u v) {x : Word} (hv : G.Yields v x) : G.Yields u x := by
  cases h with
  | replace before after rule =>
    obtain ⟨x, _, rfl, hx, hrest⟩ := yields_append.1 hv
    obtain ⟨y, z, rfl, hy, hz⟩ := yields_append.1 hrest
    exact hx.append (.nonterminal rule hy hz)

theorem derives_iff_yields {w : Body} {x : Word} : G.Derives w x.toBody ↔ G.Yields w x := by
  refine ⟨fun h => ?_, Yields.derives⟩
  generalize e : x.toBody = v at h
  induction h with
  | refl =>
    subst e
    exact yields_toBody x
  | head first _ ih => exact first.yields (ih e)

end Grammar

end NormalGrammar
