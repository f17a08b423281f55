import NormalGrammar.Grammar
import NormalGrammar.Saturation

/-!
# The short words of a grammar

The facts `A → w` say that the word `w` is derivable from `A`.  A production draws such facts for its owner by
putting together words that are known for the symbols of its body, and `shortWords` saturates all facts whose word is
short enough.  Erasing productions and cycles do no harm, as there are finitely many short words.
-/

namespace NormalGrammar

namespace Grammar

/-- The words known for `A`. -/
def knownWords (known : OrderedSet (Rule Word)) : Symbol → List Word
  | .terminal t => [[t]]
  | .nonterminal A => (Productions.bodies known A).toList

/-- The words of length at most `limit` that continue a word of `fronts` by a word of `ends`, without repetition. -/
def joinWords (limit : Nat) (fronts ends : List Word) : List Word :=
  (OrderedSet.ofList ((fronts.flatMap fun u => ends.map (u ++ ·)).filter fun w => w.length ≤ limit)).toList

/-- The words of length at most `limit` that a body gives rise to. -/
def bodyWords (limit : Nat) (known : OrderedSet (Rule Word)) (body : Body) : List Word :=
  body.foldl (fun fronts s => joinWords limit fronts (knownWords known s)) [[]]

/-- What the production `r` tells about its owner. -/
def wordInference (limit : Nat) (r : Rule Body) : Inference (Rule Word) :=
  fun known => (bodyWords limit known r.body).map (Rule.mk r.owner)

theorem mem_joinWords {limit : Nat} {fronts ends : List Word} {w : Word} :
    w ∈ joinWords limit fronts ends ↔ (∃ u ∈ fronts, ∃ v ∈ ends, u ++ v = w) ∧ w.length ≤ limit := by
  simp [joinWords]

/-! ### The range of the facts -/

/-- The facts that can be drawn: a short word over the terminals of the bodies, for an owner. -/
def IsShortFact (G : Grammar) (limit : Nat) (f : Rule Word) : Prop :=
  f.owner ∈ G.owners ∧ f.body.length ≤ limit ∧ ∀ t ∈ f.body, ∃ r ∈ G.rules, t ∈ r.body.terminals

private theorem exists_short_words (terminals : List Terminal) (limit : Nat) :
    ∃ all : List Word, ∀ w : Word, w.length ≤ limit → (∀ t ∈ w, t ∈ terminals) → w ∈ all := by
  induction limit with
  | zero => exact ⟨[[]], fun w hw _ => by simp [List.eq_nil_of_length_eq_zero (Nat.le_zero.1 hw)]⟩
  | succ limit ih =>
    obtain ⟨all, hall⟩ := ih
    refine ⟨[] :: terminals.flatMap fun t => all.map (t :: ·), fun w hw ht => ?_⟩
    cases w with
    | nil => exact List.mem_cons_self
    | cons t w =>
      refine List.mem_cons_of_mem _ (List.mem_flatMap.2 ⟨t, ht t List.mem_cons_self, ?_⟩)
      exact List.mem_map_of_mem (hall w (Nat.le_of_succ_le_succ hw) fun u hu => ht u (List.mem_cons_of_mem _ hu))

private theorem exists_short_facts (G : Grammar) (limit : Nat) :
    ∃ all : List (Rule Word), ∀ f, G.IsShortFact limit f → f ∈ all := by
  obtain ⟨words, hwords⟩ := exists_short_words (G.rules.flatMap fun r => r.body.terminals) limit
  refine ⟨G.owners.toList.flatMap fun A => words.map (Rule.mk A), fun f hf => List.mem_flatMap.2 ⟨f.owner, hf.1, ?_⟩⟩
  exact List.mem_map_of_mem (hwords f.body hf.2.1 fun t ht => List.mem_flatMap.2 (hf.2.2 t ht))

private theorem mem_bodyWords_range {limit : Nat} {known : OrderedSet (Rule Word)} {P : Terminal → Prop} {body : Body}
    (hknown : ∀ f ∈ known, ∀ t ∈ f.body, P t) (hbody : ∀ t ∈ body.terminals, P t) {w : Word}
    (hw : w ∈ bodyWords limit known body) : w.length ≤ limit ∧ ∀ t ∈ w, P t := by
  suffices ∀ (body : Body) (fronts : List Word), (∀ t ∈ body.terminals, P t) →
      (∀ u ∈ fronts, u.length ≤ limit ∧ ∀ t ∈ u, P t) →
      ∀ u ∈ body.foldl (fun fronts s => joinWords limit fronts (knownWords known s)) fronts,
        u.length ≤ limit ∧ ∀ t ∈ u, P t from
    this body [[]] hbody (by simp) w hw
  intro body
  induction body with
  | nil => exact fun fronts _ h => h
  | cons s body ih =>
    intro fronts hb hf
    refine ih _ (fun t ht => hb t ?_) fun x hx => ?_
    · rw [Body.mem_terminals] at ht ⊢
      exact List.mem_cons_of_mem _ ht
    · obtain ⟨⟨u, hu, v, hv, rfl⟩, hlen⟩ := mem_joinWords.1 hx
      refine ⟨hlen, fun t ht => ?_⟩
      rcases List.mem_append.1 ht with ht | ht
      · exact (hf u hu).2 t ht
      · cases s with
        | terminal s =>
          rw [knownWords, List.mem_singleton] at hv
          subst hv
          rw [List.mem_singleton] at ht
          subst ht
          exact hb _ (Body.mem_terminals.2 List.mem_cons_self)
        | nonterminal A => exact hknown _ (Productions.mem_bodies.1 hv) t ht

theorem wordInference_bounded (G : Grammar) (limit : Nat) :
    Bounded (G.rules.map (wordInference limit)) (G.IsShortFact limit) where
  finite := exists_short_facts G limit
  closed known hknown infer hi f hf := by
    obtain ⟨r, hr, rfl⟩ := List.mem_map.1 hi
    obtain ⟨w, hw, rfl⟩ := List.mem_map.1 hf
    have h := mem_bodyWords_range (P := fun t => ∃ r ∈ G.rules, t ∈ r.body.terminals)
      (fun f hf t ht => (hknown f hf).2.2 t ht) (fun t ht => ⟨r, hr, ht⟩) hw
    exact ⟨mem_owners.2 ⟨r.body, mem_rules.1 hr⟩, h⟩

/-- Every word of length at most `limit` that a nonterminal derives. -/
def wordFacts (G : Grammar) (limit : Nat) : OrderedSet (Rule Word) :=
  (saturate (G.rules.map (wordInference limit)) (G.wordInference_bounded limit) .empty (by simp)).facts

/-- The words of length at most `limit` that the start symbol derives, in the order in which they are found. -/
def shortWords (G : Grammar) (limit : Nat) : OrderedSet Word := Productions.bodies (G.wordFacts limit) G.start

end Grammar

end NormalGrammar
