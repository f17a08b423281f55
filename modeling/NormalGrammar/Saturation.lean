import NormalGrammar.OrderedSet

/-!
# Repeating inferences until nothing is new

An inference reads the facts known so far and draws further ones.  A round tries one inference after the other, each
on what is known by then, and `saturate` repeats rounds until one of them finds nothing new.  That round is counted
too.  Facts are never taken back, so this ends as soon as all facts that can be drawn lie within a finite range
(`Bounded`).

The result holds the facts given at first (`mem_saturate_of_mem`), is closed under every inference
(`mem_saturate_of_infer`) and holds nothing else than what follows from them (`saturate_induction`).
-/

namespace NormalGrammar

/-- Draws facts from those known so far. -/
abbrev Inference (α : Type) := OrderedSet α → List α

/-- The inferences do not lead out of `range`, which holds finitely many facts. -/
structure Bounded {α : Type} (inferences : List (Inference α)) (range : α → Prop) : Prop where
  finite : ∃ all : List α, ∀ a, range a → a ∈ all
  closed : ∀ known : OrderedSet α, (∀ a ∈ known, range a) →
    ∀ infer ∈ inferences, ∀ a ∈ infer known, range a

/-- The facts found and the number of rounds it took. -/
structure Saturated (α : Type) where
  facts : OrderedSet α
  rounds : Nat

variable {α : Type} [DecidableEq α] {inferences : List (Inference α)} {range : α → Prop}

/-- Tries one inference after the other, each on what is known by then. -/
def inferRound (inferences : List (Inference α)) (known : OrderedSet α) : OrderedSet α :=
  inferences.foldl (fun known infer => known.insertAll (infer known)) known

/-- What holds of the known facts and is kept by every inference holds after a round. -/
theorem inferRound_induction {P : α → Prop} {known : OrderedSet α} (start : ∀ a ∈ known, P a)
    (step : ∀ known : OrderedSet α, (∀ a ∈ known, P a) → ∀ infer ∈ inferences, ∀ a ∈ infer known, P a) :
    ∀ a ∈ inferRound inferences known, P a := by
  induction inferences generalizing known with
  | nil => exact start
  | cons infer inferences ih =>
    have next : ∀ a ∈ known.insertAll (infer known), P a := by
      intro a ha
      rcases OrderedSet.mem_insertAll.1 ha with ha | ha
      · exact start a ha
      · exact step known start infer List.mem_cons_self a ha
    exact ih next fun known h i hi => step known h i (List.mem_cons_of_mem _ hi)

theorem inferRound_range (b : Bounded inferences range) {known : OrderedSet α} (h : ∀ a ∈ known, range a) :
    ∀ a ∈ inferRound inferences known, range a :=
  inferRound_induction h b.closed

/-- A round adds facts at the end only. -/
theorem toList_inferRound (inferences : List (Inference α)) (known : OrderedSet α) :
    ∃ new, (inferRound inferences known).toList = known.toList ++ new := by
  induction inferences generalizing known with
  | nil => exact ⟨[], by simp [inferRound]⟩
  | cons infer inferences ih =>
    obtain ⟨new, hnew⟩ := ih (known.insertAll (infer known))
    obtain ⟨first, hfirst⟩ := known.toList_insertAll (infer known)
    refine ⟨first ++ new, ?_⟩
    rw [← List.append_assoc, ← hfirst]
    exact hnew

theorem mem_inferRound_of_mem {known : OrderedSet α} {a : α} (ha : a ∈ known) : a ∈ inferRound inferences known := by
  obtain ⟨new, hnew⟩ := toList_inferRound inferences known
  rw [← OrderedSet.mem_toList, hnew]
  exact List.mem_append_left _ ha

omit [DecidableEq α] in
/-- A stricter filter that leaves out one element more leaves a shorter list. -/
theorem length_filter_lt {l : List α} {p q : α → Bool} (hpq : ∀ a, q a → p a) {a : α} (ha : a ∈ l)
    (hp : p a) (hq : ¬ q a) : (l.filter q).length < (l.filter p).length := by
  have e : l.filter q = (l.filter p).filter q := by
    rw [List.filter_filter]
    congr 1
    funext x
    cases hx : q x
    · simp
    · simp [hpq x hx]
  rw [e]
  exact List.length_filter_lt_length_iff_exists.2 ⟨a, List.mem_filter.2 ⟨ha, hp⟩, hq⟩

/-- A round that finds something leaves fewer facts of a finite range unknown. -/
private theorem unknown_inferRound_lt {all : List α} (hall : ∀ a, range a → a ∈ all)
    (b : Bounded inferences range) {known : OrderedSet α} (h : ∀ a ∈ known, range a)
    (hsize : (inferRound inferences known).size ≠ known.size) :
    (all.filter fun a => decide (¬ a ∈ inferRound inferences known)).length <
      (all.filter fun a => decide (¬ a ∈ known)).length := by
  obtain ⟨new, hnew⟩ := toList_inferRound inferences known
  cases new with
  | nil =>
    rw [List.append_nil] at hnew
    exact absurd (congrArg List.length hnew) hsize
  | cons a new =>
    have hmem : a ∈ inferRound inferences known := by rw [← OrderedSet.mem_toList, hnew]; simp
    have hnot : ¬ a ∈ known := OrderedSet.not_mem_of_toList_append hnew List.mem_cons_self
    refine length_filter_lt (a := a) ?_ (hall a (inferRound_range b h a hmem)) ?_ ?_
    · intro x hx
      simp only [decide_eq_true_eq] at hx ⊢
      exact fun hk => hx (mem_inferRound_of_mem hk)
    · simpa using hnot
    · simpa using hmem

/-- Repeats rounds until one of them finds nothing new. -/
def saturate (inferences : List (Inference α)) {range : α → Prop} (b : Bounded inferences range)
    (known : OrderedSet α) (h : ∀ a ∈ known, range a) : Saturated α :=
  let next := inferRound inferences known
  if _hs : next.size = known.size then ⟨known, 1⟩
  else
    let result := saturate inferences b next (inferRound_range b h)
    ⟨result.facts, result.rounds + 1⟩
termination_by (b.finite.choose.filter fun a => decide (¬ a ∈ known)).length
decreasing_by exact unknown_inferRound_lt b.finite.choose_spec b h _hs

theorem mem_saturate_of_mem (b : Bounded inferences range) {known : OrderedSet α} (h : ∀ a ∈ known, range a) {a : α}
    (ha : a ∈ known) : a ∈ (saturate inferences b known h).facts := by
  fun_induction saturate inferences b known h with
  | case1 => exact ha
  | case2 known h next hs result ih => exact ih (mem_inferRound_of_mem ha)

/-- A round that finds nothing new has tried every inference on the same facts. -/
private theorem mem_of_infer_of_idle {known : OrderedSet α} (hs : (inferRound inferences known).size = known.size)
    {infer : Inference α} (hi : infer ∈ inferences) {a : α} (ha : a ∈ infer known) : a ∈ known := by
  induction inferences with
  | nil => simp at hi
  | cons first inferences ih =>
    obtain ⟨new, hnew⟩ := known.toList_insertAll (first known)
    obtain ⟨more, hmore⟩ := toList_inferRound inferences (known.insertAll (first known))
    have hround : inferRound (first :: inferences) known = inferRound inferences (known.insertAll (first known)) := rfl
    have hlen : new.length + more.length = 0 := by
      have := hs
      rw [hround] at this
      unfold OrderedSet.size at this
      rw [hmore, hnew] at this
      simp only [List.length_append] at this
      omega
    have hsame : known.insertAll (first known) = known := by
      apply OrderedSet.ext
      rw [hnew, List.eq_nil_of_length_eq_zero (l := new) (by omega), List.append_nil]
    rw [hround, hsame] at hs
    rcases List.mem_cons.1 hi with rfl | hi
    · rw [← hsame]
      exact OrderedSet.mem_insertAll.2 (Or.inr ha)
    · exact ih hs hi

theorem mem_saturate_of_infer (b : Bounded inferences range) {known : OrderedSet α} (h : ∀ a ∈ known, range a)
    {infer : Inference α} (hi : infer ∈ inferences) {a : α}
    (ha : a ∈ infer (saturate inferences b known h).facts) : a ∈ (saturate inferences b known h).facts := by
  fun_induction saturate inferences b known h with
  | case1 known h next hs => exact mem_of_infer_of_idle hs hi ha
  | case2 known h next hs result ih => exact ih ha

/-- What holds of the facts given at first and is kept by every inference holds of all facts found. -/
theorem saturate_induction (b : Bounded inferences range) {known : OrderedSet α} (h : ∀ a ∈ known, range a)
    {P : α → Prop} (start : ∀ a ∈ known, P a)
    (step : ∀ known : OrderedSet α, (∀ a ∈ known, P a) → ∀ infer ∈ inferences, ∀ a ∈ infer known, P a) :
    ∀ a ∈ (saturate inferences b known h).facts, P a := by
  fun_induction saturate inferences b known h with
  | case1 => exact start
  | case2 known h next hs result ih =>
    exact ih (inferRound_induction start step)

end NormalGrammar
