import Mathlib.Logic.Function.Iterate
import NormalGrammar.Saturation

/-!
# The rounds of a saturation

A saturation tries rounds until one of them finds nothing new.  So its facts are what finitely many rounds find, each on
the facts of the round before, and one more round would add nothing to them (`saturate_iterate`, `saturate_ends`).
Rounds only add facts, so a collection of facts to which every round adds one has as many elements as there were rounds
(`size_add_le`).
-/

namespace NormalGrammar

variable {α : Type} [DecidableEq α] {inferences : List (Inference α)} {range : α → Prop}

/-! ### Sets that grow -/

namespace OrderedSet

variable {β : Type} {s t : OrderedSet β}

theorem size_le (h : ∀ a ∈ s, a ∈ t) : s.size ≤ t.size := s.nodup.length_le_of_subset h

theorem size_lt {a : β} (h : ∀ a ∈ s, a ∈ t) (ha : a ∈ t) (hnew : ¬ a ∈ s) : s.size < t.size := by
  have hnodup : (a :: s.toList).Nodup := List.nodup_cons.2 ⟨hnew, s.nodup⟩
  exact hnodup.length_le_of_subset (List.cons_subset.2 ⟨ha, h⟩)

/-- A set that gains an element in each of `n` steps has at least `n` more in the end. -/
theorem size_add_le {f : Nat → OrderedSet β} {n : Nat}
    (h : ∀ m < n, (∀ a ∈ f m, a ∈ f (m + 1)) ∧ ∃ a ∈ f (m + 1), ¬ a ∈ f m) : (f 0).size + n ≤ (f n).size := by
  induction n with
  | zero => exact Nat.le_refl _
  | succ n ih =>
    obtain ⟨hkept, a, ha, hnew⟩ := h n (Nat.lt_succ_self n)
    have hfront := ih fun m hm => h m (Nat.lt_succ_of_lt hm)
    have hlast := size_lt hkept ha hnew
    omega

end OrderedSet

/-! ### One round -/

/-- A round after which no more facts are known has left them as they were. -/
theorem inferRound_eq_self {known : OrderedSet α} (hs : (inferRound inferences known).size = known.size) :
    inferRound inferences known = known := by
  obtain ⟨new, hnew⟩ := toList_inferRound inferences known
  have hlen : new.length = 0 := by
    unfold OrderedSet.size at hs
    rw [hnew, List.length_append] at hs
    omega
  apply OrderedSet.ext
  rw [hnew, List.eq_nil_of_length_eq_zero hlen, List.append_nil]

/-- A round that changes something finds something. -/
theorem exists_new_of_inferRound_ne {known : OrderedSet α} (h : inferRound inferences known ≠ known) :
    ∃ a ∈ inferRound inferences known, ¬ a ∈ known := by
  by_contra hnone
  have hall : ∀ a ∈ inferRound inferences known, a ∈ known := by
    intro a ha
    by_contra hnew
    exact hnone ⟨a, ha, hnew⟩
  exact h (inferRound_eq_self (Nat.le_antisymm (OrderedSet.size_le hall)
    (OrderedSet.size_le fun _ => mem_inferRound_of_mem)))

/-- What an inference draws at the start of a round is known at its end, even if the inference is tried later and draws
more by then. -/
theorem mem_inferRound_of_infer {infer : Inference α} (hi : infer ∈ inferences)
    (hmono : ∀ s t : OrderedSet α, (∀ a ∈ s, a ∈ t) → ∀ a ∈ infer s, a ∈ infer t) {known : OrderedSet α} {a : α}
    (ha : a ∈ infer known) : a ∈ inferRound inferences known := by
  induction inferences generalizing known with
  | nil => exact absurd hi List.not_mem_nil
  | cons first inferences ih =>
    have hround : inferRound (first :: inferences) known = inferRound inferences (known.insertAll (first known)) := rfl
    rw [hround]
    rcases List.mem_cons.1 hi with rfl | hi
    · exact mem_inferRound_of_mem (OrderedSet.mem_insertAll.2 (Or.inr ha))
    · exact ih hi (hmono known _ (fun b hb => OrderedSet.mem_insertAll.2 (Or.inl hb)) a ha)

/-! ### Many rounds -/

theorem mem_iterate_of_le {known : OrderedSet α} {m n : Nat} (hmn : m ≤ n) {a : α}
    (ha : a ∈ (inferRound inferences)^[m] known) : a ∈ (inferRound inferences)^[n] known := by
  induction hmn with
  | refl => exact ha
  | step _ ih =>
    rw [Function.iterate_succ_apply']
    exact mem_inferRound_of_mem ih

theorem iterate_range (b : Bounded inferences range) {known : OrderedSet α} (h : ∀ a ∈ known, range a) (n : Nat) :
    ∀ a ∈ (inferRound inferences)^[n] known, range a := by
  induction n with
  | zero => exact h
  | succ n ih =>
    rw [Function.iterate_succ_apply']
    exact inferRound_range b ih

/-- All rounds but the last find something, and the facts are those known when the last one starts. -/
theorem saturate_iterate (b : Bounded inferences range) {known : OrderedSet α} (h : ∀ a ∈ known, range a) :
    ∃ n, (saturate inferences b known h).rounds = n + 1 ∧
      (inferRound inferences)^[n] known = (saturate inferences b known h).facts ∧
      inferRound inferences (saturate inferences b known h).facts = (saturate inferences b known h).facts ∧
      ∀ m < n, (inferRound inferences)^[m + 1] known ≠ (inferRound inferences)^[m] known := by
  fun_induction saturate inferences b known h with
  | case1 known h next hs => exact ⟨0, rfl, rfl, inferRound_eq_self hs, by simp⟩
  | case2 known h next hs result ih =>
    obtain ⟨n, hrounds, hfacts, hidle, hbusy⟩ := ih
    refine ⟨n + 1, congrArg (· + 1) hrounds, hfacts, hidle, fun m hm => ?_⟩
    cases m with
    | zero =>
      intro e
      exact hs (congrArg OrderedSet.size e)
    | succ m => exact hbusy m (Nat.lt_of_succ_lt_succ hm)

/-- Rounds that start with what is known end with the result: the last of them is the first that finds nothing new. -/
structure Saturated.Ends (result : Saturated α) (round : OrderedSet α → OrderedSet α) (known : OrderedSet α) :
    Prop where
  some_round : 0 < result.rounds
  found : round^[result.rounds] known = result.facts
  idle : round^[result.rounds - 1] known = result.facts
  busy : ∀ m, m + 1 < result.rounds → ∃ a ∈ round^[m + 1] known, ¬ a ∈ round^[m] known

theorem saturate_ends (b : Bounded inferences range) {known : OrderedSet α} (h : ∀ a ∈ known, range a) :
    (saturate inferences b known h).Ends (inferRound inferences) known := by
  obtain ⟨n, hrounds, hfacts, hidle, hbusy⟩ := saturate_iterate b h
  refine ⟨?_, ?_, ?_, fun m hm => ?_⟩
  · omega
  · rw [hrounds, Function.iterate_succ_apply', hfacts, hidle]
  · rw [hrounds, Nat.add_sub_cancel, hfacts]
  · have hchanged := hbusy m (by omega)
    rw [Function.iterate_succ_apply'] at hchanged ⊢
    exact exists_new_of_inferRound_ne hchanged

namespace Saturated.Ends

variable {result : Saturated α} {known : OrderedSet α}

theorem mem_facts (h : result.Ends (inferRound inferences) known) {m : Nat} (hm : m < result.rounds) {a : α}
    (ha : a ∈ (inferRound inferences)^[m] known) : a ∈ result.facts := by
  rw [← h.idle]
  exact mem_iterate_of_le (by omega) ha

/-- Every round but the last finds a fact. -/
theorem rounds_le (h : result.Ends (inferRound inferences) known) :
    known.size + result.rounds ≤ result.facts.size + 1 := by
  have hsome := h.some_round
  have hgrown : known.size + (result.rounds - 1) ≤ result.facts.size := by
    rw [← h.idle]
    refine OrderedSet.size_add_le (f := fun m => (inferRound inferences)^[m] known) fun m hm => ⟨fun a ha => ?_, ?_⟩
    · exact mem_iterate_of_le (Nat.le_succ m) ha
    · exact h.busy m (by omega)
  omega

end Saturated.Ends

end NormalGrammar
