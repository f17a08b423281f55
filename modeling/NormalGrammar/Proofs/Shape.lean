import NormalGrammar.Proofs.NormalForm
import NormalGrammar.Proofs.RunLanguage

/-!
# The shape of a result

Only the start symbol keeps an empty body after the first stage, no unit production is left after the second, and
pruning brings neither back.  A chain has bodies of two symbols, unless it is a short rule by itself, and a body of two
symbols consists of nonterminals once its terminals are isolated.  So all rules of a result are normal (`result_normal`).
-/

namespace NormalGrammar

namespace Grammar

variable {G : Grammar}

theorem mem_of_mem_pruned {r : Rule Body} (hr : r ∈ G.pruned.productions) :
    r ∈ G.withoutErasing.withoutUnits.productions := by
  unfold pruned reduced at hr
  split at hr
  · exact (mem_withoutInaccessible.1 (mem_withoutUnproductive.1 hr).1).1
  · exact (mem_withoutInaccessible.1 (mem_withoutUnproductive.1 (mem_withoutInaccessible.1 hr).1).1).1

theorem pruned_unit? (hG : G.Valid) {r : Rule Body} (hr : r ∈ G.pruned.productions) : r.body.unit? = none := by
  obtain ⟨-, -, -, -, hunit, -⟩ := (mem_withoutUnits hG.withoutErasing).1 (mem_of_mem_pruned hr)
  exact hunit

end Grammar

/-- Splitting leaves bodies of two symbols and short bodies of before. -/
theorem Splits.body_cases {G B : Grammar} {names : Rule Body → List Nonterminal} (h : Splits G names B)
    {q : Rule Body} (hq : q ∈ B.productions) : q.body.length = 2 ∨ (q ∈ G.productions ∧ q.body.length < 2) := by
  obtain ⟨r, hr, hlink⟩ := (h.productions q).1 hq
  rcases Chain.length_linksWith (h.length r hr) hlink with hlen | ⟨rfl, hle⟩
  · exact Or.inl hlen
  · by_cases hlen : r.body.length = 2
    · exact Or.inl hlen
    · have hlt : r.body.length < 2 := by omega
      exact Or.inr ⟨hr, hlt⟩

/-- Once isolated, a body of two symbols is a pair of nonterminals. -/
theorem Isolates.normal_of_length {proxy : Terminal → Nonterminal} {r : Rule Body} {start : Nonterminal}
    (hlen : r.body.length = 2) : (Proxy.isolateWith proxy r).Normal start := by
  obtain ⟨A, w⟩ := r
  obtain ⟨s, t, rfl⟩ := List.length_eq_two.1 hlen
  cases s <;> cases t <;> exact Or.inl ⟨.pair _ _, rfl⟩

/-- A body shorter than two symbols is normal unless it is a unit or empty. -/
theorem normal_of_short {start : Nonterminal} {r : Rule Body} (hlen : r.body.length < 2) (hunit : r.body.unit? = none)
    (hempty : r.body = [] → r.owner = start) : r.Normal start := by
  obtain ⟨A, w⟩ := r
  match w, hlen, hunit, hempty with
  | [], _, _, hempty => exact Or.inr ⟨hempty rfl, rfl⟩
  | [.terminal t], _, _, _ => exact Or.inl ⟨.terminal t, rfl⟩
  | [.nonterminal B], _, hunit, _ => simp [Body.unit?] at hunit

namespace Grammar

variable {G : Grammar}

/-- All rules of a result are normal. -/
theorem result_normal (hG : G.Valid) : G.passThrough.result.Normal := by
  obtain ⟨names, proxy, B, hsplits, hisolates⟩ := G.exists_names
  intro q hq
  rw [passThrough_result_start]
  rcases (hisolates.productions q).1 hq with ⟨r, hr, rfl⟩ | ⟨t, -, rfl⟩
  · rcases hsplits.body_cases hr with hlen | ⟨hrule, hlt⟩
    · exact Isolates.normal_of_length hlen
    · have hlen : r.body.length ≠ 2 := by omega
      rw [Proxy.isolateWith_of_ne hlen]
      refine normal_of_short hlt (pruned_unit? hG hrule) fun hempty => ?_
      have hmem : ⟨r.owner, []⟩ ∈ G.pruned.productions := by
        rw [← hempty]
        exact hrule
      exact ((empty_mem_pruned hG).1 hmem).1
  · exact Or.inl ⟨.terminal t, rfl⟩

end Grammar

end NormalGrammar
