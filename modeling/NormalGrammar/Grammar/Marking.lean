import NormalGrammar.Grammar
import NormalGrammar.Saturation

/-!
# Marking nonterminals by their bodies

`mark admits` marks every nonterminal that owns a body all of whose symbols are admitted, where what is admitted may
depend on what is marked already.  Only owners are ever marked.
-/

namespace NormalGrammar

namespace Grammar

/-- Marks the owner of `r` if every symbol of its body is admitted. -/
def markInference (admits : OrderedSet Nonterminal → Symbol → Bool) (r : Rule Body) : Inference Nonterminal :=
  fun marked => if r.body.all (admits marked) then [r.owner] else []

theorem mem_markInference {admits : OrderedSet Nonterminal → Symbol → Bool} {r : Rule Body}
    {marked : OrderedSet Nonterminal} {A : Nonterminal} :
    A ∈ markInference admits r marked ↔ A = r.owner ∧ ∀ s ∈ r.body, admits marked s := by
  unfold markInference
  split <;> simp_all

theorem markInference_bounded (G : Grammar) (admits : OrderedSet Nonterminal → Symbol → Bool) :
    Bounded (G.rules.map (markInference admits)) (· ∈ G.owners) where
  finite := ⟨G.owners.toList, fun _ h => h⟩
  closed marked _ infer hi A hA := by
    obtain ⟨r, hr, rfl⟩ := List.mem_map.1 hi
    rw [(mem_markInference.1 hA).1]
    exact mem_owners.2 ⟨r.body, mem_rules.1 hr⟩

def mark (G : Grammar) (admits : OrderedSet Nonterminal → Symbol → Bool) : Saturated Nonterminal :=
  saturate (G.rules.map (markInference admits)) (G.markInference_bounded admits) .empty (by simp)

end Grammar

end NormalGrammar
