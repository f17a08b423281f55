import NormalGrammar.Proofs.Arrangement
import NormalGrammar.SetMap

/-!
# Productions as maps

Read as a map, productions have their owners for keys.  To insert a rule is then to add its body to the set of its owner,
which becomes the last key if it has owned nothing so far (`toSetMap_insert`).  Productions that are given by a family of
bodies have those keys whose family is not empty (`toSetMap_ofFamily`).
-/

namespace NormalGrammar

/-- The keys are those with something to hold, and the set of a key holds just that. -/
structure SetMap.Holds {β : Type} (M : SetMap β) (spec : Nonterminal → β → Prop) : Prop where
  mem_keys : ∀ A, A ∈ M.keys ↔ ∃ b, spec A b
  mem_set : ∀ A ∈ M.keys, ∃ s, M.get? A = some s ∧ ∀ b, b ∈ s ↔ spec A b

namespace Productions

variable {β : Type}

theorem bodies_eq_empty {P : Productions β} {A : Nonterminal} (hA : ¬ A ∈ P.owners) : P.bodies A = .empty := by
  refine OrderedSet.ext (List.eq_nil_iff_forall_not_mem.2 fun w hw => hA ?_)
  exact mem_owners.2 ⟨w, mem_bodies.1 hw⟩

theorem members_toSetMap (P : Productions β) (A : Nonterminal) : P.toSetMap.members A = (P.bodies A).toList := by
  unfold SetMap.members toSetMap
  rw [SetMap.get?_ofFamily]
  by_cases hA : A ∈ P.owners
  · rw [if_pos hA]
    rfl
  · rw [if_neg hA, bodies_eq_empty hA]
    rfl

theorem holds_toSetMap (P : Productions β) : P.toSetMap.Holds fun A b => ⟨A, b⟩ ∈ P where
  mem_keys A := by
    unfold toSetMap
    rw [SetMap.keys_ofFamily]
    exact mem_owners
  mem_set A hA := by
    unfold toSetMap at hA ⊢
    rw [SetMap.keys_ofFamily] at hA
    rw [SetMap.get?_ofFamily, if_pos hA]
    exact ⟨P.bodies A, rfl, fun b => mem_bodies⟩

private theorem owner_of_mem_family {A : Nonterminal} {l : List β} {r : Rule β} (hr : r ∈ l.map (Rule.mk A)) :
    r.owner = A := by
  obtain ⟨b, -, rfl⟩ := List.mem_map.1 hr
  rfl

theorem owners_ofFamily (keys : OrderedSet Nonterminal) (family : Nonterminal → OrderedSet β) :
    (ofFamily keys family).owners = keys.filter fun A => !(family A).isEmpty := by
  apply OrderedSet.ext
  have hgroup : ∀ A, ∀ r ∈ (family A).toList.map (Rule.mk A), r.owner = A := fun _ _ => owner_of_mem_family
  have howners := toList_insertAll_owners keys.nodup hgroup .empty (by simp)
  simp only [List.isEmpty_map] at howners
  exact howners

theorem bodies_ofFamily {keys : OrderedSet Nonterminal} (family : Nonterminal → OrderedSet β) {A : Nonterminal}
    (hA : A ∈ keys) : (ofFamily keys family).bodies A = family A := by
  apply OrderedSet.ext
  show (ownedBy A (keys.toList.flatMap fun A => (family A).toList.map (Rule.mk A))).map Rule.body = _
  rw [ownedBy_flatMap keys.nodup (fun _ _ => owner_of_mem_family) hA, List.map_map]
  exact List.map_id _

/-- Only the keys with an element become owners. -/
theorem toSetMap_ofFamily (keys : OrderedSet Nonterminal) (family : Nonterminal → OrderedSet β) :
    (ofFamily keys family).toSetMap = .ofFamily (keys.filter fun A => !(family A).isEmpty) family := by
  unfold toSetMap
  rw [owners_ofFamily]
  exact SetMap.ofFamily_congr fun A hA => bodies_ofFamily family (OrderedSet.mem_filter.1 hA).1

variable [DecidableEq β]

theorem owners_insert (P : Productions β) (A : Nonterminal) (b : β) :
    Productions.owners (P.insert ⟨A, b⟩) = P.owners.insert A := by
  by_cases hmem : ⟨A, b⟩ ∈ P
  · have hA : A ∈ P.owners := mem_owners.2 ⟨b, hmem⟩
    rw [OrderedSet.insert_of_mem hmem, OrderedSet.insert_of_mem hA]
  · unfold owners
    rw [OrderedSet.toList_insert_of_not_mem hmem, List.map_append]
    exact OrderedSet.insertAll_append ..

theorem bodies_insert (P : Productions β) (A B : Nonterminal) (b : β) :
    Productions.bodies (P.insert ⟨A, b⟩) B = if B = A then (P.bodies B).insert b else P.bodies B := by
  by_cases hmem : ⟨A, b⟩ ∈ P
  · rw [OrderedSet.insert_of_mem hmem]
    split
    · rename_i hB
      have hb : b ∈ P.bodies B := mem_bodies.2 (hB ▸ hmem)
      rw [OrderedSet.insert_of_mem hb]
    · rfl
  · apply OrderedSet.ext
    have hlist : (Productions.bodies (P.insert ⟨A, b⟩) B).toList =
        (P.bodies B).toList ++ (([(⟨A, b⟩ : Rule β)].filter fun r => r.owner = B).map Rule.body) := by
      show ((P.insert ⟨A, b⟩).toList.filter fun r => r.owner = B).map Rule.body = _
      rw [OrderedSet.toList_insert_of_not_mem hmem, List.filter_append, List.map_append]
      rfl
    rw [hlist]
    split
    · rename_i hB
      subst hB
      have hnew : ¬ b ∈ P.bodies B := fun h => hmem (mem_bodies.1 h)
      rw [OrderedSet.toList_insert_of_not_mem hnew]
      simp
    · rename_i hB
      have hne : ¬ A = B := fun e => hB e.symm
      simp [hne]

/-- To insert a rule is to add its body to the set of its owner. -/
theorem toSetMap_insert (P : Productions β) (A : Nonterminal) (b : β) :
    Productions.toSetMap (P.insert ⟨A, b⟩) = P.toSetMap.add A b := by
  unfold toSetMap
  rw [SetMap.add_ofFamily, owners_insert]
  refine SetMap.ofFamily_congr fun B _ => ?_
  rw [bodies_insert]
  by_cases hB : B = A
  · subst hB
    by_cases howner : B ∈ P.owners
    · rw [if_pos rfl, if_pos rfl, if_pos howner]
    · rw [if_pos rfl, if_pos rfl, if_neg howner, bodies_eq_empty howner]
      rfl
  · rw [if_neg hB, if_neg hB]

/-- To insert rules of one owner is to extend its set. -/
theorem toSetMap_insertAll {P : Productions β} {A : Nonterminal} (hA : A ∈ P.owners) (l : List β) :
    Productions.toSetMap (P.insertAll (l.map (Rule.mk A))) = P.toSetMap.modify A fun s => s.insertAll l := by
  induction l generalizing P with
  | nil => exact (SetMap.modify_id _ A).symm
  | cons b l ih =>
    have hA' : A ∈ Productions.owners (P.insert ⟨A, b⟩) := by
      rw [owners_insert]
      exact OrderedSet.mem_insert.2 (Or.inl hA)
    have hkey : A ∈ P.toSetMap.keys := by
      unfold toSetMap
      rwa [SetMap.keys_ofFamily]
    have hadd : P.toSetMap.add A b = P.toSetMap.modify A fun s => s.insert b := dif_pos hkey
    rw [List.map_cons, OrderedSet.insertAll_cons, ih hA', toSetMap_insert, hadd, SetMap.modify_modify]
    rfl

end Productions

end NormalGrammar
