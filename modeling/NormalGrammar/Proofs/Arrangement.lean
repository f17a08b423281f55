import Mathlib.Data.List.Basic
import NormalGrammar.Rule

/-!
# Rules owner by owner

Productions are read owner by owner.  A list of rules is grouped if it stands in this order already, and then reading
it changes nothing (`rules_eq_of_grouped`).  Leaving rules out keeps a list grouped (`Grouped.filter`).  Neither the
rules of other owners (`rules_filter_owner`) nor rules that are appended (`filter_rules_of_append`) move those that are
kept.
-/

namespace NormalGrammar

namespace OrderedSet

variable {α : Type} [DecidableEq α]

theorem insertAll_append (s : OrderedSet α) (l m : List α) : s.insertAll (l ++ m) = (s.insertAll l).insertAll m :=
  List.foldl_append

theorem insertAll_of_forall_mem {s : OrderedSet α} {l : List α} (h : ∀ a ∈ l, a ∈ s) : s.insertAll l = s := by
  induction l with
  | nil => rfl
  | cons a l ih =>
    rw [insertAll_cons, insert_of_mem (h a List.mem_cons_self)]
    exact ih fun b hb => h b (List.mem_cons_of_mem _ hb)

/-- Inserting the same element again and again is inserting it once. -/
theorem insertAll_of_forall_eq {s : OrderedSet α} {l : List α} {a : α} (hne : l ≠ []) (h : ∀ b ∈ l, b = a) :
    s.insertAll l = s.insert a := by
  obtain ⟨b, l, rfl⟩ := List.exists_cons_of_ne_nil hne
  rw [List.forall_mem_cons] at h
  rw [insertAll_cons, h.1]
  have hmem : a ∈ s.insert a := mem_insert.2 (Or.inr rfl)
  have hrest : ∀ b ∈ l, b = a := h.2
  clear hne h
  induction l with
  | nil => rfl
  | cons c l ih =>
    rw [List.forall_mem_cons] at hrest
    rw [insertAll_cons, hrest.1, insert_of_mem hmem]
    exact ih hrest.2

/-- Inserting an element that is left out changes nothing, and any other is inserted as before. -/
private theorem filter_insert (p : α → Bool) (s : OrderedSet α) (a : α) :
    (s.insert a).filter p = if p a then (s.filter p).insert a else s.filter p := by
  apply ext
  by_cases ha : a ∈ s
  · rw [insert_of_mem ha]
    split
    · rename_i hp
      rw [insert_of_mem (mem_filter.2 ⟨ha, hp⟩)]
    · rfl
  · have hlist : ((s.insert a).filter p).toList = s.toList.filter p ++ [a].filter p := by
      show (s.insert a).toList.filter p = _
      rw [toList_insert_of_not_mem ha, List.filter_append]
    rw [hlist]
    split
    · rename_i hp
      have hnew : ¬ a ∈ s.filter p := fun h => ha (mem_filter.1 h).1
      rw [toList_insert_of_not_mem hnew, List.filter_singleton, hp]
      rfl
    · rename_i hp
      rw [List.filter_singleton, Bool.eq_false_iff.2 hp]
      exact List.append_nil _

/-- It makes no difference whether elements are left out before or after they are inserted. -/
theorem ofList_filter (p : α → Bool) (l : List α) : ofList (l.filter p) = (ofList l).filter p := by
  suffices ∀ s : OrderedSet α, (s.filter p).insertAll (l.filter p) = (s.insertAll l).filter p from this empty
  intro s
  induction l generalizing s with
  | nil => rfl
  | cons a l ih =>
    rw [insertAll_cons, ← ih, filter_insert, List.filter_cons]
    split <;> rfl

/-- What is inserted later stands behind what was there, and was not there. -/
theorem toList_ofList_append (l m : List α) : ∃ new, (ofList (l ++ m)).toList = (ofList l).toList ++ new ∧
    ∀ a ∈ new, a ∉ l := by
  obtain ⟨new, hnew⟩ := toList_insertAll (ofList l) m
  have hlist : (ofList (l ++ m)).toList = (ofList l).toList ++ new := by
    rw [← hnew]
    exact congrArg toList (insertAll_append empty l m)
  exact ⟨new, hlist, fun a ha hl => not_mem_of_toList_append hlist ha (mem_ofList.2 hl)⟩

end OrderedSet

namespace Productions

variable {β γ : Type}

/-- The rules of the owner `A`. -/
def ownedBy (A : Nonterminal) (l : List (Rule β)) : List (Rule β) := l.filter fun r => r.owner = A

theorem ownedBy_eq_nil {A : Nonterminal} {l : List (Rule β)} (h : A ∉ l.map Rule.owner) : ownedBy A l = [] := by
  refine List.filter_eq_nil_iff.2 fun r hr howner => h ?_
  rw [← of_decide_eq_true howner]
  exact List.mem_map_of_mem hr

theorem owner_of_mem_ownedBy {A : Nonterminal} {l : List (Rule β)} {r : Rule β} (hr : r ∈ ownedBy A l) :
    r.owner = A :=
  of_decide_eq_true (List.mem_filter.1 hr).2

theorem length_ownedBy (A : Nonterminal) (l : List (Rule β)) :
    (ownedBy A l).length = (l.map Rule.owner).count A := by
  unfold ownedBy List.count
  rw [List.countP_map, List.countP_eq_length_filter]
  rfl

/-- The rules stand owner by owner, for some order of the owners. -/
def Grouped (l : List (Rule β)) : Prop :=
  ∃ owners : List Nonterminal, owners.Nodup ∧ l = owners.flatMap fun A => ownedBy A l

theorem rules_eq (P : Productions β) : P.rules = P.owners.toList.flatMap fun A => ownedBy A P.toList := by
  unfold rules arranged ofFamily
  refine List.flatMap_congr fun A _ => ?_
  show ((ownedBy A P.toList).map Rule.body).map (Rule.mk A) = ownedBy A P.toList
  rw [List.map_map]
  refine (List.map_congr_left fun r hr => ?_).trans (List.map_id _)
  rw [← owner_of_mem_ownedBy hr]
  rfl

/-- The owners are found in the order of their groups, those of empty groups left out. -/
theorem toList_insertAll_owners {owners : List Nonterminal} (hnodup : owners.Nodup)
    {group : Nonterminal → List (Rule β)} (hgroup : ∀ A, ∀ r ∈ group A, r.owner = A) (s : OrderedSet Nonterminal)
    (hs : ∀ A ∈ owners, ¬ A ∈ s) :
    (s.insertAll ((owners.flatMap group).map Rule.owner)).toList =
      s.toList ++ owners.filter fun A => !(group A).isEmpty := by
  induction owners generalizing s with
  | nil => simp
  | cons A owners ih =>
    rw [List.nodup_cons] at hnodup
    rw [List.forall_mem_cons] at hs
    rw [List.flatMap_cons, List.map_append, OrderedSet.insertAll_append]
    cases hA : group A with
    | nil =>
      have hskip : (A :: owners).filter (fun B => !(group B).isEmpty) = owners.filter fun B => !(group B).isEmpty :=
        List.filter_cons_of_neg (by simp [hA])
      rw [hskip]
      exact ih hnodup.2 s hs.2
    | cons r rules =>
      have hsame : ∀ B ∈ (r :: rules).map Rule.owner, B = A := by
        intro B hB
        obtain ⟨q, hq, rfl⟩ := List.mem_map.1 hB
        exact hgroup A q (hA ▸ hq)
      have hnew : ∀ B ∈ owners, ¬ B ∈ s.insert A := by
        intro B hB hmem
        rcases OrderedSet.mem_insert.1 hmem with hmem | rfl
        · exact hs.2 B hB hmem
        · exact hnodup.1 hB
      have hkeep : (A :: owners).filter (fun B => !(group B).isEmpty) =
          A :: owners.filter fun B => !(group B).isEmpty := List.filter_cons_of_pos (by simp [hA])
      have hne : (r :: rules).map Rule.owner ≠ [] := by simp
      rw [OrderedSet.insertAll_of_forall_eq hne hsame, ih hnodup.2 _ hnew,
        OrderedSet.toList_insert_of_not_mem hs.1, hkeep, List.append_assoc, List.singleton_append]

/-- Owners whose group is empty can be left out. -/
private theorem flatMap_filter_owners {owners : List Nonterminal} {group : Nonterminal → List (Rule β)}
    {p : Nonterminal → Bool} (h : ∀ A, p A = false → group A = []) :
    (owners.filter p).flatMap group = owners.flatMap group := by
  induction owners with
  | nil => rfl
  | cons A owners ih =>
    rw [List.filter_cons, List.flatMap_cons]
    cases hA : p A with
    | false =>
      rw [h A hA]
      exact ih
    | true => exact congrArg (group A ++ ·) ih

/-- Reading rules that stand owner by owner keeps their order. -/
theorem rules_eq_of_grouped {P : Productions β} (h : Grouped P.toList) : P.rules = P.toList := by
  obtain ⟨owners, hnodup, hlist⟩ := h
  have hgroup : ∀ A, ∀ r ∈ ownedBy A P.toList, r.owner = A := fun _ _ hr => owner_of_mem_ownedBy hr
  have howners : P.owners.toList = owners.filter fun A => !(ownedBy A P.toList).isEmpty := by
    have hinsert := toList_insertAll_owners hnodup hgroup .empty (by simp)
    rw [← hlist] at hinsert
    exact hinsert
  rw [rules_eq, howners, flatMap_filter_owners fun A hA => by simpa using hA, ← hlist]

/-- Rules that are put together group by group are found in their groups again. -/
theorem ownedBy_flatMap {owners : List Nonterminal} (hnodup : owners.Nodup)
    {group : Nonterminal → List (Rule β)} (hgroup : ∀ A, ∀ r ∈ group A, r.owner = A) {A : Nonterminal}
    (hA : A ∈ owners) : ownedBy A (owners.flatMap group) = group A := by
  have hself : ownedBy A (group A) = group A := List.filter_eq_self.2 fun r hr => decide_eq_true (hgroup A r hr)
  have hother : ∀ B, B ≠ A → ownedBy A (group B) = [] := by
    refine fun B hB => List.filter_eq_nil_iff.2 fun r hr howner => hB ?_
    rw [← hgroup B r hr, of_decide_eq_true howner]
  induction owners with
  | nil => cases hA
  | cons B owners ih =>
    rw [List.nodup_cons] at hnodup
    have hsplit : ownedBy A ((B :: owners).flatMap group) =
        ownedBy A (group B) ++ ownedBy A (owners.flatMap group) := by
      rw [List.flatMap_cons]
      exact List.filter_append ..
    rw [hsplit]
    by_cases hB : B = A
    · subst hB
      have hrest : ownedBy B (owners.flatMap group) = [] := by
        refine List.filter_eq_nil_iff.2 fun r hr howner => hnodup.1 ?_
        obtain ⟨C, hC, hmem⟩ := List.mem_flatMap.1 hr
        rw [← of_decide_eq_true howner, hgroup C r hmem]
        exact hC
      rw [hself, hrest, List.append_nil]
    · rw [hother B hB, List.nil_append]
      exact ih hnodup.2 ((List.mem_cons.1 hA).resolve_left (Ne.symm hB))

/-- Reading the rules does not move those of one owner. -/
theorem ownedBy_rules (P : Productions β) (A : Nonterminal) : ownedBy A P.rules = ownedBy A P.toList := by
  by_cases hA : A ∈ P.owners
  · rw [rules_eq]
    exact ownedBy_flatMap P.owners.nodup (fun A r hr => owner_of_mem_ownedBy hr) hA
  · have hnone : ∀ l : List (Rule β), (∀ r ∈ l, r ∈ P) → ownedBy A l = [] := by
      refine fun l hl => ownedBy_eq_nil fun hmem => hA ?_
      obtain ⟨r, hr, rfl⟩ := List.mem_map.1 hmem
      exact mem_owners.2 ⟨r.body, hl r hr⟩
    rw [hnone P.rules fun r hr => mem_rules.1 hr, hnone P.toList fun r hr => hr]

theorem grouped_rules (P : Productions β) : Grouped P.rules := by
  refine ⟨P.owners.toList, P.owners.nodup, ?_⟩
  simp only [ownedBy_rules]
  exact rules_eq P

theorem ownedBy_filter (A : Nonterminal) (p : Rule β → Bool) (l : List (Rule β)) :
    ownedBy A (l.filter p) = (ownedBy A l).filter p := by
  unfold ownedBy
  rw [List.filter_filter, List.filter_filter]
  exact List.filter_congr fun r _ => Bool.and_comm ..

theorem ownedBy_map {f : Rule β → Rule γ} (howner : ∀ r, (f r).owner = r.owner) (A : Nonterminal)
    (l : List (Rule β)) : ownedBy A (l.map f) = (ownedBy A l).map f := by
  unfold ownedBy
  rw [List.filter_map]
  simp only [Function.comp_def, howner]

/-- The rules of some owners are read in the same order as without the others. -/
theorem rules_filter_owner (P : Productions β) (p : Nonterminal → Bool) :
    rules (OrderedSet.filter (fun r => p r.owner) P) = P.rules.filter fun r => p r.owner := by
  have howners : (owners (OrderedSet.filter (fun r => p r.owner) P)).toList = P.owners.toList.filter p := by
    show (OrderedSet.ofList ((P.toList.filter fun r => p r.owner).map Rule.owner)).toList = _
    rw [show (fun r : Rule β => p r.owner) = p ∘ Rule.owner from rfl, ← List.filter_map, OrderedSet.ofList_filter]
    rfl
  have hnone : ∀ A, p A = false → ownedBy A (P.toList.filter fun r => p r.owner) = [] := by
    intro A hA
    refine ownedBy_eq_nil fun hmem => ?_
    obtain ⟨r, hr, rfl⟩ := List.mem_map.1 hmem
    rw [(List.mem_filter.1 hr).2] at hA
    cases hA
  rw [rules_eq, howners, rules_eq, List.filter_flatMap]
  simp only [← ownedBy_filter]
  exact flatMap_filter_owners hnone

theorem Grouped.filter {l : List (Rule β)} (h : Grouped l) (p : Rule β → Bool) : Grouped (l.filter p) := by
  obtain ⟨owners, hnodup, hlist⟩ := h
  refine ⟨owners, hnodup, ?_⟩
  simp only [ownedBy_filter, ← List.filter_flatMap]
  rw [← hlist]

/-- A change of the bodies keeps a list grouped. -/
theorem Grouped.map {f : Rule β → Rule γ} (howner : ∀ r, (f r).owner = r.owner) {l : List (Rule β)} (h : Grouped l) :
    Grouped (l.map f) := by
  obtain ⟨owners, hnodup, hlist⟩ := h
  refine ⟨owners, hnodup, ?_⟩
  simp only [ownedBy_map howner, ← List.map_flatMap]
  rw [← hlist]

/-- A list of rules is grouped if it is so after a change of the bodies that mixes up no two of them. -/
theorem Grouped.of_map {f : Rule β → Rule γ} (hf : ∀ r q, f r = f q → r = q) (howner : ∀ r, (f r).owner = r.owner)
    {l : List (Rule β)} (h : Grouped (l.map f)) : Grouped l := by
  obtain ⟨owners, hnodup, hlist⟩ := h
  refine ⟨owners, hnodup, ?_⟩
  simp only [ownedBy_map howner, ← List.map_flatMap] at hlist
  exact List.map_injective_iff.2 hf hlist

/-- Rules at the end that are left out in reading do not move the others. -/
theorem filter_rules_of_append {P : Productions β} {l m : List (Rule β)} {p : Rule β → Bool} (hP : P.toList = l ++ m)
    (hl : ∀ r ∈ l, p r = true) (hm : ∀ r ∈ m, p r = false) (hgrouped : Grouped l) : P.rules.filter p = l := by
  have hkept : P.toList.filter p = l := by
    rw [hP, List.filter_append, List.filter_eq_self.2 hl, List.filter_eq_nil_iff.2 (by simpa using hm),
      List.append_nil]
  have hnodup : l.Nodup := by
    rw [← hkept]
    exact P.nodup.filter p
  obtain ⟨new, howners, hnew⟩ := OrderedSet.toList_ofList_append (l.map Rule.owner) (m.map Rule.owner)
  have hread : l = (OrderedSet.ofList (l.map Rule.owner)).toList.flatMap fun A => ownedBy A l := by
    have hrules : rules ⟨l, hnodup⟩ = l := rules_eq_of_grouped hgrouped
    rw [rules_eq] at hrules
    exact hrules.symm
  have hnone : (new.flatMap fun A => ownedBy A l) = [] :=
    List.flatMap_eq_nil_iff.2 fun A hA => ownedBy_eq_nil (hnew A hA)
  rw [rules_eq, List.filter_flatMap]
  simp only [← ownedBy_filter, hkept]
  unfold owners
  rw [hP, List.map_append, howners, List.flatMap_append, hnone, List.append_nil, ← hread]

end Productions

end NormalGrammar
