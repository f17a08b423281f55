import NormalGrammar.Rule

/-!
# Maps from nonterminals to sets

A map of this kind has a set for each of its keys, which stay in the order in which they came.  Productions can be read
as such a map (`Productions.toSetMap`), where every set has an element.  In a map a key may also have the empty set.
-/

namespace NormalGrammar

/-- A set for each of some nonterminals. -/
structure SetMap (β : Type) where
  entries : List (Nonterminal × OrderedSet β)
  nodup : (entries.map Prod.fst).Nodup

namespace SetMap

variable {β γ : Type}

@[ext] theorem ext {M N : SetMap β} (h : M.entries = N.entries) : M = N := by
  cases M; cases N; cases h; rfl

def keys (M : SetMap β) : OrderedSet Nonterminal := ⟨M.entries.map Prod.fst, M.nodup⟩

/-- The set of `A`, if `A` is a key. -/
def get? (M : SetMap β) (A : Nonterminal) : Option (OrderedSet β) :=
  (M.entries.find? fun e => decide (e.1 = A)).map Prod.snd

/-- The elements of the set of `A`, none if `A` is no key. -/
def members (M : SetMap β) (A : Nonterminal) : List β := ((M.get? A).map OrderedSet.toList).getD []

private theorem map_fst_family (l : List Nonterminal) (family : Nonterminal → OrderedSet β) :
    (l.map fun A => (A, family A)).map Prod.fst = l := by
  rw [List.map_map]
  exact List.map_id _

/-- Gives every key its set of a family. -/
def ofFamily (keys : OrderedSet Nonterminal) (family : Nonterminal → OrderedSet β) : SetMap β :=
  ⟨keys.toList.map fun A => (A, family A), by rw [map_fst_family]; exact keys.nodup⟩

private theorem map_fst_modify (l : List (Nonterminal × OrderedSet β)) (A : Nonterminal)
    (change : OrderedSet β → OrderedSet β) :
    (l.map fun e => if e.1 = A then (e.1, change e.2) else e).map Prod.fst = l.map Prod.fst := by
  rw [List.map_map]
  refine List.map_congr_left fun e _ => ?_
  show (if e.1 = A then (e.1, change e.2) else e).1 = e.1
  split <;> rfl

/-- Changes the set of `A`, if `A` is a key. -/
def modify (M : SetMap β) (A : Nonterminal) (change : OrderedSet β → OrderedSet β) : SetMap β :=
  ⟨M.entries.map fun e => if e.1 = A then (e.1, change e.2) else e, by rw [map_fst_modify]; exact M.nodup⟩

theorem modify_id (M : SetMap β) (A : Nonterminal) : (M.modify A fun s => s) = M := by
  apply ext
  show M.entries.map _ = M.entries
  refine (List.map_congr_left fun e _ => ?_).trans (List.map_id _)
  split <;> rfl

/-- Two changes of one set are made in a row. -/
theorem modify_modify (M : SetMap β) (A : Nonterminal) (f g : OrderedSet β → OrderedSet β) :
    (M.modify A f).modify A g = M.modify A fun s => g (f s) := by
  apply ext
  show (M.entries.map _).map _ = M.entries.map _
  rw [List.map_map]
  refine List.map_congr_left fun e _ => ?_
  by_cases h : e.1 = A
  · simp [h]
  · simp [h]

private theorem nodup_append_key {M : SetMap β} {A : Nonterminal} (h : ¬ A ∈ M.keys) (s : OrderedSet β) :
    ((M.entries ++ [(A, s)]).map Prod.fst).Nodup := by
  rw [List.map_append, List.nodup_append]
  refine ⟨M.nodup, by simp, fun B hB C hC e => h ?_⟩
  have hC : C = A := List.mem_singleton.1 hC
  rw [← hC, ← e]
  exact hB

/-- Adds an element to the set of `A`.  If `A` is no key yet, it becomes the last one. -/
def add [DecidableEq β] (M : SetMap β) (A : Nonterminal) (b : β) : SetMap β :=
  if h : A ∈ M.keys then M.modify A fun s => s.insert b
  else ⟨M.entries ++ [(A, .singleton b)], nodup_append_key h _⟩

/-- The image of the set at its key, unless the image is empty. -/
def image? (f : OrderedSet β → OrderedSet γ) (e : Nonterminal × OrderedSet β) :
    Option (Nonterminal × OrderedSet γ) :=
  if (f e.2).isEmpty then none else some (e.1, f e.2)

private theorem sublist_image? (f : OrderedSet β → OrderedSet γ) (l : List (Nonterminal × OrderedSet β)) :
    ((l.filterMap (image? f)).map Prod.fst).Sublist (l.map Prod.fst) := by
  induction l with
  | nil => exact List.Sublist.refl _
  | cons e l ih =>
    by_cases hempty : (f e.2).isEmpty
    · have hskip : image? f e = none := if_pos hempty
      rw [List.filterMap_cons_none hskip]
      exact ih.cons e.1
    · have hkeep : image? f e = some (e.1, f e.2) := if_neg hempty
      rw [List.filterMap_cons_some hkeep]
      exact ih.cons_cons e.1

/-- Replaces every set by its image, and drops the keys whose image is empty. -/
def mapNonempty (M : SetMap β) (f : OrderedSet β → OrderedSet γ) : SetMap γ :=
  ⟨M.entries.filterMap (image? f), M.nodup.sublist (sublist_image? f M.entries)⟩

/-! ### Maps that are given by a family -/

variable {keys : OrderedSet Nonterminal} {family : Nonterminal → OrderedSet β}

@[simp] theorem keys_modify {M : SetMap β} {A : Nonterminal} {change : OrderedSet β → OrderedSet β} :
    (M.modify A change).keys = M.keys :=
  OrderedSet.ext (map_fst_modify M.entries A change)

@[simp] theorem keys_ofFamily : (ofFamily keys family).keys = keys := by
  exact OrderedSet.ext (map_fst_family keys.toList family)

theorem get?_ofFamily (A : Nonterminal) :
    (ofFamily keys family).get? A = if A ∈ keys then some (family A) else none := by
  show ((keys.toList.map fun A => (A, family A)).find? fun e => decide (e.1 = A)).map Prod.snd =
    if A ∈ keys.toList then some (family A) else none
  induction keys.toList with
  | nil => rfl
  | cons B l ih =>
    by_cases hB : B = A
    · subst hB
      simp
    · have hskip : ¬ A = B := fun h => hB h.symm
      simpa [hB, hskip] using ih

theorem ofFamily_congr {family' : Nonterminal → OrderedSet β} (h : ∀ A ∈ keys, family A = family' A) :
    ofFamily keys family = ofFamily keys family' := by
  apply ext
  refine List.map_congr_left fun A hA => ?_
  rw [h A hA]

theorem modify_ofFamily (A : Nonterminal) (change : OrderedSet β → OrderedSet β) :
    (ofFamily keys family).modify A change =
      ofFamily keys fun B => if B = A then change (family B) else family B := by
  apply ext
  show (keys.toList.map fun B => (B, family B)).map _ = keys.toList.map _
  rw [List.map_map]
  refine List.map_congr_left fun B _ => ?_
  show (if B = A then (B, change (family B)) else (B, family B)) = (B, if B = A then change (family B) else family B)
  split <;> rfl

theorem add_ofFamily [DecidableEq β] (A : Nonterminal) (b : β) :
    (ofFamily keys family).add A b = ofFamily (keys.insert A) fun B =>
      if B = A then (if A ∈ keys then (family B).insert b else .singleton b) else family B := by
  by_cases hA : A ∈ keys
  · have hadd : (ofFamily keys family).add A b = (ofFamily keys family).modify A fun s => s.insert b :=
      dif_pos (by rwa [keys_ofFamily])
    simp only [hadd, modify_ofFamily, OrderedSet.insert_of_mem hA, if_pos hA]
  · have hadd : (ofFamily keys family).add A b = ⟨(ofFamily keys family).entries ++ [(A, .singleton b)], _⟩ :=
      dif_neg (by rwa [keys_ofFamily])
    apply ext
    rw [hadd]
    show (keys.toList.map fun B => (B, family B)) ++ [(A, .singleton b)] = (keys.insert A).toList.map _
    rw [OrderedSet.toList_insert_of_not_mem hA, List.map_append, List.map_singleton]
    simp only [if_true, if_neg hA]
    congr 1
    refine List.map_congr_left fun B hB => ?_
    have hne : B ≠ A := fun e => hA (e ▸ hB)
    rw [if_neg hne]

theorem mapNonempty_ofFamily (f : OrderedSet β → OrderedSet γ) :
    (ofFamily keys family).mapNonempty f =
      ofFamily (keys.filter fun A => !(f (family A)).isEmpty) fun A => f (family A) := by
  apply ext
  show (keys.toList.map fun A => (A, family A)).filterMap (image? f) =
    (keys.toList.filter fun A => !(f (family A)).isEmpty).map fun A => (A, f (family A))
  induction keys.toList with
  | nil => rfl
  | cons A l ih =>
    rw [List.map_cons]
    by_cases hempty : (f (family A)).isEmpty
    · have hskip : image? f (A, family A) = none := if_pos hempty
      rw [List.filterMap_cons_none hskip, List.filter_cons_of_neg (by simp [hempty]), ih]
    · have hkeep : image? f (A, family A) = some (A, f (family A)) := if_neg hempty
      rw [List.filterMap_cons_some hkeep, List.filter_cons_of_pos (by simp [hempty]), List.map_cons, ih]

end SetMap

/-- The bodies of each owner. -/
def Productions.toSetMap {β : Type} (P : Productions β) : SetMap β := .ofFamily P.owners P.bodies

end NormalGrammar
