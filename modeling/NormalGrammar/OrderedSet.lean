/-!
# Sets that remember the order of insertion

An `OrderedSet` lists its elements without repetition, each where it was first inserted.  Inserting appends an
element unless it is already there (`mem_insert`, `toList_insert_of_mem`), so a set only grows at its end
(`toList_insertAll`).  `SameElements` compares two sets without their order.
-/

namespace NormalGrammar

/-- Elements without repetition, in the order in which they were first inserted. -/
structure OrderedSet (α : Type) where
  toList : List α
  nodup : toList.Nodup
  deriving DecidableEq

namespace OrderedSet

variable {α : Type}

instance : Membership α (OrderedSet α) := ⟨fun s a => a ∈ s.toList⟩

@[ext] theorem ext {s t : OrderedSet α} (h : s.toList = t.toList) : s = t := by
  cases s; cases t; cases h; rfl

@[simp] theorem mem_toList {s : OrderedSet α} {a : α} : a ∈ s.toList ↔ a ∈ s := Iff.rfl

def empty : OrderedSet α := ⟨[], List.nodup_nil⟩

def singleton (a : α) : OrderedSet α := ⟨[a], by simp⟩

def size (s : OrderedSet α) : Nat := s.toList.length

def isEmpty (s : OrderedSet α) : Bool := s.toList.isEmpty

/-- The elements that satisfy `p`, in the same order. -/
def filter (p : α → Bool) (s : OrderedSet α) : OrderedSet α :=
  ⟨s.toList.filter p, s.nodup.filter p⟩

@[simp] theorem not_mem_empty {a : α} : ¬ a ∈ (empty : OrderedSet α) := List.not_mem_nil

@[simp] theorem mem_singleton {a b : α} : b ∈ singleton a ↔ b = a := List.mem_singleton

@[simp] theorem mem_filter {p : α → Bool} {s : OrderedSet α} {a : α} : a ∈ s.filter p ↔ a ∈ s ∧ p a :=
  List.mem_filter

/-! ### Equality without order -/

/-- The two sets have the same elements. -/
def SameElements (s t : OrderedSet α) : Prop := ∀ a, a ∈ s ↔ a ∈ t

theorem sameElements_iff {s t : OrderedSet α} :
    SameElements s t ↔ (∀ a ∈ s.toList, a ∈ t) ∧ (∀ a ∈ t.toList, a ∈ s) :=
  ⟨fun h => ⟨fun a => (h a).1, fun a => (h a).2⟩, fun h a => ⟨h.1 a, h.2 a⟩⟩

/-! ### Insertion -/

/-- What stands behind all elements of a set is new to it. -/
theorem not_mem_of_toList_append {s t : OrderedSet α} {new : List α} (h : t.toList = s.toList ++ new) {a : α}
    (ha : a ∈ new) : ¬ a ∈ s := by
  intro hs
  have hnodup := t.nodup
  rw [h, List.nodup_append] at hnodup
  exact hnodup.2.2 a hs a ha rfl

private theorem nodup_append_new {l : List α} {a : α} (hl : l.Nodup) (ha : a ∉ l) : (l ++ [a]).Nodup := by
  rw [List.nodup_append]
  refine ⟨hl, by simp, fun x hx y hy hxy => ha ?_⟩
  rw [List.mem_singleton] at hy
  exact hy ▸ hxy ▸ hx

variable [DecidableEq α]

instance (a : α) (s : OrderedSet α) : Decidable (a ∈ s) := inferInstanceAs (Decidable (a ∈ s.toList))

/-- Appends `a` unless it is already there. -/
def insert (s : OrderedSet α) (a : α) : OrderedSet α :=
  if h : a ∈ s then s else ⟨s.toList ++ [a], nodup_append_new s.nodup h⟩

def insertAll (s : OrderedSet α) (l : List α) : OrderedSet α := l.foldl insert s

def ofList (l : List α) : OrderedSet α := empty.insertAll l

theorem insert_of_mem {s : OrderedSet α} {a : α} (h : a ∈ s) : s.insert a = s := dif_pos h

theorem toList_insert_of_not_mem {s : OrderedSet α} {a : α} (h : ¬ a ∈ s) :
    (s.insert a).toList = s.toList ++ [a] := by
  rw [insert, dif_neg h]

@[simp] theorem mem_insert {s : OrderedSet α} {a b : α} : b ∈ s.insert a ↔ b ∈ s ∨ b = a := by
  by_cases h : a ∈ s
  · rw [insert_of_mem h]
    exact ⟨Or.inl, fun hb => hb.elim id (fun e => e ▸ h)⟩
  · rw [← mem_toList, toList_insert_of_not_mem h]
    simp

@[simp] theorem insertAll_nil (s : OrderedSet α) : s.insertAll [] = s := rfl

@[simp] theorem insertAll_cons (s : OrderedSet α) (a : α) (l : List α) :
    s.insertAll (a :: l) = (s.insert a).insertAll l := rfl

@[simp] theorem mem_insertAll {s : OrderedSet α} {l : List α} {b : α} :
    b ∈ s.insertAll l ↔ b ∈ s ∨ b ∈ l := by
  induction l generalizing s with
  | nil => simp
  | cons a l ih => rw [insertAll_cons, ih, mem_insert, List.mem_cons, or_assoc]

@[simp] theorem mem_ofList {l : List α} {b : α} : b ∈ ofList l ↔ b ∈ l := by
  simp [ofList]

/-- A set grows at its end only. -/
theorem toList_insertAll (s : OrderedSet α) (l : List α) : ∃ new, (s.insertAll l).toList = s.toList ++ new := by
  induction l generalizing s with
  | nil => exact ⟨[], by simp⟩
  | cons a l ih =>
    obtain ⟨new, hnew⟩ := ih (s.insert a)
    rw [insertAll_cons, hnew]
    by_cases h : a ∈ s
    · exact ⟨new, by rw [insert_of_mem h]⟩
    · exact ⟨a :: new, by rw [toList_insert_of_not_mem h]; simp⟩

private theorem toList_insertAll_of_nodup (s : OrderedSet α) (l : List α) (h : (s.toList ++ l).Nodup) :
    (s.insertAll l).toList = s.toList ++ l := by
  induction l generalizing s with
  | nil => simp
  | cons a l ih =>
    have ha : ¬ a ∈ s := fun hs => by
      rw [List.nodup_append] at h
      exact h.2.2 a hs a (by simp) rfl
    have hs : (s.insert a).toList ++ l = s.toList ++ a :: l := by rw [toList_insert_of_not_mem ha]; simp
    rw [insertAll_cons, ih _ (by rw [hs]; exact h), hs]

/-- A list without repetitions is kept as it is. -/
theorem toList_ofList {l : List α} (h : l.Nodup) : (ofList l).toList = l :=
  toList_insertAll_of_nodup empty l h

instance (s t : OrderedSet α) : Decidable (SameElements s t) := decidable_of_iff' _ sameElements_iff

end OrderedSet

end NormalGrammar
