import NormalGrammar.Binarization
import NormalGrammar.Proofs.Pruning

/-!
# Reading a chain

A chain is determined by the names of its inner links (`Chain.linksWith`).  An inner link stands for what is left of
the body behind it (`Chain.remainders`).  A grammar that has all links of a chain gives its owner every word of the body
(`generates_of_linksWith`), and an interpretation that reads inner links as what they stand for is closed under the
links (`closed_linksWith`).
-/

namespace NormalGrammar

namespace Chain

/-- The links of a chain for `A → w` whose inner links are owned by the given nonterminals. -/
def linksWith : List Nonterminal → Nonterminal → Body → List (Rule Body)
  | X :: Xs, A, s :: w => ⟨A, [s, .nonterminal X]⟩ :: linksWith Xs X w
  | [], A, w => [⟨A, w⟩]
  | _ :: _, A, [] => [⟨A, []⟩]

/-- Every inner nonterminal of a chain with what is left of the body behind its first symbols. -/
def remainders : List Nonterminal → Body → List (Nonterminal × Body)
  | X :: Xs, _ :: w => (X, w) :: remainders Xs w
  | _, _ => []

theorem mem_of_mem_remainders {Xs : List Nonterminal} {w v : Body} {X : Nonterminal}
    (h : (X, v) ∈ remainders Xs w) : X ∈ Xs := by
  induction Xs generalizing w with
  | nil => simp [remainders] at h
  | cons Y Xs ih =>
    cases w with
    | nil => simp [remainders] at h
    | cons s w =>
      rw [remainders, List.mem_cons, Prod.mk.injEq] at h
      rcases h with ⟨rfl, rfl⟩ | h
      · exact List.mem_cons_self
      · exact List.mem_cons_of_mem _ (ih h)

/-- Different names stand for one remainder each. -/
theorem remainders_unique {Xs : List Nonterminal} (hXs : Xs.Nodup) {w v v' : Body} {X : Nonterminal}
    (h : (X, v) ∈ remainders Xs w) (h' : (X, v') ∈ remainders Xs w) : v = v' := by
  induction Xs generalizing w with
  | nil => simp [remainders] at h
  | cons Y Xs ih =>
    cases w with
    | nil => simp [remainders] at h
    | cons s w =>
      rw [List.nodup_cons] at hXs
      rw [remainders, List.mem_cons, Prod.mk.injEq] at h h'
      rcases h with ⟨rfl, rfl⟩ | h <;> rcases h' with ⟨e, rfl⟩ | h'
      · rfl
      · exact absurd (mem_of_mem_remainders h') hXs.1
      · rw [e] at h
        exact absurd (mem_of_mem_remainders h) hXs.1
      · exact ih hXs.2 h h'

/-- Every name stands for a remainder if there are no more names than symbols. -/
theorem exists_remainder {Xs : List Nonterminal} {w : Body} (hlen : Xs.length ≤ w.length) {X : Nonterminal}
    (hX : X ∈ Xs) : ∃ v, (X, v) ∈ remainders Xs w := by
  induction Xs generalizing w with
  | nil => simp at hX
  | cons Y Xs ih =>
    cases w with
    | nil => simp at hlen
    | cons s w =>
      rw [remainders]
      rcases List.mem_cons.1 hX with rfl | hX
      · exact ⟨w, List.mem_cons_self⟩
      · simp only [List.length_cons] at hlen
        obtain ⟨v, hv⟩ := ih (w := w) (by omega) hX
        exact ⟨v, List.mem_cons_of_mem _ hv⟩

theorem mem_body_of_mem_remainders {Xs : List Nonterminal} {w v : Body} {X : Nonterminal}
    (h : (X, v) ∈ remainders Xs w) {s : Symbol} (hs : s ∈ v) : s ∈ w := by
  induction Xs generalizing w with
  | nil => simp [remainders] at h
  | cons Y Xs ih =>
    cases w with
    | nil => simp [remainders] at h
    | cons t w =>
      rw [remainders, List.mem_cons, Prod.mk.injEq] at h
      rcases h with ⟨-, rfl⟩ | h
      · exact List.mem_cons_of_mem _ hs
      · exact List.mem_cons_of_mem _ (ih h)

/-- A chain with as many names as binarization draws has no body of more than two symbols, and none that is shorter
than two unless the whole chain is one rule. -/
theorem length_linksWith {Xs : List Nonterminal} {A : Nonterminal} {w : Body} (hlen : Xs.length = w.length - 2)
    {q : Rule Body} (hq : q ∈ linksWith Xs A w) : q.body.length = 2 ∨ (q = ⟨A, w⟩ ∧ w.length ≤ 2) := by
  induction Xs generalizing A w with
  | nil =>
    rw [linksWith, List.mem_singleton] at hq
    simp only [List.length_nil] at hlen
    exact Or.inr ⟨hq, by omega⟩
  | cons X Xs ih =>
    cases w with
    | nil => simp at hlen
    | cons s w =>
      simp only [List.length_cons] at hlen
      rw [linksWith, List.mem_cons] at hq
      rcases hq with rfl | hq
      · exact Or.inl rfl
      · rcases ih (w := w) (by omega) hq with h | ⟨rfl, h⟩
        · exact Or.inl h
        · refine Or.inl ?_
          show w.length = 2
          omega

/-- The body of the first link. -/
def firstBody : List Nonterminal → Body → Body
  | X :: _, s :: _ => [s, .nonterminal X]
  | _, w => w

/-- The links behind the first. -/
def innerLinks : List Nonterminal → Body → List (Rule Body)
  | X :: Xs, _ :: w => linksWith Xs X w
  | _, _ => []

theorem linksWith_eq (Xs : List Nonterminal) (A : Nonterminal) (w : Body) :
    linksWith Xs A w = ⟨A, firstBody Xs w⟩ :: innerLinks Xs w := by
  fun_cases linksWith Xs A w <;> rfl

/-- Every link is owned by the name that the link in front of it ends with. -/
theorem owners_linksWith {Xs : List Nonterminal} {A : Nonterminal} {w : Body} (hlen : Xs.length ≤ w.length) :
    (linksWith Xs A w).map Rule.owner = A :: Xs := by
  fun_induction linksWith Xs A w with
  | case1 X Xs A s w ih =>
    rw [List.map_cons, ih (Nat.le_of_succ_le_succ hlen)]
  | case2 A w => rfl
  | case3 X Xs A => simp at hlen

/-- The bodies of the links hold the symbols of the body and the names, each as often as they do together. -/
theorem count_linksWith {Xs : List Nonterminal} {A : Nonterminal} {w : Body} (hlen : Xs.length ≤ w.length)
    (s : Symbol) :
    ((linksWith Xs A w).flatMap Rule.body).count s = w.count s + (Xs.map Symbol.nonterminal).count s := by
  fun_induction linksWith Xs A w with
  | case1 X Xs A t w ih =>
    rw [List.flatMap_cons, List.count_append, ih (Nat.le_of_succ_le_succ hlen), List.map_cons]
    simp only [List.count_cons, List.count_nil]
    omega
  | case2 A w => simp
  | case3 X Xs A => simp at hlen

/-- Links are owned by the owner of the chain or an inner nonterminal. -/
theorem owner_of_mem_linksWith {Xs : List Nonterminal} {A : Nonterminal} {w : Body} {q : Rule Body}
    (hq : q ∈ linksWith Xs A w) : q.owner = A ∨ q.owner ∈ Xs := by
  fun_induction linksWith Xs A w with
  | case1 X Xs A s w ih =>
    rcases List.mem_cons.1 hq with rfl | hq
    · exact Or.inl rfl
    · rcases ih hq with howner | howner
      · rw [howner]
        exact Or.inr List.mem_cons_self
      · exact Or.inr (List.mem_cons_of_mem _ howner)
  | case2 A w =>
    rw [List.mem_singleton.1 hq]
    exact Or.inl rfl
  | case3 X Xs A =>
    rw [List.mem_singleton.1 hq]
    exact Or.inl rfl

theorem owner_of_mem_innerLinks {Xs : List Nonterminal} {w : Body} {q : Rule Body} (hq : q ∈ innerLinks Xs w) :
    q.owner ∈ Xs := by
  unfold innerLinks at hq
  split at hq
  · exact List.mem_cons.2 (owner_of_mem_linksWith hq)
  · cases hq

/-- A link that is not the whole chain has an inner nonterminal as its owner or in its body. -/
theorem exists_inner_of_mem_linksWith {Xs : List Nonterminal} {A : Nonterminal} {w : Body}
    (hlen : Xs.length ≤ w.length) {q : Rule Body} (hq : q ∈ linksWith Xs A w) :
    q = ⟨A, w⟩ ∨ ∃ X ∈ Xs, X = q.owner ∨ .nonterminal X ∈ q.body := by
  rw [linksWith_eq, List.mem_cons] at hq
  rcases hq with rfl | hq
  · fun_cases firstBody Xs w with
    | case1 X Xs s w => exact Or.inr ⟨X, List.mem_cons_self, Or.inr (by simp)⟩
    | case2 => exact Or.inl rfl
  · exact Or.inr ⟨q.owner, owner_of_mem_innerLinks hq, Or.inl rfl⟩

/-- Links hold symbols of the body and inner nonterminals. -/
theorem symbol_of_mem_linksWith {Xs : List Nonterminal} {A : Nonterminal} {w : Body} {q : Rule Body}
    (hq : q ∈ linksWith Xs A w) {s : Symbol} (hs : s ∈ q.body) : s ∈ w ∨ ∃ X ∈ Xs, s = .nonterminal X := by
  fun_induction linksWith Xs A w with
  | case1 X Xs A t w ih =>
    rcases List.mem_cons.1 hq with rfl | hq
    · simp only [List.mem_cons, List.not_mem_nil, or_false] at hs
      rcases hs with rfl | rfl
      · exact Or.inl List.mem_cons_self
      · exact Or.inr ⟨X, List.mem_cons_self, rfl⟩
    · rcases ih hq with hs | ⟨Y, hY, rfl⟩
      · exact Or.inl (List.mem_cons_of_mem _ hs)
      · exact Or.inr ⟨Y, List.mem_cons_of_mem _ hY, rfl⟩
  | case2 A w =>
    rw [List.mem_singleton.1 hq] at hs
    exact Or.inl hs
  | case3 X Xs A =>
    rw [List.mem_singleton.1 hq] at hs
    exact Or.inl hs

/-- Every symbol of the body is found in a link. -/
theorem exists_link {Xs : List Nonterminal} {A : Nonterminal} {w : Body} {s : Symbol} (hs : s ∈ w) :
    ∃ q ∈ linksWith Xs A w, s ∈ q.body := by
  induction Xs generalizing A w with
  | nil => exact ⟨⟨A, w⟩, by simp [linksWith], hs⟩
  | cons X Xs ih =>
    cases w with
    | nil => simp at hs
    | cons t w =>
      rw [linksWith]
      rcases List.mem_cons.1 hs with rfl | hs
      · exact ⟨_, List.mem_cons_self, List.mem_cons_self⟩
      · obtain ⟨q, hq, hmem⟩ := ih (A := X) hs
        exact ⟨q, List.mem_cons_of_mem _ hq, hmem⟩

end Chain

namespace Grammar

open Chain

variable {G K H : Grammar} {I J : Interpretation}

/-! ### Reading a chain -/

/-- A chain gives its owner the words of the whole body. -/
theorem generates_of_linksWith {Xs : List Nonterminal} {A : Nonterminal} {w : Body} (hlen : Xs.length ≤ w.length)
    (hK : ∀ q ∈ linksWith Xs A w, q ∈ K.productions) {x : Word} (hx : Reads K.Generates w x) : K.Generates A x := by
  induction Xs generalizing A w x with
  | nil => exact .of_rule (hK ⟨A, w⟩ (by simp [linksWith])) hx
  | cons X Xs ih =>
    cases w with
    | nil => simp at hlen
    | cons s w =>
      simp only [linksWith, List.forall_mem_cons] at hK
      simp only [List.length_cons] at hlen
      obtain ⟨y, z, rfl, hy, hz⟩ := reads_cons.1 hx
      have hX := ih (by omega) hK.2 hz
      exact .of_rule hK.1 (reads_cons.2 ⟨y, z, rfl, hy, reads_unit.2 hX⟩)

/-- An inner link derives the words of what it stands for. -/
theorem generates_of_mem_remainders {Xs : List Nonterminal} {A X : Nonterminal} {w v : Body}
    (hlen : Xs.length ≤ w.length) (hK : ∀ q ∈ linksWith Xs A w, q ∈ K.productions)
    (hX : (X, v) ∈ remainders Xs w) {x : Word} (hx : Reads K.Generates v x) : K.Generates X x := by
  induction Xs generalizing A w with
  | nil => simp [remainders] at hX
  | cons Y Xs ih =>
    cases w with
    | nil => simp at hlen
    | cons s w =>
      simp only [linksWith, List.forall_mem_cons] at hK
      simp only [List.length_cons] at hlen
      rw [remainders, List.mem_cons, Prod.mk.injEq] at hX
      rcases hX with ⟨rfl, rfl⟩ | hX
      · exact generates_of_linksWith (by omega) hK.2 hx
      · exact ih (by omega) hK.2 hX

/-- If inner links are read as what they stand for, every link of a chain gives its owner only words of the body. -/
theorem closed_linksWith {Xs : List Nonterminal} {A : Nonterminal} {w : Body}
    (hsymbols : ∀ B, .nonterminal B ∈ w → ∀ x, I B x → J B x) (howner : ∀ x, Reads J w x → I A x)
    (hinner : ∀ X v, (X, v) ∈ remainders Xs w → ∀ x, I X x ↔ Reads J v x) {q : Rule Body}
    (hq : q ∈ linksWith Xs A w) {x : Word} (hx : Reads I q.body x) : I q.owner x := by
  fun_induction linksWith Xs A w with
  | case1 X Xs A s w ih =>
    have hX : ∀ x, I X x ↔ Reads J w x := hinner X w List.mem_cons_self
    have hrest : ∀ B, .nonterminal B ∈ w → ∀ x, I B x → J B x := fun B hB => hsymbols B (List.mem_cons_of_mem _ hB)
    rcases List.mem_cons.1 hq with rfl | hq
    · obtain ⟨y, z, rfl, hy, hz⟩ := reads_cons.1 hx
      have hfirst : Reads J [s] y := hy.imp fun B hB => by
        rw [List.mem_singleton] at hB
        exact hsymbols B (hB ▸ List.mem_cons_self)
      exact howner _ (reads_cons.2 ⟨y, z, rfl, hfirst, (hX z).1 (reads_unit.1 hz)⟩)
    · exact ih hrest (fun y hy => (hX y).2 hy) (fun Y v hY => hinner Y v (List.mem_cons_of_mem _ hY)) hq
  | case2 A w =>
    rw [List.mem_singleton.1 hq] at hx ⊢
    exact howner x (hx.imp hsymbols)
  | case3 X Xs A =>
    rw [List.mem_singleton.1 hq] at hx ⊢
    exact howner x (hx.imp hsymbols)

/-- A chain leads to all its inner links and to all nonterminals of the body. -/
theorem reaches_of_linksWith {Xs : List Nonterminal} {A B : Nonterminal} {w : Body} (hlen : Xs.length ≤ w.length)
    (hK : ∀ q ∈ linksWith Xs A w, q ∈ K.productions) (hB : .nonterminal B ∈ w ∨ B ∈ Xs) : K.Reaches A B := by
  induction Xs generalizing A w with
  | nil =>
    have hrule : ⟨A, w⟩ ∈ K.productions := hK ⟨A, w⟩ (by simp [linksWith])
    rcases hB with hB | hB
    · exact .single ⟨w, hrule, hB⟩
    · simp at hB
  | cons X Xs ih =>
    cases w with
    | nil => simp at hlen
    | cons s w =>
      simp only [linksWith, List.forall_mem_cons] at hK
      simp only [List.length_cons] at hlen
      have hfirst : K.Reaches A X := .single ⟨_, hK.1, by simp⟩
      by_cases hs : Symbol.nonterminal B = s
      · exact .single ⟨_, hK.1, by simp [hs]⟩
      · by_cases hX : B = X
        · rw [hX]
          exact hfirst
        · have hB' : .nonterminal B ∈ w ∨ B ∈ Xs := by simpa [hs, hX] using hB
          exact hfirst.trans (ih (by omega) hK.2 hB')

end Grammar

end NormalGrammar
