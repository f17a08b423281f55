import Mathlib.Data.List.Perm.Basic
import NormalGrammar.Proofs.Rereading
import NormalGrammar.Proofs.WritingBack

/-!
# Listings and the order of insertion

The orders of a listing never find two symbols level, so sorting forgets in which order the symbols came
(`mergeSort_eq_of_perm`).  What is left in the text is the start symbol, the sets of symbols and what is shown of every
owner (`Listing.text_congr`).  Grammars of both kinds show the same of an owner if it has the same nonempty bodies in the
same order and is erasing in both or in neither (`AnyGrammar.SameContent.shown_eq`), as it is with a normal form and the
grammar that it is written back as (`AnyGrammar.sameContent_toGrammar`).
-/

namespace NormalGrammar

/-! ### Sorting -/

theorem OrderedSet.SameElements.perm {α : Type} {s t : OrderedSet α} (h : s.SameElements t) :
    s.toList.Perm t.toList :=
  (List.perm_ext_iff_of_nodup s.nodup t.nodup).2 h

/-- A comparison that puts any two elements in order and finds only equal ones level. -/
structure Linear {α : Type} (le : α → α → Bool) : Prop where
  trans : ∀ a b c, le a b = true → le b c = true → le a c = true
  total : ∀ a b, (le a b || le b a) = true
  antisymm : ∀ a b, le a b = true → le b a = true → a = b

theorem mergeSort_eq_of_perm {α : Type} {le : α → α → Bool} (hle : Linear le) {l m : List α} (h : l.Perm m) :
    l.mergeSort le = m.mergeSort le := by
  have hperm : (l.mergeSort le).Perm (m.mergeSort le) :=
    (List.mergeSort_perm l le).trans (h.trans (List.mergeSort_perm m le).symm)
  exact hperm.eq_of_pairwise (fun a b _ _ => hle.antisymm a b) (List.pairwise_mergeSort hle.trans hle.total l)
    (List.pairwise_mergeSort hle.trans hle.total m)

namespace Listing

theorem linear_terminalLe : Linear terminalLe where
  trans _ _ _ hst htu := decide_eq_true (String.le_trans (of_decide_eq_true hst) (of_decide_eq_true htu))
  total s t := by
    simp only [terminalLe, Bool.or_eq_true, decide_eq_true_eq]
    exact String.le_total s.text t.text
  antisymm s t hst hts :=
    congrArg Terminal.mk (Name.eq_of_text (String.le_antisymm (of_decide_eq_true hst) (of_decide_eq_true hts)))

theorem nonterminalLe_iff {start A B : Nonterminal} :
    nonterminalLe start A B = true ↔ A = start ∨ (B ≠ start ∧ A.text ≤ B.text) := by
  unfold nonterminalLe
  split
  · simp_all
  · split <;> simp_all

theorem linear_nonterminalLe (start : Nonterminal) : Linear (nonterminalLe start) where
  trans A B C hAB hBC := by
    rw [nonterminalLe_iff] at hAB hBC ⊢
    rcases hAB with hA | ⟨hB, hAB⟩
    · exact Or.inl hA
    · obtain ⟨hC, hBC⟩ := hBC.resolve_left hB
      exact Or.inr ⟨hC, String.le_trans hAB hBC⟩
  total A B := by
    rw [Bool.or_eq_true, nonterminalLe_iff, nonterminalLe_iff]
    by_cases hA : A = start
    · exact Or.inl (Or.inl hA)
    by_cases hB : B = start
    · exact Or.inr (Or.inl hB)
    exact (String.le_total A.text B.text).imp (fun h => Or.inr ⟨hB, h⟩) fun h => Or.inr ⟨hA, h⟩
  antisymm A B hAB hBA := by
    rw [nonterminalLe_iff] at hAB hBA
    rcases hAB with hA | ⟨hB, hAB⟩
    · rcases hBA with hB | ⟨hA', -⟩
      · rw [hA, hB]
      · exact absurd hA hA'
    · obtain ⟨-, hBA⟩ := hBA.resolve_left hB
      exact congrArg Nonterminal.mk (Name.eq_of_text (String.le_antisymm hAB hBA))

/-! ### The text of a listing -/

variable {g h : Listing}

theorem owners_congr (hstart : g.start = h.start) (hshown : ∀ A, g.shown A = h.shown A) : g.owners = h.owners := by
  have hmem : ∀ A, A ∈ g.owners ↔ A ∈ h.owners := fun A => by rw [mem_owners, mem_owners, hshown A]
  unfold owners at hmem ⊢
  rw [hstart]
  refine mergeSort_eq_of_perm (linear_nonterminalLe h.start) (OrderedSet.SameElements.perm fun A => ?_)
  exact List.mem_mergeSort.symm.trans ((hmem A).trans List.mem_mergeSort)

/-- Neither the order of the symbols nor that of the owners is seen in the text. -/
theorem text_congr (hstart : g.start = h.start) (hnonterminals : g.nonterminals.Perm h.nonterminals)
    (hterminals : g.terminals.Perm h.terminals) (hshown : ∀ A, g.shown A = h.shown A) : g.text = h.text := by
  have hheading : g.heading = h.heading := by
    unfold heading
    rw [hstart, mergeSort_eq_of_perm (linear_nonterminalLe h.start) hnonterminals,
      mergeSort_eq_of_perm linear_terminalLe hterminals]
  have hline : g.line = h.line := by
    funext A
    unfold line
    rw [alternatives_eq, alternatives_eq, hshown]
  unfold text
  rw [hheading, hline, owners_congr hstart hshown]

end Listing

/-! ### Grammars of both kinds -/

/-- A grammar of either kind. -/
inductive AnyGrammar
  | general (G : Grammar)
  | normal (N : NormalForm)

namespace AnyGrammar

def start : AnyGrammar → Nonterminal
  | general G => G.start
  | normal N => N.start

def nonterminals : AnyGrammar → OrderedSet Nonterminal
  | general G => G.nonterminals
  | normal N => N.nonterminals

def terminals : AnyGrammar → OrderedSet Terminal
  | general G => G.terminals
  | normal N => N.terminals

/-- The nonempty bodies of `A` in the order of insertion. -/
def fullBodies (A : Nonterminal) : AnyGrammar → List Body
  | general G => (G.bodies A).toList.filter fun w => !w.isEmpty
  | normal N => (N.productions.bodies A).toList.map NormalBody.toBody

/-- The empty word is a body of `A`. -/
def Erases (A : Nonterminal) : AnyGrammar → Prop
  | general G => ⟨A, []⟩ ∈ G.productions
  | normal N => N.erasable = true ∧ A = N.start

def listing : AnyGrammar → Listing
  | general G => G.listing
  | normal N => N.listing

/-- The grammar as text. -/
def definition : AnyGrammar → String
  | general G => G.definition
  | normal N => N.definition

/-- The same start symbol, the same symbols in any order, and for every nonterminal the same nonempty bodies in the same
order, and an empty one in both or in neither, wherever it stands. -/
structure SameContent (g h : AnyGrammar) : Prop where
  start : g.start = h.start
  nonterminals : g.nonterminals.SameElements h.nonterminals
  terminals : g.terminals.SameElements h.terminals
  bodies : ∀ A, g.fullBodies A = h.fullBodies A
  erasing : ∀ A, g.Erases A ↔ h.Erases A

variable {g h : AnyGrammar} {A : Nonterminal}

/-! ### Comparing contents -/

instance : (g : AnyGrammar) → Decidable (g.Erases A)
  | general G => inferInstanceAs (Decidable (⟨A, []⟩ ∈ G.productions))
  | normal N => inferInstanceAs (Decidable (N.erasable = true ∧ A = N.start))

/-- The nonterminals that may own a body. -/
def owners : AnyGrammar → List Nonterminal
  | general G => G.owners.toList
  | normal N => N.start :: N.productions.owners.toList

theorem owns_nothing (hA : A ∉ g.owners) : g.fullBodies A = [] ∧ ¬ g.Erases A := by
  cases g with
  | general G =>
    have hnone : ∀ w, ¬ (⟨A, w⟩ : Rule Body) ∈ G.productions := fun w hw => hA (Grammar.mem_owners.2 ⟨w, hw⟩)
    refine ⟨List.eq_nil_iff_forall_not_mem.2 fun w hw => ?_, hnone []⟩
    exact hnone w (Grammar.mem_bodies.1 (List.mem_of_mem_filter hw))
  | normal N =>
    obtain ⟨hstart, howners⟩ := not_or.1 (mt List.mem_cons.2 hA)
    refine ⟨List.map_eq_nil_iff.2 (List.eq_nil_iff_forall_not_mem.2 fun w hw => ?_), fun h => hstart h.2⟩
    exact howners (Productions.mem_owners.2 ⟨w, Productions.mem_bodies.1 hw⟩)

/-- Only the nonterminals that may own a body have to be compared. -/
theorem sameContent_iff : g.SameContent h ↔
    g.start = h.start ∧ g.nonterminals.SameElements h.nonterminals ∧ g.terminals.SameElements h.terminals ∧
      ∀ A ∈ g.owners ++ h.owners, g.fullBodies A = h.fullBodies A ∧ (g.Erases A ↔ h.Erases A) := by
  constructor
  · exact fun hsame => ⟨hsame.start, hsame.nonterminals, hsame.terminals,
      fun A _ => ⟨hsame.bodies A, hsame.erasing A⟩⟩
  · rintro ⟨hstart, hnonterminals, hterminals, howners⟩
    have hall : ∀ A, g.fullBodies A = h.fullBodies A ∧ (g.Erases A ↔ h.Erases A) := by
      intro A
      by_cases hA : A ∈ g.owners ++ h.owners
      · exact howners A hA
      · obtain ⟨hg, hh⟩ := not_or.1 (mt List.mem_append.2 hA)
        obtain ⟨hgbodies, hgerases⟩ := owns_nothing hg
        obtain ⟨hhbodies, hherases⟩ := owns_nothing hh
        exact ⟨hgbodies.trans hhbodies.symm, iff_of_false hgerases hherases⟩
    exact ⟨hstart, hnonterminals, hterminals, fun A => (hall A).1, fun A => (hall A).2⟩

instance (g h : AnyGrammar) : Decidable (g.SameContent h) := decidable_of_iff' _ sameContent_iff

/-! ### What is shown of an owner -/

theorem definition_eq_text (g : AnyGrammar) : g.definition = g.listing.text := by
  cases g <;> rfl

theorem mem_erasing : A ∈ g.listing.erasing ↔ g.Erases A := by
  cases g with
  | general G => exact Grammar.mem_erasingOwners
  | normal N =>
    show A ∈ N.erasingOwners ↔ N.erasable = true ∧ A = N.start
    unfold NormalForm.erasingOwners
    split
    · simp_all
    · simp_all

private theorem map_body_filter (A : Nonterminal) (rules : List (Rule Body)) :
    (Productions.ownedBy A (rules.filter fun r => !r.body.isEmpty)).map Rule.body =
      ((Productions.ownedBy A rules).map Rule.body).filter fun w => !w.isEmpty := by
  rw [Productions.ownedBy_filter, List.filter_map]
  rfl

/-- Of every owner its nonempty bodies are shown in their order, although the rules are read owner by owner. -/
theorem shown_rules : (g.listing.rules.filter fun r => r.owner = A).map Rule.body = g.fullBodies A := by
  cases g with
  | general G =>
    refine (map_body_filter A G.rules).trans ?_
    unfold Grammar.rules
    rw [Productions.ownedBy_rules]
    rfl
  | normal N =>
    show (Productions.ownedBy A (N.productions.rules.map Rule.toBody)).map Rule.body =
      ((Productions.ownedBy A N.productions.toList).map Rule.body).map NormalBody.toBody
    have howner : ∀ r : Rule NormalBody, r.toBody.owner = r.owner := fun _ => rfl
    rw [Productions.ownedBy_map howner, Productions.ownedBy_rules, List.map_map, List.map_map]
    rfl

theorem SameContent.shown_eq (hsame : g.SameContent h) (A : Nonterminal) :
    g.listing.shown A = h.listing.shown A := by
  have herasing : A ∈ g.listing.erasing ↔ A ∈ h.listing.erasing := by
    rw [mem_erasing, mem_erasing, hsame.erasing A]
  unfold Listing.shown
  rw [shown_rules, shown_rules, hsame.bodies A]
  exact congrArg _ (if_congr herasing rfl rfl)

theorem SameContent.definition_eq (hsame : g.SameContent h) : g.definition = h.definition := by
  have hstart : ∀ g : AnyGrammar, g.listing.start = g.start := fun g => by cases g <;> rfl
  have hnonterminals : ∀ g : AnyGrammar, g.listing.nonterminals = g.nonterminals.toList := fun g => by cases g <;> rfl
  have hterminals : ∀ g : AnyGrammar, g.listing.terminals = g.terminals.toList := fun g => by cases g <;> rfl
  rw [definition_eq_text, definition_eq_text]
  refine Listing.text_congr ?_ ?_ ?_ hsame.shown_eq
  · rw [hstart, hstart, hsame.start]
  · rw [hnonterminals, hnonterminals]
    exact hsame.nonterminals.perm
  · rw [hterminals, hterminals]
    exact hsame.terminals.perm

/-! ### Writing a normal form back -/

theorem sameContent_toGrammar (N : NormalForm) : (normal N).SameContent (general N.toGrammar) where
  start := (NormalForm.toGrammar_start N).symm
  nonterminals := NormalForm.nonterminals_toGrammar N
  terminals := NormalForm.terminals_toGrammar N
  bodies := by
    intro A
    calc (normal N).fullBodies A
      _ = (Productions.ownedBy A (N.rules.map Rule.toBody)).map Rule.body := shown_rules.symm
      _ = (Productions.ownedBy A (N.writtenRules.filter fun r => !r.body.isEmpty)).map Rule.body := by
        rw [N.filter_writtenRules]
      _ = ((Productions.ownedBy A N.writtenRules).map Rule.body).filter fun w => !w.isEmpty := map_body_filter A _
      _ = (general N.toGrammar).fullBodies A := by
        rw [← N.toList_toGrammar]
        rfl
  erasing := by
    intro A
    show (N.erasable = true ∧ A = N.start) ↔ ⟨A, []⟩ ∈ N.toGrammar.productions
    rw [NormalForm.mem_toGrammar]
    constructor
    · rintro ⟨hN, rfl⟩
      exact Or.inr ⟨hN, rfl⟩
    · rintro (⟨q, -, hq⟩ | ⟨hN, hA⟩)
      · exact absurd (congrArg Rule.body hq) (NormalForm.toBody_ne_nil q.body)
      · exact ⟨hN, congrArg Rule.owner hA⟩

/-- Grammars of the same content are written down as the same text, whatever kind they are of, and so are a normal form
and the grammar that it is written back as. -/
theorem definition_congr : (∀ g h : AnyGrammar, g.SameContent h → g.definition = h.definition) ∧
    ∀ N : NormalForm, N.definition = N.toGrammar.definition :=
  ⟨fun _ _ hsame => hsame.definition_eq, fun N => (sameContent_toGrammar N).definition_eq⟩

/-- `B → b`, `S → ε | AB` and `A → a` with the symbols in disorder. -/
def disordered : Grammar :=
  let S : Nonterminal := ⟨.ofChar 'S'⟩
  let A : Nonterminal := ⟨.ofChar 'A'⟩
  let B : Nonterminal := ⟨.ofChar 'B'⟩
  let a : Terminal := ⟨.ofChar 'a'⟩
  let b : Terminal := ⟨.ofChar 'b'⟩
  .ofParts S [B, S, A] [b, a]
    [⟨B, [.terminal b]⟩, ⟨S, []⟩, ⟨S, [.nonterminal A, .nonterminal B]⟩, ⟨A, [.terminal a]⟩]

/-- The same with the owners in order, and in normal form. -/
def ordered : NormalForm :=
  let S : Nonterminal := ⟨.ofChar 'S'⟩
  let A : Nonterminal := ⟨.ofChar 'A'⟩
  let B : Nonterminal := ⟨.ofChar 'B'⟩
  ⟨S, true, .ofList [⟨S, .pair A B⟩, ⟨A, .terminal ⟨.ofChar 'a'⟩⟩, ⟨B, .terminal ⟨.ofChar 'b'⟩⟩]⟩

/-- Both are printed with the symbols and the owners in order and the empty body last. -/
theorem definition_congr_disordered : (general disordered).SameContent (normal ordered) ∧
    (general disordered).definition = (normal ordered).definition ∧
    ordered.definition = ordered.toGrammar.definition ∧
    ordered.definition =
      "G = (\x7bS, A, B\x7d, \x7ba, b\x7d, P, S)\n\nP = \x7b\n  S → AB | ε\n  A → a\n  B → b\n\x7d\n" := by
  have hsame : (general disordered).SameContent (normal ordered) := by decide
  refine ⟨hsame, definition_congr.1 _ _ hsame, definition_congr.2 ordered, ?_⟩
  -- Nothing is left to sort in `ordered`.
  have hnonterminals : ordered.listing.nonterminals.mergeSort (Listing.nonterminalLe ordered.listing.start) =
      ordered.listing.nonterminals := List.mergeSort_of_pairwise (by decide)
  have hterminals : ordered.listing.terminals.mergeSort Listing.terminalLe = ordered.listing.terminals :=
    List.mergeSort_of_pairwise (by decide)
  have howners : ordered.listing.owners = ordered.listing.nonterminals := List.mergeSort_of_pairwise (by decide)
  unfold NormalForm.definition Listing.text Listing.heading
  rw [hnonterminals, hterminals, howners]
  decide +kernel

end AnyGrammar

end NormalGrammar
