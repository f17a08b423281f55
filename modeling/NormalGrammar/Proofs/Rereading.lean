import NormalGrammar.Proofs.Declaration
import NormalGrammar.Proofs.Notation
import NormalGrammar.Proofs.PrintedLines

/-!
# Reading a printed grammar

The symbols of a grammar that was read are legible (`legible_of_read`), so its listing consists of lines that the
notation has (`definition_eq`) and can be read again.  The lines hold all rules (`mem_shown`), and as reading declares
just what is used, the grammar that is read is the one that was printed (`read_definition`).
-/

namespace NormalGrammar

open Notation

namespace Grammar

variable {G : Grammar}

/-! ### What a listing shows -/

theorem mem_erasingOwners {A : Nonterminal} : A ∈ G.erasingOwners ↔ ⟨A, []⟩ ∈ G.productions := by
  simp only [erasingOwners, OrderedSet.mem_filter, mem_owners, decide_eq_true_eq, mem_bodies]
  exact ⟨fun h => h.2, fun h => ⟨⟨[], h⟩, h⟩⟩

/-- All bodies of an owner are shown. -/
theorem mem_shown {A : Nonterminal} {w : Body} : w ∈ G.listing.shown A ↔ ⟨A, w⟩ ∈ G.productions := by
  have hrules : (w ∈ ((G.listing.rules.filter fun r => r.owner = A).map Rule.body)) ↔
      ⟨A, w⟩ ∈ G.productions ∧ w ≠ [] := by
    simp only [listing, List.mem_map, List.mem_filter, mem_rules, decide_eq_true_eq, Bool.not_eq_true',
      List.isEmpty_eq_false_iff]
    constructor
    · rintro ⟨r, ⟨⟨hr, hne⟩, rfl⟩, rfl⟩
      exact ⟨hr, hne⟩
    · exact fun h => ⟨⟨A, w⟩, ⟨h, rfl⟩, rfl⟩
  have herasing : A ∈ G.listing.erasing ↔ ⟨A, []⟩ ∈ G.productions := mem_erasingOwners
  unfold Listing.shown
  rw [List.mem_append, hrules]
  by_cases hw : w = []
  · subst hw
    simp [herasing]
  · simp [hw]

theorem mem_listing_owners {A : Nonterminal} : A ∈ G.listing.owners ↔ ∃ w, ⟨A, w⟩ ∈ G.productions := by
  simp only [Listing.mem_owners, ← mem_shown]
  exact ⟨List.exists_mem_of_ne_nil _, fun ⟨_, hw⟩ => List.ne_nil_of_mem hw⟩

/-! ### Legible grammars -/

theorem legible_of_read {start : String} {lines : List String} (h : read start lines = .ok G) :
    ∀ s, G.Uses s → Legible s := by
  obtain ⟨S, rules, hS, hrules, rfl⟩ := read_eq_ok.1 h
  have hlines : ∀ some ∈ rules, ∀ r ∈ some, Legible (.nonterminal r.owner) ∧ ∀ s ∈ r.body, Legible s :=
    ((List.forall₂_and_left _ _).1 (hrules.flip.imp fun _ _ htext => ⟨legible_of_productionText htext, htext⟩)).1
  have hrule : ∀ r ∈ rules.flatten, Legible (.nonterminal r.owner) ∧ ∀ s ∈ r.body, Legible s := by
    intro r hr
    obtain ⟨some, hsome, hr⟩ := List.mem_flatten.1 hr
    exact hlines some hsome r hr
  rintro s (rfl | ⟨r, hr, rfl | hs⟩)
  · rw [addAll_start]
    exact legible_of_ownerText hS
  · exact (hrule r (mem_ofStart_addAll.1 hr)).1
  · exact (hrule r (mem_ofStart_addAll.1 hr)).2 s hs

theorem exact_of_read {start : String} {lines : List String} (h : read start lines = .ok G) : G.Exact := by
  obtain ⟨S, rules, -, -, rfl⟩ := read_eq_ok.1 h
  exact exact_ofStart_addAll S rules.flatten

/-! ### Reading the lines again -/

/-- The line of an owner stands for the bodies that it owns. -/
theorem productionText_lineText (hlegible : ∀ s, G.Uses s → Legible s)
    (hother : ∀ r ∈ G.productions, (∀ s ∈ r.body, s.text.length = 1) → ¬ epsilonBody <+: r.body) {A : Nonterminal}
    (hA : A ∈ G.listing.owners) :
    ProductionText (G.listing.lineText A).toList ((G.listing.shown A).map (Rule.mk A)) := by
  obtain ⟨v, hv⟩ := mem_listing_owners.1 hA
  refine Listing.productionText_line (hlegible _ (Or.inr ⟨⟨A, v⟩, hv, Or.inl rfl⟩)) ?_ fun w hw => ?_
  · exact List.ne_nil_of_mem (mem_shown.2 hv)
  · have hrule := mem_shown.1 hw
    exact bodyText_text (fun s hs => hlegible s (Or.inr ⟨⟨A, w⟩, hrule, Or.inr hs⟩)) (hother ⟨A, w⟩ hrule)

/-- The rules that the lines stand for, line by line. -/
def lineRules (G : Grammar) : List (List (Rule Body)) :=
  G.listing.owners.map fun A => (G.listing.shown A).map (Rule.mk A)

theorem mem_flatten_lineRules {r : Rule Body} : r ∈ G.lineRules.flatten ↔ r ∈ G.productions := by
  simp only [lineRules, List.mem_flatten, List.mem_map]
  constructor
  · rintro ⟨_, ⟨A, -, rfl⟩, hr⟩
    obtain ⟨w, hw, rfl⟩ := List.mem_map.1 hr
    exact mem_shown.1 hw
  · intro hr
    have howner : r.owner ∈ G.listing.owners := mem_listing_owners.2 ⟨r.body, hr⟩
    exact ⟨_, ⟨r.owner, howner, rfl⟩, List.mem_map.2 ⟨r.body, mem_shown.2 hr, rfl⟩⟩

/-- A grammar that was read is printed as lines that are read as the same grammar again, provided that no body has
letters side by side that spell `epsilon`. -/
theorem read_definition {start : String} {lines : List String} (h : read start lines = .ok G)
    (hother : ∀ r ∈ G.productions, (∀ s ∈ r.body, s.text.length = 1) → ¬ epsilonBody <+: r.body) :
    ∃ H, read G.start.text (linesBetween "P = \x7b" "\x7d" G.definition) = .ok H ∧ H ≈ G := by
  have hlegible := legible_of_read h
  have hexact := exact_of_read h
  have hdeclared : ∀ s, G.DeclaresSymbol s → Legible s := fun s hs => hlegible s ((hexact s).1 hs)
  have hstart : Legible (.nonterminal G.start) := hlegible _ (Or.inl rfl)
  have hline : ∀ A ∈ G.listing.owners,
      ProductionText (G.listing.lineText A).toList ((G.listing.shown A).map (Rule.mk A)) := fun A hA =>
    productionText_lineText hlegible hother hA
  have hheading : OneLine G.listing.headingText.toList :=
    Listing.oneLine_headingText (fun A hA => hdeclared (.nonterminal A) hA) (fun t ht => hdeclared (.terminal t) ht)
      hstart
  have hlines : linesBetween "P = \x7b" "\x7d" G.definition = G.listing.owners.map G.listing.lineText :=
    Listing.linesBetween_text hheading fun A hA => oneLine_of_productionText (hline A hA)
  have howner : OwnerText G.start.text.toList G.start := by
    have hblanks := OwnerText.intro blanks_nil hstart blanks_nil
    rwa [List.nil_append, List.append_nil] at hblanks
  have hrules : List.Forall₂ (fun line rules => ProductionText line.toList rules)
      (G.listing.owners.map G.listing.lineText) G.lineRules := by
    rw [lineRules, List.forall₂_map_left_iff, List.forall₂_map_right_iff, List.forall₂_same]
    exact hline
  refine ⟨(ofStart G.start).addAll G.lineRules.flatten, ?_, ?_⟩
  · rw [hlines]
    exact read_eq_ok.2 ⟨G.start, G.lineRules, howner, hrules, rfl⟩
  · have hback : ((ofStart G.start).addAll G.lineRules.flatten).start = G.start := addAll_start _ _
    refine ((exact_ofStart_addAll _ _).equiv_iff hback fun r => ?_).2 hexact
    rw [mem_ofStart_addAll]
    exact mem_flatten_lineRules

/-- Names of one letter and longer ones, letters that nearly spell `epsilon`, and empty bodies among others. -/
def nearlyEpsilon : Grammar :=
  let letter (c : Char) : Symbol := .terminal ⟨.ofChar c⟩
  let S : Nonterminal := ⟨.ofChar 'S'⟩
  let B : Nonterminal := ⟨.ofChar 'B'⟩
  let X : Nonterminal := ⟨.ofChars 'X' ['1']⟩
  (ofStart S).addAll [⟨S, []⟩, ⟨S, [.nonterminal X, .terminal ⟨.ofChars 'a' ['\'']⟩]⟩, ⟨S, [letter 'b', letter 'a']⟩,
    ⟨S, "epsilo".toList.map letter ++ [.terminal ⟨.ofChars 'n' ['1']⟩]⟩,
    ⟨X, [.terminal ⟨.ofChars 'b' ['1', '2']⟩, .nonterminal X]⟩, ⟨X, []⟩, ⟨B, [letter 'e']⟩,
    ⟨B, [.nonterminal S, .nonterminal B]⟩]

theorem read_definition_nearlyEpsilon :
    read "S" ["S→ε| X1 a' |ba|e p s i l o n1", "X1 -> b12 X1|epsilon", "B → e|SB"] = .ok nearlyEpsilon ∧
      (∀ r ∈ nearlyEpsilon.productions, (∀ s ∈ r.body, s.text.length = 1) → ¬ epsilonBody <+: r.body) ∧
      ∃ H, read nearlyEpsilon.start.text (linesBetween "P = \x7b" "\x7d" nearlyEpsilon.definition) = .ok H ∧
        H ≈ nearlyEpsilon := by
  have hread : read "S" ["S→ε| X1 a' |ba|e p s i l o n1", "X1 -> b12 X1|epsilon", "B → e|SB"] = .ok nearlyEpsilon := by
    decide +kernel
  have hother : ∀ r ∈ nearlyEpsilon.productions.toList,
      (∀ s ∈ r.body, s.text.length = 1) → ¬ epsilonBody <+: r.body := by
    decide +kernel
  exact ⟨hread, hother, read_definition hread hother⟩

end Grammar

end NormalGrammar
