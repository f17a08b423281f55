import Mathlib.Data.List.Nodup
import NormalGrammar.Grammar.Validation
import NormalGrammar.Proofs.Chain
import NormalGrammar.Proofs.NewNames

/-!
# Words after binarization

Binarization gives every rule names of its own, all different and none of them declared before, and replaces the rule
by the chain with these names (`binarize_splits`).  With the inner links read as what they stand for, the new rules are
closed, so no declared nonterminal gains a word (`Splits.generates`), and none loses one (`Splits.generates_of`).
-/

namespace NormalGrammar

open Chain

/-! ### The names that are drawn -/

namespace Draft

/-- A chain draws a name for every symbol but the last two. -/
theorem chainLinks_eq (A : Nonterminal) (w : Body) (d : Draft) : ∃ Xs : List Nonterminal,
    Xs.length = w.length - 2 ∧ (chainLinks A w d).1 = linksWith Xs A w ∧ d.Adds Xs (chainLinks A w d).2 := by
  induction w generalizing A d with
  | nil => exact ⟨[], rfl, rfl, .refl d⟩
  | cons s w ih =>
    rcases w with _ | ⟨t, _ | ⟨u, w⟩⟩
    · exact ⟨[], rfl, rfl, .refl d⟩
    · exact ⟨[], rfl, rfl, .refl d⟩
    · obtain ⟨Xs, hlen, hlinks, hadds⟩ := ih d.newNonterminal.1 d.newNonterminal.2
      refine ⟨d.newNonterminal.1 :: Xs, ?_, ?_, ?_⟩
      · simp only [List.length_cons] at hlen ⊢
        omega
      · simp only [chainLinks, linksWith, hlinks]
      · exact (adds_newNonterminal d).trans hadds

/-- The chains of different rules draw different names. -/
theorem chains_eq (rules : List (Rule Body)) (hrules : rules.Nodup) (d : Draft) :
    ∃ names : Rule Body → List Nonterminal, (∀ r ∈ rules, (names r).length = r.body.length - 2) ∧
      (chains rules d).1.flatMap Chain.links = rules.flatMap (fun r => linksWith (names r) r.owner r.body) ∧
      d.Adds (rules.flatMap names) (chains rules d).2 := by
  induction rules generalizing d with
  | nil => exact ⟨fun _ => [], by simp, rfl, .refl d⟩
  | cons r rules ih =>
    rw [List.nodup_cons] at hrules
    -- `r` is not repeated, so its names can be set apart from those of the other rules.
    obtain ⟨Xs, hlen, hlinks, hadds⟩ := chainLinks_eq r.owner r.body d
    obtain ⟨names, hlens, hchains, hrest⟩ := ih hrules.2 (chainLinks r.owner r.body d).2
    have hne : ∀ q ∈ rules, q ≠ r := fun q hq e => hrules.1 (e ▸ hq)
    have hnames : rules.flatMap (fun q => if q = r then Xs else names q) = rules.flatMap names :=
      List.flatMap_congr fun q hq => if_neg (hne q hq)
    refine ⟨fun q => if q = r then Xs else names q, ?_, ?_, ?_⟩
    · intro q hq
      rcases List.mem_cons.1 hq with rfl | hq
      · simpa using hlen
      · simpa [hne q hq] using hlens q hq
    · have htail : rules.flatMap (fun q => linksWith (if q = r then Xs else names q) q.owner q.body) =
          rules.flatMap (fun q => linksWith (names q) q.owner q.body) :=
        List.flatMap_congr fun q hq => by rw [if_neg (hne q hq)]
      simp only [chains, List.flatMap_cons, ↓reduceIte, hlinks, hchains, htail]
    · simp only [List.flatMap_cons, ↓reduceIte, hnames]
      exact hadds.trans hrest

end Draft

/-! ### What binarization does -/

/-- `H` has, for every rule of `G`, the chain whose inner links have the given names.  All names are different and
none was declared by `G`. -/
structure Splits (G : Grammar) (names : Rule Body → List Nonterminal) (H : Grammar) : Prop where
  start : H.start = G.start
  terminals : H.terminals = G.terminals
  nonterminals : ∀ A, A ∈ H.nonterminals ↔ A ∈ G.nonterminals ∨ ∃ r ∈ G.productions, A ∈ names r
  productions : ∀ q, q ∈ H.productions ↔ ∃ r ∈ G.productions, q ∈ linksWith (names r) r.owner r.body
  length : ∀ r ∈ G.productions, (names r).length = r.body.length - 2
  nodup : ∀ r ∈ G.productions, (names r).Nodup
  disjoint : ∀ r ∈ G.productions, ∀ q ∈ G.productions, ∀ X, X ∈ names r → X ∈ names q → r = q
  fresh : ∀ r ∈ G.productions, ∀ X ∈ names r, ¬ X ∈ G.nonterminals
  notTerminal : ∀ r ∈ G.productions, ∀ X ∈ names r, ¬ ⟨X.name⟩ ∈ G.terminals

private theorem eq_of_mem_flatMap {names : Rule Body → List Nonterminal} {rules : List (Rule Body)}
    (h : (rules.flatMap names).Nodup) {r q : Rule Body} (hr : r ∈ rules) (hq : q ∈ rules) {X : Nonterminal}
    (hXr : X ∈ names r) (hXq : X ∈ names q) : r = q := by
  induction rules with
  | nil => simp at hr
  | cons p rules ih =>
    rw [List.flatMap_cons, List.nodup_append] at h
    have hne : ∀ Y ∈ names p, ∀ q ∈ rules, Y ∉ names q :=
      fun Y hY q hq hYq => h.2.2 Y hY Y (List.mem_flatMap.2 ⟨q, hq, hYq⟩) rfl
    rcases List.mem_cons.1 hr with hr' | hr' <;> rcases List.mem_cons.1 hq with hq' | hq'
    · rw [hr', hq']
    · rw [hr'] at hXr
      exact absurd hXq (hne X hXr q hq')
    · rw [hq'] at hXq
      exact absurd hXr (hne X hXq r hr')
    · exact ih h.2.1 hr' hq'

theorem Draft.binarize_eq (d : Draft) : d.binarize =
    (chains d.grammar.rules d).2.withProductions ((chains d.grammar.rules d).1.flatMap Chain.links) := rfl

/-- Besides, the names are declared behind all others and the chains stand in the order of the rules. -/
theorem binarize_ordered (d : Draft) : ∃ names, Splits d.grammar names d.binarize.grammar ∧
    d.binarize.grammar.nonterminals.toList = d.grammar.nonterminals.toList ++ d.grammar.rules.flatMap names ∧
    d.binarize.grammar.productions = .ofList (d.grammar.rules.flatMap fun r => linksWith (names r) r.owner r.body) := by
  have hrules : d.grammar.rules.Nodup := d.grammar.productions.arranged.nodup
  obtain ⟨names, hlens, hchains, hadds⟩ := Draft.chains_eq d.grammar.rules hrules d
  have hnodup := hadds.nodup
  have hmem : ∀ {r : Rule Body} {X : Nonterminal}, r ∈ d.grammar.productions → X ∈ names r →
      X ∈ d.grammar.rules.flatMap names :=
    fun hr hX => List.mem_flatMap.2 ⟨_, Grammar.mem_rules.2 hr, hX⟩
  refine ⟨names, ?_⟩
  rw [Draft.binarize_eq, hchains]
  generalize (Draft.chains d.grammar.rules d).2 = e at hadds
  refine ⟨?_, hadds.nonterminals, rfl⟩
  exact {
    start := hadds.start
    terminals := hadds.terminals
    nonterminals := by
      intro A
      rw [Draft.withProductions_nonterminals, hadds.mem_nonterminals, List.mem_flatMap]
      simp only [Grammar.mem_rules]
    productions := by
      intro q
      rw [Draft.mem_withProductions, List.mem_flatMap]
      simp only [Grammar.mem_rules]
    length := fun r hr => hlens r (Grammar.mem_rules.2 hr)
    nodup := fun r hr => (List.nodup_flatMap.1 hnodup).1 r (Grammar.mem_rules.2 hr)
    disjoint := fun r hr q hq X => eq_of_mem_flatMap hnodup (Grammar.mem_rules.2 hr) (Grammar.mem_rules.2 hq)
    fresh := fun r hr X hX => hadds.fresh (hmem hr hX)
    notTerminal := fun r hr X hX => hadds.notTerminal X (hmem hr hX) }

theorem binarize_splits (d : Draft) : ∃ names, Splits d.grammar names d.binarize.grammar := by
  obtain ⟨names, hsplits, -⟩ := binarize_ordered d
  exact ⟨names, hsplits⟩

namespace Splits

variable {G H : Grammar} {names : Rule Body → List Nonterminal}

theorem length_le (h : Splits G names H) {r : Rule Body} (hr : r ∈ G.productions) :
    (names r).length ≤ r.body.length := by
  rw [h.length r hr]
  exact Nat.sub_le _ _

/-- No name is drawn twice. -/
theorem nodup_names (h : Splits G names H) {rules : List (Rule Body)} (hrules : rules.Nodup)
    (hmem : ∀ r ∈ rules, r ∈ G.productions) : (rules.flatMap names).Nodup := by
  rw [List.nodup_flatMap]
  refine ⟨fun r hr => h.nodup r (hmem r hr), ?_⟩
  refine (List.nodup_iff_pairwise_ne.1 hrules).imp_of_mem fun {r q} hr hq hne X hX hX' => hne ?_
  exact h.disjoint r (hmem r hr) q (hmem q hq) X hX hX'

theorem links_mem (h : Splits G names H) {r : Rule Body} (hr : r ∈ G.productions) :
    ∀ q ∈ linksWith (names r) r.owner r.body, q ∈ H.productions :=
  fun q hq => (h.productions q).2 ⟨r, hr, hq⟩

/-! ### Words -/

/-- No word is lost. -/
theorem generates_of (h : Splits G names H) {A : Nonterminal} {x : Word} (hx : G.Generates A x) : H.Generates A x :=
  hx.interpret fun _ hr _ hread => Grammar.generates_of_linksWith (h.length_le hr) (h.links_mem hr) hread

/-- Nor is a word that is derived without an empty body. -/
theorem generates_withoutEmptyBodies_of (h : Splits G names H) {A : Nonterminal} {x : Word}
    (hx : G.withoutEmptyBodies.Generates A x) : H.withoutEmptyBodies.Generates A x := by
  refine hx.interpret fun r hr y hread => ?_
  obtain ⟨hrule, hne⟩ := Grammar.mem_withoutEmptyBodies.1 hr
  refine Grammar.generates_of_linksWith (h.length_le hrule) (fun q hq => ?_) hread
  refine Grammar.mem_withoutEmptyBodies.2 ⟨h.links_mem hrule q hq, fun e => ?_⟩
  rcases length_linksWith (h.length r hrule) hq with hlen | ⟨rfl, -⟩
  · simp [e] at hlen
  · exact hne e

/-- What the nonterminals of `H` stand for: those of `G` for their words, an inner link for its remainder. -/
private def meaning (G : Grammar) (names : Rule Body → List Nonterminal) : Interpretation := fun A x =>
  (A ∈ G.nonterminals → G.Generates A x) ∧
    ∀ r ∈ G.productions, ∀ v, (A, v) ∈ remainders (names r) r.body → Reads G.Generates v x

private theorem meaning_of_generates (h : Splits G names H) {A : Nonterminal} (hA : A ∈ G.nonterminals) {x : Word}
    (hx : G.Generates A x) : meaning G names A x :=
  ⟨fun _ => hx, fun r hr _ hv => absurd hA (h.fresh r hr A (mem_of_mem_remainders hv))⟩

private theorem meaning_inner (h : Splits G names H) {r : Rule Body} (hr : r ∈ G.productions) {X : Nonterminal}
    {v : Body} (hX : (X, v) ∈ remainders (names r) r.body) {x : Word} :
    meaning G names X x ↔ Reads G.Generates v x := by
  have hmem := mem_of_mem_remainders hX
  constructor
  · intro hx
    exact hx.2 r hr v hX
  · intro hx
    refine ⟨fun hA => absurd hA (h.fresh r hr X hmem), fun q hq u hu => ?_⟩
    obtain rfl := h.disjoint r hr q hq X hmem (mem_of_mem_remainders hu)
    rwa [remainders_unique (h.nodup r hr) hu hX]

/-- No declared nonterminal gains a word. -/
theorem generates (h : Splits G names H) (hG : G.Valid) {A : Nonterminal} (hA : A ∈ G.nonterminals) {x : Word}
    (hx : H.Generates A x) : G.Generates A x := by
  have hmeaning : meaning G names A x := by
    refine hx.interpret fun q hq y hy => ?_
    obtain ⟨r, hr, hlink⟩ := (h.productions q).1 hq
    refine Grammar.closed_linksWith (fun B hB z hz => hz.1 (hG.body r hr _ hB)) (fun z hz => ?_)
      (fun X v hX z => h.meaning_inner hr hX) hlink hy
    exact h.meaning_of_generates (hG.owner r hr) (.of_rule hr hz)
  exact hmeaning.1 hA

end Splits

end NormalGrammar
