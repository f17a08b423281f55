import Mathlib.Data.List.Count
import Mathlib.Logic.Function.Iterate
import NormalGrammar.Proofs.Arrangement
import NormalGrammar.Proofs.StageSequence

/-!
# Contracting chains

Binarization can be taken back.  Every name that it draws owns one link and stands at the end of one other
(`Splits.bodies_eq`, `Splits.count_eq_one`), for no two chains share a link (`Splits.nodup_links`).  So replacing these
names by their bodies contracts every chain to the body that it was made from (`iterate_contract_firstBody`), and the
rules of the declared nonterminals are found again in their old order (`contracted_eq`).
-/

namespace NormalGrammar

open Chain

/-! ### Replacing names by their bodies -/

namespace Grammar

variable {G : Grammar} {kept : OrderedSet Nonterminal}

/-- A nonterminal that is not kept is replaced by its body. -/
def contractSymbol (G : Grammar) (kept : OrderedSet Nonterminal) : Symbol → Body
  | .terminal t => [.terminal t]
  | .nonterminal A => if A ∈ kept then [.nonterminal A] else (G.bodies A).toList.flatten

def contract (G : Grammar) (kept : OrderedSet Nonterminal) (w : Body) : Body := w.flatMap (G.contractSymbol kept)

/-- The rules of the nonterminals that are kept, with the others replaced by their bodies `n` times over. -/
def contracted (G : Grammar) (kept : OrderedSet Nonterminal) (n : Nat) : List (Rule Body) :=
  (G.rules.filter fun r => decide (r.owner ∈ kept)).map fun r => ⟨r.owner, (G.contract kept)^[n] r.body⟩

/-- The symbol is left alone. -/
def Keeps (kept : OrderedSet Nonterminal) (s : Symbol) : Prop := ∀ A, s = .nonterminal A → A ∈ kept

theorem contractSymbol_of_keeps {s : Symbol} (h : Keeps kept s) : G.contractSymbol kept s = [s] := by
  cases s with
  | terminal t => rfl
  | nonterminal A => exact if_pos (h A rfl)

theorem contract_cons_of_keeps {s : Symbol} (h : Keeps kept s) (w : Body) :
    G.contract kept (s :: w) = s :: G.contract kept w := by
  unfold contract
  rw [List.flatMap_cons, contractSymbol_of_keeps h]
  rfl

theorem contract_eq_self {w : Body} (h : ∀ s ∈ w, Keeps kept s) : G.contract kept w = w := by
  induction w with
  | nil => rfl
  | cons s w ih =>
    rw [List.forall_mem_cons] at h
    rw [contract_cons_of_keeps h.1, ih h.2]

theorem iterate_contract_cons {s : Symbol} (h : Keeps kept s) (n : Nat) (w : Body) :
    (G.contract kept)^[n] (s :: w) = s :: (G.contract kept)^[n] w := by
  induction n generalizing w with
  | zero => rfl
  | succ n ih => rw [Function.iterate_succ_apply, Function.iterate_succ_apply, contract_cons_of_keeps h, ih]

/-- The first link of a chain is contracted to the whole body by a round for every name, and further rounds change
nothing. -/
theorem iterate_contract_firstBody {Xs : List Nonterminal} {w : Body} (hlen : Xs.length ≤ w.length)
    (hw : ∀ s ∈ w, Keeps kept s) (hXs : ∀ X ∈ Xs, ¬ X ∈ kept)
    (hbodies : ∀ q ∈ innerLinks Xs w, (G.bodies q.owner).toList = [q.body]) {n : Nat} (hn : Xs.length ≤ n) :
    (G.contract kept)^[n] (firstBody Xs w) = w := by
  induction Xs generalizing w n with
  | nil => exact Function.iterate_fixed (contract_eq_self hw) n
  | cons X Xs ih =>
    cases w with
    | nil => simp at hlen
    | cons s w =>
      obtain ⟨n, rfl⟩ := Nat.exists_eq_add_one_of_ne_zero (Nat.ne_zero_of_lt hn)
      rw [List.forall_mem_cons] at hw hXs
      have hlinks : innerLinks (X :: Xs) (s :: w) = ⟨X, firstBody Xs w⟩ :: innerLinks Xs w := linksWith_eq Xs X w
      rw [hlinks, List.forall_mem_cons] at hbodies
      -- The name at the end of the first link gives way to what the next link holds.
      have hround : G.contract kept [s, .nonterminal X] = s :: firstBody Xs w := by
        rw [contract_cons_of_keeps hw.1]
        simp [contract, contractSymbol, hXs.1, hbodies.1]
      rw [Function.iterate_succ_apply]
      show (G.contract kept)^[n] (G.contract kept [s, .nonterminal X]) = s :: w
      rw [hround, iterate_contract_cons hw.1,
        ih (Nat.le_of_succ_le_succ hlen) hw.2 hXs.2 hbodies.2 (Nat.le_of_succ_le_succ hn)]

end Grammar

/-! ### The chains of different rules -/

namespace Splits

variable {G H : Grammar} {names : Rule Body → List Nonterminal}

theorem ne_owner (h : Splits G names H) (hG : G.Valid) {r q : Rule Body} (hr : r ∈ G.productions)
    (hq : q ∈ G.productions) {X : Nonterminal} (hX : X ∈ names r) : X ≠ q.owner := by
  rintro rfl
  exact h.fresh r hr _ hX (hG.owner q hq)

theorem not_mem_body (h : Splits G names H) (hG : G.Valid) {r q : Rule Body} (hr : r ∈ G.productions)
    (hq : q ∈ G.productions) {X : Nonterminal} (hX : X ∈ names r) : .nonterminal X ∉ q.body :=
  fun hmem => h.fresh r hr X hX (hG.body q hq _ hmem)

/-- A name that is met in a chain was drawn for it. -/
private theorem mem_names_of_link (h : Splits G names H) (hG : G.Valid) {r q p : Rule Body} (hr : r ∈ G.productions)
    (hq : q ∈ G.productions) {X : Nonterminal} (hX : X ∈ names r) (hp : p ∈ linksWith (names q) q.owner q.body)
    (hmet : X = p.owner ∨ .nonterminal X ∈ p.body) : X ∈ names q := by
  rcases hmet with rfl | hmem
  · exact (owner_of_mem_linksWith hp).resolve_left (h.ne_owner hG hr hq hX)
  · obtain ⟨Y, hY, e⟩ := (symbol_of_mem_linksWith hp hmem).resolve_left (h.not_mem_body hG hr hq hX)
    cases e
    exact hY

/-- No two chains share a link. -/
theorem link_unique (h : Splits G names H) (hG : G.Valid) {r q p : Rule Body} (hr : r ∈ G.productions)
    (hq : q ∈ G.productions) (hpr : p ∈ linksWith (names r) r.owner r.body)
    (hpq : p ∈ linksWith (names q) q.owner q.body) : r = q := by
  rcases exists_inner_of_mem_linksWith (h.length_le hr) hpr with er | ⟨X, hX, hmet⟩
  · rcases exists_inner_of_mem_linksWith (h.length_le hq) hpq with eq | ⟨X, hX, hmet⟩
    · exact er.symm.trans eq
    · exact h.disjoint r hr q hq X (h.mem_names_of_link hG hq hr hX hpr hmet) hX
  · exact h.disjoint r hr q hq X hX (h.mem_names_of_link hG hr hq hX hpq hmet)

theorem nodup_links (h : Splits G names H) (hG : G.Valid) :
    (G.rules.flatMap fun r => linksWith (names r) r.owner r.body).Nodup := by
  rw [List.nodup_flatMap]
  constructor
  · intro r hr
    rw [Grammar.mem_rules] at hr
    apply List.Nodup.of_map Rule.owner
    rw [owners_linksWith (h.length_le hr), List.nodup_cons]
    exact ⟨fun hmem => h.fresh r hr _ hmem (hG.owner r hr), h.nodup r hr⟩
  · have hrules : G.rules.Nodup := G.productions.arranged.nodup
    refine (List.nodup_iff_pairwise_ne.1 hrules).imp_of_mem fun {r q} hr hq hne p hpr hpq => hne ?_
    exact h.link_unique hG (Grammar.mem_rules.1 hr) (Grammar.mem_rules.1 hq) hpr hpq

/-! ### What becomes of a name -/

/-- What is found in every chain as often as the name was drawn for it is found once. -/
private theorem count_flatMap_eq_one {α : Type} [BEq α] (h : Splits G names H) {r : Rule Body} (hr : r ∈ G.productions)
    {X : Nonterminal} (hX : X ∈ names r) {f : Rule Body → List α} {a : α}
    (hf : ∀ q ∈ G.productions, (f q).count a = (names q).count X) : (G.rules.flatMap f).count a = 1 := by
  have hrules : G.rules.Nodup := G.productions.arranged.nodup
  have hone : (G.rules.flatMap names).count X = 1 :=
    List.count_eq_one_of_mem (h.nodup_names hrules fun _ => Grammar.mem_rules.1)
      (List.mem_flatMap.2 ⟨r, Grammar.mem_rules.2 hr, hX⟩)
  rw [List.count_flatMap] at hone ⊢
  rw [← hone]
  exact congrArg List.sum (List.map_congr_left fun q hq => hf q (Grammar.mem_rules.1 hq))

variable (hlist : H.productions.toList = G.rules.flatMap fun r => linksWith (names r) r.owner r.body)
include hlist

/-- A name owns the body of its link and no other. -/
theorem bodies_eq (h : Splits G names H) (hG : G.Valid) {r q : Rule Body} (hr : r ∈ G.productions)
    (hq : q ∈ linksWith (names r) r.owner r.body) (howner : q.owner ∈ names r) :
    (H.bodies q.owner).toList = [q.body] := by
  have hlen : (Productions.ownedBy q.owner H.productions.toList).length = 1 := by
    rw [Productions.length_ownedBy, hlist, List.map_flatMap]
    refine h.count_flatMap_eq_one hr howner fun p hp => ?_
    rw [owners_linksWith (h.length_le hp), List.count_cons_of_ne (h.ne_owner hG hr hp howner).symm]
  obtain ⟨p, hp⟩ := List.length_eq_one_iff.1 hlen
  have hmem : q ∈ Productions.ownedBy q.owner H.productions.toList :=
    List.mem_filter.2 ⟨h.links_mem hr q hq, by simp⟩
  show (Productions.ownedBy q.owner H.productions.toList).map Rule.body = [q.body]
  rw [hp, List.mem_singleton] at hmem
  rw [hp, hmem]
  rfl

/-- A name occurs once in all bodies. -/
theorem count_eq_one (h : Splits G names H) (hG : G.Valid) {r : Rule Body} (hr : r ∈ G.productions) {X : Nonterminal}
    (hX : X ∈ names r) : (H.rules.flatMap Rule.body).count (.nonterminal X) = 1 := by
  have hperm : H.rules.Perm H.productions.toList :=
    (List.perm_ext_iff_of_nodup H.productions.arranged.nodup H.productions.nodup).2 fun _ => Grammar.mem_rules
  rw [(hperm.flatMap_right Rule.body).count_eq, hlist, List.flatMap_assoc]
  refine h.count_flatMap_eq_one hr hX fun q hq => ?_
  have hbody : q.body.count (.nonterminal X) = 0 := List.count_eq_zero.2 (h.not_mem_body hG hr hq hX)
  rw [count_linksWith (h.length_le hq), hbody, Nat.zero_add]
  exact List.count_map_of_injective _ _ (fun _ _ => Symbol.nonterminal.inj) X

/-! ### Back to the rules -/

/-- The rules of the declared nonterminals are the first links, in the order of the chains. -/
theorem filter_rules_eq (h : Splits G names H) (hG : G.Valid) :
    H.rules.filter (fun r => decide (r.owner ∈ G.nonterminals)) =
      G.rules.map fun r => ⟨r.owner, firstBody (names r) r.body⟩ := by
  have hfirst : H.productions.toList.filter (fun r => decide (r.owner ∈ G.nonterminals)) =
      G.rules.map fun r => ⟨r.owner, firstBody (names r) r.body⟩ := by
    rw [hlist, List.filter_flatMap, List.map_eq_flatMap]
    refine List.flatMap_congr fun r hr => ?_
    rw [Grammar.mem_rules] at hr
    have hinner : (innerLinks (names r) r.body).filter (fun r => decide (r.owner ∈ G.nonterminals)) = [] :=
      List.filter_eq_nil_iff.2 fun q hq => by simpa using h.fresh r hr _ (owner_of_mem_innerLinks hq)
    rw [linksWith_eq, List.filter_cons_of_pos (by simpa using hG.owner r hr), hinner]
  have hgrouped : Productions.Grouped (G.rules.map fun r => (⟨r.owner, firstBody (names r) r.body⟩ : Rule Body)) :=
    (Productions.grouped_rules G.productions).map (f := fun r => ⟨r.owner, firstBody (names r) r.body⟩) fun _ => rfl
  rw [← hfirst] at hgrouped
  show H.productions.rules.filter _ = _
  rw [← Productions.rules_filter_owner H.productions fun A => decide (A ∈ G.nonterminals)]
  exact (Productions.rules_eq_of_grouped hgrouped).trans hfirst

/-- Once every name is replaced, the rules are those from which the chains were made. -/
theorem contracted_eq (h : Splits G names H) (hG : G.Valid) {n : Nat} (hn : ∀ r ∈ G.productions, (names r).length ≤ n) :
    H.contracted G.nonterminals n = G.rules := by
  unfold Grammar.contracted
  rw [h.filter_rules_eq hlist hG, List.map_map]
  refine (List.map_congr_left fun r hr => ?_).trans (List.map_id _)
  rw [Grammar.mem_rules] at hr
  have hbody : (H.contract G.nonterminals)^[n] (firstBody (names r) r.body) = r.body := by
    refine Grammar.iterate_contract_firstBody (h.length_le hr) (fun s hs A e => ?_) (h.fresh r hr) (fun q hq => ?_)
      (hn r hr)
    · exact hG.body r hr (.nonterminal A) (e ▸ hs)
    · have hlink : q ∈ linksWith (names r) r.owner r.body := by
        rw [linksWith_eq]
        exact List.mem_cons_of_mem _ hq
      exact h.bodies_eq hlist hG hr hlink (owner_of_mem_innerLinks hq)
  simp only [Function.comp_apply, hbody, id]

end Splits

namespace Grammar

variable {G : Grammar}

/-- Binarization leaves no body of more than two symbols, keeps the words of every declared nonterminal, and declares
new ones behind the others, whatever number its names start from.  None of the new ones has a name that was declared,
each owns one body and occurs once in all bodies.  Replacing them by their bodies, as often as there are new ones at the
most, gives back the rules in their old order. -/
theorem binarize_contracted (G : Grammar) (names : FreshNames) (h : G.validate = .ok ()) : ∃ H Xs,
    (Draft.binarize ⟨G, names⟩).grammar = H ∧ H.nonterminals.toList = G.nonterminals.toList ++ Xs ∧
      (∀ r ∈ H.productions, r.body.length ≤ 2) ∧
      (∀ A ∈ G.nonterminals, ∀ x, H.Generates A x ↔ G.Generates A x) ∧
      (∀ X ∈ Xs, ¬ G.declares X.name ∧ (H.bodies X).size = 1 ∧
        (H.rules.flatMap Rule.body).count (.nonterminal X) = 1) ∧
      ∀ n, Xs.length ≤ n → H.contracted G.nonterminals n = G.rules := by
  have hG := validate_eq_ok.1 h
  obtain ⟨drawn, hsplits, hnonterminals, hproductions⟩ := binarize_ordered ⟨G, names⟩
  have hlist := (congrArg OrderedSet.toList hproductions).trans (OrderedSet.toList_ofList (hsplits.nodup_links hG))
  refine ⟨_, G.rules.flatMap drawn, rfl, hnonterminals, fun r hr => ?_, fun A hA x => ?_, fun X hX => ?_,
    fun n hn => ?_⟩
  · obtain ⟨q, hq, hlink⟩ := (hsplits.productions r).1 hr
    rcases length_linksWith (hsplits.length q hq) hlink with hlen | ⟨rfl, hshort⟩
    · exact Nat.le_of_eq hlen
    · exact hshort
  · exact ⟨hsplits.generates hG hA, hsplits.generates_of⟩
  · obtain ⟨r, hr, hX⟩ := List.mem_flatMap.1 hX
    rw [mem_rules] at hr
    refine ⟨fun hdeclared => ?_, ?_, hsplits.count_eq_one hlist hG hr hX⟩
    · rcases declares_iff.1 hdeclared with hA | ht
      · exact hsplits.fresh r hr X hX hA
      · exact hsplits.notTerminal r hr X hX ht
    · have howners : X ∈ (linksWith (drawn r) r.owner r.body).map Rule.owner := by
        rw [owners_linksWith (hsplits.length_le hr)]
        exact List.mem_cons_of_mem _ hX
      obtain ⟨q, hq, rfl⟩ := List.mem_map.1 howners
      exact congrArg List.length (hsplits.bodies_eq hlist hG hr hq hX)
  · refine hsplits.contracted_eq hlist hG fun r hr => Nat.le_trans ?_ hn
    obtain ⟨front, back, e⟩ := List.append_of_mem (mem_rules.2 hr)
    rw [e, List.flatMap_append, List.flatMap_cons, List.length_append, List.length_append]
    omega

/-- `X1` is in use, so that the chain of `S → a X1 T_a b` starts with `X2`. -/
theorem binarize_contracted_crowded : crowded.validate = .ok () ∧ ∃ H Xs,
    (Draft.binarize ⟨crowded, ⟨1⟩⟩).grammar = H ∧ H.nonterminals.toList = crowded.nonterminals.toList ++ Xs ∧
      (∀ r ∈ H.productions, r.body.length ≤ 2) ∧
      (∀ A ∈ crowded.nonterminals, ∀ x, H.Generates A x ↔ crowded.Generates A x) ∧
      (∀ X ∈ Xs, ¬ crowded.declares X.name ∧ (H.bodies X).size = 1 ∧
        (H.rules.flatMap Rule.body).count (.nonterminal X) = 1) ∧
      ∀ n, Xs.length ≤ n → H.contracted crowded.nonterminals n = crowded.rules := by
  have hvalid : crowded.validate = .ok () := by decide
  exact ⟨hvalid, binarize_contracted crowded ⟨1⟩ hvalid⟩

end Grammar

end NormalGrammar
