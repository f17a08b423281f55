import NormalGrammar.Proofs.Construction
import NormalGrammar.Proofs.PrintedBodies
import NormalGrammar.Proofs.Shape

/-!
# Reading a printed result

The symbols of a grammar that was read are legible, and so are the numbered names that binarization draws
(`legible_numbered`).  The proxies that isolation draws are not: behind the `T` of a name such as `T_a` stands an
underscore, at which reading stops (`read_text_of_proxy`).  No other names are drawn for a grammar that was read
(`declares_result`), so a body of its result is read back if and only if it has no proxy, and all bodies are if and only
if no terminal had to be isolated (`read_text_of_result`).
-/

namespace NormalGrammar

open Notation

/-! ### Names that are drawn -/

namespace Name

theorem numbered_eq (n : Nat) : numbered n = .ofChars 'X' n.repr.toList := by
  have hchars : (numbered n).text.toList = 'X' :: n.repr.toList := String.toList_append
  apply eq_of_text
  rw [← String.toList_inj, hchars]
  exact String.toList_ofList.symm

theorem toList_proxy (t : Terminal) : (proxy t).text.toList = 'T' :: '_' :: t.text.toList := String.toList_append

theorem proxy_injective {t u : Terminal} (h : proxy t = proxy u) : t = u := by
  have htext : "T_" ++ t.name.text = "T_" ++ u.name.text := congrArg Name.text h
  have hname : t.name = u.name := eq_of_text ((String.append_right_inj _).1 htext)
  cases t
  cases u
  exact congrArg Terminal.mk hname

end Name

theorem Notation.legible_numbered (n : Nat) : Legible (.nonterminal ⟨.numbered n⟩) := by
  have hdigits : NameTail n.repr.toList := fun c hc => Or.inl (Name.isDigit_of_mem_repr hc)
  rw [Name.numbered_eq]
  exact legible_of_symbolText (SymbolText.nonterminal (by decide) hdigits)

/-- An underscore is no part of a written name. -/
theorem Notation.not_legible_proxy {s : Symbol} {t : Terminal} (hname : s.name = .proxy t) : ¬ Legible s := by
  intro h
  obtain ⟨c, tail, htext, -, htail, -⟩ := Scan.symbolText_iff.1 h
  have hchars : s.text.toList = 'T' :: '_' :: t.text.toList := by
    rw [Symbol.text, hname]
    exact Name.toList_proxy t
  obtain ⟨-, rfl⟩ := List.cons.inj (htext.symm.trans hchars)
  rcases htail '_' List.mem_cons_self with hdigit | hprime
  · revert hdigit
    decide
  · cases hprime

namespace Draft

/-- The links of a chain are owned by numbered names. -/
theorem mem_chainLinks_nonterminals {A B : Nonterminal} {w : Body} {d : Draft}
    (hB : B ∈ (chainLinks A w d).2.grammar.nonterminals) :
    B ∈ d.grammar.nonterminals ∨ ∃ n, B = ⟨.numbered n⟩ := by
  induction w generalizing A d with
  | nil => exact Or.inl hB
  | cons s w ih =>
    rcases w with _ | ⟨t, _ | ⟨u, w⟩⟩
    · exact Or.inl hB
    · exact Or.inl hB
    · rcases ih hB with hB | hB
      · rcases (adds_newNonterminal d).mem_nonterminals.1 hB with hB | hB
        · exact Or.inl hB
        · exact Or.inr ⟨_, List.mem_singleton.1 hB⟩
      · exact Or.inr hB

theorem mem_chains_nonterminals {B : Nonterminal} {rules : List (Rule Body)} {d : Draft}
    (hB : B ∈ (chains rules d).2.grammar.nonterminals) :
    B ∈ d.grammar.nonterminals ∨ ∃ n, B = ⟨.numbered n⟩ := by
  induction rules generalizing d with
  | nil => exact Or.inl hB
  | cons r rules ih =>
    rcases ih hB with hB | hB
    · exact mem_chainLinks_nonterminals hB
    · exact Or.inr hB

/-- Binarization declares numbered names only. -/
theorem mem_binarize_nonterminals {B : Nonterminal} {d : Draft} (hB : B ∈ d.binarize.grammar.nonterminals) :
    B ∈ d.grammar.nonterminals ∨ ∃ n, B = ⟨.numbered n⟩ :=
  mem_chains_nonterminals hB

theorem newProxy_eq {t : Terminal} {d : Draft} (h : ¬ d.grammar.declares (.proxy t)) :
    (d.newProxy t).1 = ⟨.proxy t⟩ := by
  simp only [newProxy, FreshNames.drawProxy, if_neg h]

/-- A terminal whose proxy is not taken gets it. -/
theorem mem_proxies_nonterminals {B : Nonterminal} {ts : List Terminal} (hts : ts.Nodup) {d : Draft}
    (hfree : ∀ t ∈ ts, ¬ d.grammar.declares (.proxy t)) (hB : B ∈ (proxies ts d).2.grammar.nonterminals) :
    B ∈ d.grammar.nonterminals ∨ ∃ t, B = ⟨.proxy t⟩ := by
  induction ts generalizing d with
  | nil => exact Or.inl hB
  | cons t ts ih =>
    rw [List.nodup_cons] at hts
    rw [List.forall_mem_cons] at hfree
    have hadds := adds_newProxy d t
    rw [newProxy_eq hfree.1] at hadds
    -- The proxies of the other terminals are still free.
    have hrest : ∀ u ∈ ts, ¬ (d.newProxy t).2.grammar.declares (.proxy u) := by
      intro u hu hdeclares
      rw [Grammar.declares_iff, hadds.mem_nonterminals, hadds.terminals] at hdeclares
      rcases hdeclares with (hold | hnew) | hterminal
      · exact hfree.2 u hu (Grammar.declares_iff.2 (Or.inl hold))
      · have hname := Nonterminal.mk.inj (List.mem_singleton.1 hnew)
        exact hts.1 (Name.proxy_injective hname ▸ hu)
      · exact hfree.2 u hu (Grammar.declares_iff.2 (Or.inr hterminal))
    rcases ih hts.2 hrest hB with hB | hB
    · rcases hadds.mem_nonterminals.1 hB with hB | hB
      · exact Or.inl hB
      · exact Or.inr ⟨t, List.mem_singleton.1 hB⟩
    · exact Or.inr hB

end Draft

/-! ### Names of a result -/

/-- The terminals that are to be isolated after splitting are those of the longer bodies. -/
theorem Splits.mem_pairedTerminals {G H : Grammar} {names : Rule Body → List Nonterminal} (h : Splits G names H)
    {t : Terminal} : t ∈ H.pairedTerminals ↔ ∃ r ∈ G.productions, 2 ≤ r.body.length ∧ .terminal t ∈ r.body := by
  rw [Grammar.mem_pairedTerminals]
  constructor
  · rintro ⟨q, hq, hlen, ht⟩
    obtain ⟨r, hr, hlink⟩ := (h.productions q).1 hq
    refine ⟨r, hr, ?_, ?_⟩
    · by_contra hshort
      have hnone : names r = [] := List.eq_nil_of_length_eq_zero (by rw [h.length r hr]; omega)
      rw [hnone, Chain.linksWith, List.mem_singleton] at hlink
      rw [hlink] at hlen
      exact hshort (Nat.le_of_eq hlen.symm)
    · rcases Chain.symbol_of_mem_linksWith hlink ht with ht | ⟨X, -, e⟩
      · exact ht
      · cases e
  · rintro ⟨r, hr, hlong, ht⟩
    have hlinks : ∃ q ∈ Chain.linksWith (names r) r.owner r.body, .terminal t ∈ q.body := Chain.exists_link ht
    obtain ⟨q, hq, ht⟩ := hlinks
    refine ⟨q, h.links_mem hr q hq, ?_, ht⟩
    rcases Chain.length_linksWith (h.length r hr) hq with hlen | ⟨rfl, hshort⟩
    · exact hlen
    · exact Nat.le_antisymm hshort hlong

namespace Grammar

variable {G : Grammar}

theorem legible_of_binarize (hG : ∀ s, G.DeclaresSymbol s → Legible s) {s : Symbol}
    (hs : (Draft.binarize ⟨G.pruned, {}⟩).grammar.DeclaresSymbol s) : Legible s := by
  cases s with
  | terminal t =>
    obtain ⟨names, hsplits⟩ := binarize_splits ⟨G.pruned, {}⟩
    have ht : t ∈ (Draft.binarize ⟨G.pruned, {}⟩).grammar.terminals := hs
    rw [hsplits.terminals] at ht
    exact hG _ (declares_of_pruned ht)
  | nonterminal A =>
    rcases Draft.mem_binarize_nonterminals hs with hA | ⟨n, rfl⟩
    · exact hG _ (declares_of_pruned hA)
    · exact legible_numbered n

/-- The proxies of isolation are free where everything is legible. -/
theorem mem_isolate_nonterminals {d : Draft} (hd : ∀ s, d.grammar.DeclaresSymbol s → Legible s) {A : Nonterminal}
    (hA : A ∈ d.isolate.grammar.nonterminals) : A ∈ d.grammar.nonterminals ∨ ∃ t, A = ⟨.proxy t⟩ := by
  refine Draft.mem_proxies_nonterminals d.grammar.pairedTerminals.nodup (fun t _ hdeclares => ?_) hA
  rcases declares_iff.1 hdeclares with hB | ht
  · exact not_legible_proxy rfl (hd (.nonterminal ⟨.proxy t⟩) hB)
  · exact not_legible_proxy rfl (hd (.terminal ⟨.proxy t⟩) ht)

/-- What a result declares is legible unless it is a proxy. -/
theorem declares_result (hG : ∀ s, G.DeclaresSymbol s → Legible s) {s : Symbol}
    (hs : G.passThrough.result.DeclaresSymbol s) : Legible s ∨ ∃ t, s = .nonterminal ⟨.proxy t⟩ := by
  rw [passThrough_result] at hs
  cases s with
  | terminal t =>
    obtain ⟨proxy, hisolates⟩ := isolate_isolates (Draft.binarize ⟨G.pruned, {}⟩)
    have ht : t ∈ (Draft.binarize ⟨G.pruned, {}⟩).isolate.grammar.terminals := hs
    rw [hisolates.terminals] at ht
    exact Or.inl (legible_of_binarize hG ht)
  | nonterminal A =>
    rcases mem_isolate_nonterminals (fun _ hu => legible_of_binarize hG hu) hs with hA | ⟨t, rfl⟩
    · exact Or.inl (legible_of_binarize hG hA)
    · exact Or.inr ⟨t, rfl⟩

end Grammar

/-! ### Reading bodies of a result -/

namespace Notation

/-- Names with spaces between them, up to the name of `s`. -/
private theorem intercalate_append (v w : Body) (s : Symbol) :
    ∃ rest, [' '].intercalate ((v ++ s :: w).map fun u => u.text.toList) =
      (v.flatMap fun u => u.text.toList ++ [' ']) ++ (s.text.toList ++ rest) := by
  induction v with
  | nil =>
    cases w with
    | nil => exact ⟨[], by simp⟩
    | cons t w =>
      refine ⟨[' '] ++ [' '].intercalate ((t :: w).map fun u => u.text.toList), ?_⟩
      rw [List.nil_append, List.map_cons, List.map_cons, List.intercalate_cons_cons, List.append_assoc]
      rfl
  | cons t v ih =>
    obtain ⟨rest, hrest⟩ := ih
    refine ⟨rest, ?_⟩
    obtain ⟨u, us, hcons⟩ : ∃ u us, v ++ s :: w = u :: us := List.exists_cons_of_ne_nil (by simp)
    rw [hcons, List.map_cons] at hrest
    rw [List.cons_append, hcons, List.map_cons, List.map_cons, List.intercalate_cons_cons, hrest]
    simp only [List.flatMap_cons, List.append_assoc]

/-- What is printed up to the first letter of a proxy behind the symbols of `v`. -/
def upToProxy (v : Body) : List Char := (v.flatMap fun s => s.text.toList ++ [' ']) ++ ['T']

/-- The letter is read as a symbol of its own. -/
private theorem symbolsText_upToProxy {v : Body} (hv : ∀ s ∈ v, Legible s) :
    SymbolsText (upToProxy v) (v ++ [.nonterminal ⟨.ofChar 'T'⟩]) := by
  unfold upToProxy
  induction v with
  | nil =>
    have hT : SymbolText ['T'] (.nonterminal ⟨.ofChar 'T'⟩) :=
      .nonterminal (by decide) (fun _ h => absurd h List.not_mem_nil)
    exact .cons hT blanks_nil .nil
  | cons s v ih =>
    rw [List.forall_mem_cons] at hv
    have hcons := SymbolsText.cons hv.1 blanks_space (ih hv.2)
    simpa only [List.flatMap_cons, List.append_assoc, List.cons_append] using hcons

/-- Behind the first letter stands no letter, so this is no spelling of the empty body. -/
private theorem not_epsilon_upToProxy {v : Body} (hv : ∀ s ∈ v, Legible s) : ¬ epsilonLetters <+: upToProxy v := by
  unfold upToProxy
  intro h
  cases v with
  | nil =>
    revert h
    decide
  | cons s v =>
    obtain ⟨c, tail, hname, -, htail, -⟩ := Scan.symbolText_iff.1 (hv s List.mem_cons_self)
    rw [List.flatMap_cons, hname] at h
    obtain ⟨-, h⟩ := List.cons_prefix_cons.1 h
    have hnot := not_isAlpha_of_nameTail htail
    cases tail with
    | nil =>
      obtain ⟨e, -⟩ := List.cons_prefix_cons.1 h
      cases e
    | cons d tail =>
      obtain ⟨rfl, -⟩ := List.cons_prefix_cons.1 h
      have hp := hnot 'p' List.mem_cons_self
      revert hp
      decide

end Notation

/-- Reading stops behind the first letter of a proxy. -/
theorem Body.read_text_of_proxy {v w : Body} {t : Terminal} (hv : ∀ s ∈ v, Legible s) :
    ∃ rest, Body.read (v ++ .nonterminal ⟨.proxy t⟩ :: w).text =
      .error ⟨(v ++ .nonterminal ⟨.proxy t⟩ :: w).text, '_' :: rest⟩ := by
  have hproxy : (Symbol.nonterminal ⟨.proxy t⟩).text.toList = 'T' :: '_' :: t.text.toList := Name.toList_proxy t
  have hlong : ¬ ∀ s ∈ v ++ .nonterminal ⟨.proxy t⟩ :: w, s.text.length = 1 := by
    intro h
    have hone := h (.nonterminal ⟨.proxy t⟩) (by simp)
    rw [← String.length_toList, hproxy] at hone
    simp at hone
  obtain ⟨rest, hrest⟩ := intercalate_append v w (.nonterminal ⟨.proxy t⟩)
  have hchars : (v ++ .nonterminal ⟨.proxy t⟩ :: w).text.toList =
      upToProxy v ++ '_' :: (t.text.toList ++ rest) := by
    rw [toList_text_spaced hlong, hrest, hproxy, upToProxy, List.append_assoc]
    rfl
  have hfront : BodyText (upToProxy v) (v ++ [.nonterminal ⟨.ofChar 'T'⟩]) := by
    have hbody := BodyText.symbols blanks_nil (symbolsText_upToProxy hv) (by simp) (not_epsilon_upToProxy hv) blanks_nil
    simpa using hbody
  have hstops : Scan.Stops ('_' :: (t.text.toList ++ rest)) := by
    intro c hc
    cases hc
    decide
  have hscan := Scan.body_append hfront hstops
  rw [← hchars] at hscan
  exact ⟨t.text.toList ++ rest, readAll_eq_error hscan (List.cons_ne_nil _ _)⟩

theorem Body.read_text_of_legible {w : Body} (hlen : w.length ≤ 2) (hw : ∀ s ∈ w, Legible s) :
    Body.read w.text = .ok w := by
  refine read_text_of_not_spellsEpsilon hw fun h => ?_
  have hletters := h.2.length_le
  have : epsilonBody.length = 7 := rfl
  omega

namespace Grammar

variable {G : Grammar}

/-- A body of a result is legible as a whole, or it has a proxy in front of which all is legible. -/
theorem result_body_cases (hvalid : G.Valid) (hG : ∀ s, G.DeclaresSymbol s → Legible s) {r : Rule Body}
    (hr : r ∈ G.passThrough.result.productions) :
    (r.body.length ≤ 2 ∧ ∀ s ∈ r.body, Legible s) ∨
      ∃ v t w, r.body = v ++ .nonterminal ⟨.proxy t⟩ :: w ∧ ∀ s ∈ v, Legible s := by
  have hsymbol : ∀ s ∈ r.body, Legible s ∨ ∃ t, s = .nonterminal ⟨.proxy t⟩ := fun s hs =>
    declares_result hG ((result_valid hvalid).body r hr s hs)
  rcases Rule.normal_iff.1 (result_normal hvalid r hr) with ⟨t, hbody⟩ | ⟨A, B, hbody⟩ | ⟨-, hbody⟩ <;>
    rw [hbody] at hsymbol ⊢
  · refine Or.inl ⟨by simp, fun s hs => (hsymbol s hs).resolve_right ?_⟩
    rintro ⟨u, rfl⟩
    cases List.mem_singleton.1 hs
  · simp only [List.forall_mem_cons] at hsymbol
    obtain ⟨hA, hB, -⟩ := hsymbol
    rcases hA with hA | ⟨t, hA⟩
    · rcases hB with hB | ⟨t, hB⟩
      · exact Or.inl ⟨by simp, by simp [hA, hB]⟩
      · exact Or.inr ⟨[.nonterminal A], t, [], by simp [hB], by simp [hA]⟩
    · exact Or.inr ⟨[], t, [.nonterminal B], by simp [hA], by simp⟩
  · exact Or.inl ⟨by simp, by simp⟩

/-- A proxy occurs in a result if and only if a terminal is left in a longer body before binarization. -/
theorem exists_proxy_iff (hvalid : G.Valid) (hG : ∀ s, G.DeclaresSymbol s → Legible s) :
    (∃ r ∈ G.passThrough.result.productions, ∃ t, .nonterminal ⟨.proxy t⟩ ∈ r.body) ↔
      ∃ r ∈ G.pruned.productions, 2 ≤ r.body.length ∧ ∃ t, .terminal t ∈ r.body := by
  obtain ⟨names, hsplits⟩ := binarize_splits ⟨G.pruned, {}⟩
  obtain ⟨proxy, hisolates⟩ := isolate_isolates (Draft.binarize ⟨G.pruned, {}⟩)
  rw [passThrough_result]
  constructor
  · rintro ⟨q, hq, t, ht⟩
    rcases (hisolates.productions q).1 hq with ⟨q, hlink, rfl⟩ | ⟨u, -, rfl⟩
    · rcases Proxy.mem_isolateWith ht with hmem | ⟨u, hlen, hu, -⟩
      · -- Before isolation everything is legible.
        have hdeclared := (hsplits.valid hvalid.pruned).body q hlink _ hmem
        exact absurd (legible_of_binarize hG hdeclared) (not_legible_proxy rfl)
      · obtain ⟨r, hr, hlong, hmem⟩ := hsplits.mem_pairedTerminals.1 (mem_pairedTerminals.2 ⟨q, hlink, hlen, hu⟩)
        exact ⟨r, hr, hlong, u, hmem⟩
    · cases List.mem_singleton.1 ht
  · rintro ⟨r, hr, hlong, t, ht⟩
    have hpaired := hsplits.mem_pairedTerminals.2 ⟨r, hr, hlong, ht⟩
    obtain ⟨q, hq, hlen, ht⟩ := mem_pairedTerminals.1 hpaired
    have hdeclared := (hisolates.nonterminals (proxy t)).2 (Or.inr ⟨t, hpaired, rfl⟩)
    obtain ⟨u, hu⟩ := (mem_isolate_nonterminals (fun _ hs => legible_of_binarize hG hs) hdeclared).resolve_left
      (hisolates.fresh t hpaired)
    have hmem : .nonterminal (proxy t) ∈ (Proxy.isolateWith proxy q).body := Proxy.proxy_mem_isolateWith hlen ht
    rw [hu] at hmem
    exact ⟨_, hisolates.isolated_mem hq, u, hmem⟩

/-- A body of the result for a grammar that was read is read back from its print if and only if it has no proxy.  If it
has one, reading stops at the underscore behind the first letter of the first proxy.  So all bodies are read back if and
only if before binarization no terminal is left in a body of two or more symbols. -/
theorem read_text_of_result (start : String) (lines : List String) (G : Grammar) (h : read start lines = .ok G) :
    ∃ run core, G.run = .ok run ∧ run.beforeBinarization? = some core ∧
      (∀ r ∈ run.result.productions,
        (Body.read r.body.text = .ok r.body ↔ ∀ t, .nonterminal ⟨.proxy t⟩ ∉ r.body) ∧
        ∀ t, .nonterminal ⟨.proxy t⟩ ∈ r.body →
          ∃ rest, Body.read r.body.text = .error ⟨r.body.text, '_' :: rest⟩) ∧
      ((∀ r ∈ run.result.productions, Body.read r.body.text = .ok r.body) ↔
        ∀ r ∈ core.productions, 2 ≤ r.body.length → ∀ t, .terminal t ∉ r.body) := by
  have hvalidate := validate_of_read h
  have hvalid := validate_eq_ok.1 hvalidate
  have hG : ∀ s, G.DeclaresSymbol s → Legible s := fun s hs => legible_of_read h s ((exact_of_read h s).1 hs)
  have hbodies : ∀ r ∈ G.passThrough.result.productions,
      (Body.read r.body.text = .ok r.body ↔ ∀ t, .nonterminal ⟨.proxy t⟩ ∉ r.body) ∧
      ∀ t, .nonterminal ⟨.proxy t⟩ ∈ r.body →
        ∃ rest, Body.read r.body.text = .error ⟨r.body.text, '_' :: rest⟩ := by
    intro r hr
    rcases result_body_cases hvalid hG hr with ⟨hlen, hlegible⟩ | ⟨v, t, w, hbody, hv⟩
    · have hnone : ∀ t, .nonterminal ⟨.proxy t⟩ ∉ r.body := fun t ht => not_legible_proxy rfl (hlegible _ ht)
      exact ⟨iff_of_true (Body.read_text_of_legible hlen hlegible) hnone, fun t ht => absurd ht (hnone t)⟩
    · have hmem : .nonterminal ⟨.proxy t⟩ ∈ r.body := by simp [hbody]
      obtain ⟨rest, hrest⟩ : ∃ rest, Body.read r.body.text = .error ⟨r.body.text, '_' :: rest⟩ := by
        rw [hbody]
        exact Body.read_text_of_proxy hv
      refine ⟨iff_of_false (fun hread => ?_) fun hnone => hnone t hmem, fun _ _ => ⟨rest, hrest⟩⟩
      rw [hrest] at hread
      cases hread
  refine ⟨G.passThrough, G.pruned, run_eq_passThrough hvalidate, passThrough_beforeBinarization?, hbodies, ?_⟩
  have hproxies := not_congr (exists_proxy_iff hvalid hG)
  simp only [not_exists, not_and] at hproxies
  rw [← hproxies]
  exact forall₂_congr fun r hr => (hbodies r hr).1

/-- A nonterminal with a number, and a terminal behind it. -/
def numberedFront : Grammar :=
  let S : Nonterminal := ⟨.ofChar 'S'⟩
  let X : Nonterminal := ⟨.ofChars 'X' ['1']⟩
  (ofStart S).addAll [⟨S, [.nonterminal X, .terminal ⟨.ofChar 'a'⟩]⟩, ⟨X, [.terminal ⟨.ofChar 'b'⟩]⟩]

theorem read_text_of_result_numberedFront : read "S" ["S → X1a", "X1 → b"] = .ok numberedFront ∧
    ∃ run core, numberedFront.run = .ok run ∧ run.beforeBinarization? = some core ∧
      (∀ r ∈ run.result.productions,
        (Body.read r.body.text = .ok r.body ↔ ∀ t, .nonterminal ⟨.proxy t⟩ ∉ r.body) ∧
        ∀ t, .nonterminal ⟨.proxy t⟩ ∈ r.body →
          ∃ rest, Body.read r.body.text = .error ⟨r.body.text, '_' :: rest⟩) ∧
      ((∀ r ∈ run.result.productions, Body.read r.body.text = .ok r.body) ↔
        ∀ r ∈ core.productions, 2 ≤ r.body.length → ∀ t, .terminal t ∉ r.body) := by
  have hread : read "S" ["S → X1a", "X1 → b"] = .ok numberedFront := by decide +kernel
  exact ⟨hread, read_text_of_result _ _ _ hread⟩

/-- There is nothing to remove. -/
theorem pruned_numberedFront : numberedFront.pruned = numberedFront := by
  have herasure : numberedFront.withoutErasing = numberedFront := by
    have hfacts : numberedFront.nullable.facts = .empty := OrderedSet.ext (by cbv)
    unfold withoutErasing
    rw [hfacts]
    decide
  have hunits : numberedFront.withoutUnits = numberedFront := by
    have hfacts : numberedFront.unitPairs.facts = .ofList [⟨⟨.ofChar 'S'⟩, ⟨.ofChar 'S'⟩⟩,
        ⟨⟨.ofChars 'X' ['1']⟩, ⟨.ofChars 'X' ['1']⟩⟩] := OrderedSet.ext (by cbv)
    unfold withoutUnits
    rw [hfacts]
    decide
  have haccessible : numberedFront.withoutInaccessible = numberedFront := by
    have hfacts : numberedFront.accessible = .ofList [⟨.ofChar 'S'⟩, ⟨.ofChars 'X' ['1']⟩] := OrderedSet.ext (by cbv)
    unfold withoutInaccessible
    rw [hfacts]
    decide
  have hproductive : numberedFront.withoutUnproductive = numberedFront := by
    have hfacts : numberedFront.productive.facts = .ofList [⟨.ofChars 'X' ['1']⟩, ⟨.ofChar 'S'⟩] :=
      OrderedSet.ext (by cbv)
    unfold withoutUnproductive
    rw [hfacts]
    decide
  exact pruned_of_productive (by rw [reduced, herasure, hunits, haccessible]) hproductive

/-- The run puts a proxy in place of the terminal, and what is printed then is not read. -/
theorem not_read_text_numberedFront : ∃ run, numberedFront.run = .ok run ∧
    ∃ r ∈ run.result.productions, r.body.text = "X1 T_a" ∧ Body.read r.body.text = .error ⟨"X1 T_a", ['_', 'a']⟩ := by
  have hvalid : numberedFront.validate = .ok () := by decide
  have hbodies : numberedFront.passThrough.result.productions.toList.map Rule.body =
      [[.nonterminal ⟨.ofChars 'X' ['1']⟩, .nonterminal ⟨.proxy ⟨.ofChar 'a'⟩⟩], [.terminal ⟨.ofChar 'b'⟩],
        [.terminal ⟨.ofChar 'a'⟩]] := by
    rw [passThrough_result, pruned_numberedFront]
    cbv
  obtain ⟨r, hr, hbody⟩ := List.mem_map.1 (hbodies ▸ List.mem_cons_self)
  have htext : r.body.text = "X1 T_a" := by
    rw [hbody]
    decide +kernel
  refine ⟨numberedFront.passThrough, run_eq_passThrough hvalid, r, hr, htext, ?_⟩
  rw [htext]
  decide +kernel

end Grammar

end NormalGrammar
