import Mathlib.Data.List.Nodup
import Mathlib.Data.Set.Function
import NormalGrammar.Proofs.Renaming
import NormalGrammar.Proofs.StageSequence

/-!
# Runs over equivalent grammars

The names that a run draws depend on the order of insertion and on the names that are in use.  No run draws a name twice
(`nodup_newNames`), so the names of one run can be sent to those of another over an equivalent grammar, and as the other
run does not draw one twice either, this confuses no two nonterminals (`exists_renaming`).  Everything else is the same
for both runs (`run_order_independent`).
-/

namespace NormalGrammar

/-! ### Sending names to names -/

section

variable {α β : Type} [DecidableEq α]

/-- Different elements can be sent wherever one likes, all others being left where they are. -/
theorem exists_map_eq {l m : List α} (hl : l.Nodup) (hlen : l.length = m.length) :
    ∃ f : α → α, l.map f = m ∧ ∀ a, a ∉ l → f a = a := by
  induction l generalizing m with
  | nil => exact ⟨id, (List.eq_nil_of_length_eq_zero hlen.symm).symm, fun _ _ => rfl⟩
  | cons a l ih =>
    obtain ⟨b, m, rfl⟩ : ∃ b m', m = b :: m' := List.exists_cons_of_length_eq_add_one hlen.symm
    rw [List.nodup_cons] at hl
    obtain ⟨f, hf, hfixed⟩ := ih hl.2 (Nat.succ.inj hlen)
    have hne : ∀ c ∈ l, c ≠ a := fun c hc e => hl.1 (e ▸ hc)
    refine ⟨Function.update f a b, ?_, fun c hc => ?_⟩
    · rw [List.map_cons, Function.update_self, ← hf]
      exact congrArg _ (List.map_congr_left fun c hc => Function.update_of_ne (hne c hc) b f)
    · rw [List.mem_cons, not_or] at hc
      rw [Function.update_of_ne hc.1]
      exact hfixed c hc.2

omit [DecidableEq α] in
/-- Lists of equal lengths in a row are told apart. -/
theorem eq_of_flatMap_eq {l : List β} {f g : β → List α} (hlen : ∀ b ∈ l, (f b).length = (g b).length)
    (h : l.flatMap f = l.flatMap g) : ∀ b ∈ l, f b = g b := by
  induction l with
  | nil => simp
  | cons b l ih =>
    rw [List.forall_mem_cons] at hlen ⊢
    obtain ⟨hfirst, hrest⟩ := List.append_inj h hlen.1
    exact ⟨hfirst, ih hlen.2 hrest⟩

end

section

variable {G H B C K L : Grammar} {names names' : Rule Body → List Nonterminal} {proxy proxy' : Terminal → Nonterminal}
  {rules : List (Rule Body)} {ts : List Terminal}

/-- The inner links of the rules and the proxies of the terminals. -/
def newNames (names : Rule Body → List Nonterminal) (proxy : Terminal → Nonterminal) (rules : List (Rule Body))
    (ts : List Terminal) : List Nonterminal := rules.flatMap names ++ ts.map proxy

/-- No name is drawn twice. -/
theorem nodup_newNames (h : Splits G names B) (h' : Isolates B proxy K) (hrules : rules.Nodup)
    (hmem : ∀ r ∈ rules, r ∈ G.productions) (hts : ts.Nodup) (hpaired : ∀ t ∈ ts, t ∈ B.pairedTerminals) :
    (newNames names proxy rules ts).Nodup := by
  unfold newNames
  rw [List.nodup_append]
  refine ⟨h.nodup_names hrules hmem, ?_, ?_⟩
  · exact hts.map_on fun t ht u hu => h'.injective t (hpaired t ht) u (hpaired u hu)
  · rintro X hX P hP rfl
    obtain ⟨r, hr, hX⟩ := List.mem_flatMap.1 hX
    obtain ⟨t, ht, rfl⟩ := List.mem_map.1 hP
    exact h'.fresh t (hpaired t ht) ((h.nonterminals _).2 (Or.inr ⟨r, hmem r hr, hX⟩))

/-- A name that is drawn was not declared. -/
theorem not_mem_of_mem_newNames (h : Splits G names B) (h' : Isolates B proxy K)
    (hmem : ∀ r ∈ rules, r ∈ G.productions) (hpaired : ∀ t ∈ ts, t ∈ B.pairedTerminals) {A : Nonterminal}
    (hA : A ∈ newNames names proxy rules ts) : ¬ A ∈ G.nonterminals := by
  rcases List.mem_append.1 hA with hA | hA
  · obtain ⟨r, hr, hA⟩ := List.mem_flatMap.1 hA
    exact h.fresh r (hmem r hr) A hA
  · obtain ⟨t, ht, rfl⟩ := List.mem_map.1 hA
    exact fun hmem => h'.fresh t (hpaired t ht) ((h.nonterminals _).2 (Or.inl hmem))

theorem mem_nonterminals_or_newNames (h : Splits G names B) (h' : Isolates B proxy K) {A : Nonterminal}
    (hA : A ∈ K.nonterminals) :
    A ∈ G.nonterminals ∨ A ∈ newNames names proxy G.productions.toList B.pairedTerminals.toList := by
  rcases (h'.nonterminals A).1 hA with hA | ⟨t, ht, rfl⟩
  · rcases (h.nonterminals A).1 hA with hA | ⟨r, hr, hA⟩
    · exact Or.inl hA
    · exact Or.inr (List.mem_append_left _ (List.mem_flatMap.2 ⟨r, hr, hA⟩))
  · exact Or.inr (List.mem_append_right _ (List.mem_map_of_mem ht))

/-- A renaming that keeps what was declared, and sends the names that are drawn to different ones that were not
declared either, confuses no two nonterminals. -/
theorem injOn_of_newNames (h : Splits G names B) (h' : Isolates B proxy K) {ρ : Nonterminal → Nonterminal}
    (hkept : ∀ A ∈ G.nonterminals, ρ A = A) {others : List Nonterminal}
    (hmap : (newNames names proxy G.productions.toList B.pairedTerminals.toList).map ρ = others)
    (hnodup : others.Nodup) (hfresh : ∀ A ∈ others, ¬ A ∈ G.nonterminals) :
    Set.InjOn ρ {A | A ∈ K.nonterminals} := by
  have himage : ((G.nonterminals.toList ++
      newNames names proxy G.productions.toList B.pairedTerminals.toList).map ρ).Nodup := by
    rw [List.map_append, hmap, (List.map_congr_left hkept).trans (List.map_id _), List.nodup_append]
    refine ⟨G.nonterminals.nodup, hnodup, ?_⟩
    rintro A hA _ hnew rfl
    exact hfresh A hnew hA
  have hall : ∀ A ∈ K.nonterminals, A ∈ G.nonterminals.toList ++
      newNames names proxy G.productions.toList B.pairedTerminals.toList := fun A hA =>
    List.mem_append.2 (mem_nonterminals_or_newNames h h' hA)
  exact fun A hA A' hA' e => List.inj_on_of_nodup_map himage (hall A hA) (hall A' hA') e

/-- The names of one run can be sent to as many of another, rule by rule and terminal by terminal. -/
theorem exists_exchange (hnodup : (newNames names proxy rules ts).Nodup)
    (hlength : ∀ r ∈ rules, (names r).length = (names' r).length) : ∃ ρ : Nonterminal → Nonterminal,
    (newNames names proxy rules ts).map ρ = newNames names' proxy' rules ts ∧
      (∀ A, A ∉ newNames names proxy rules ts → ρ A = A) ∧ (∀ r ∈ rules, (names r).map ρ = names' r) ∧
      ∀ t ∈ ts, ρ (proxy t) = proxy' t := by
  have hlengths : (rules.flatMap names).length = (rules.flatMap names').length := by
    rw [List.length_flatMap, List.length_flatMap, List.map_congr_left hlength]
  have hall : (newNames names proxy rules ts).length = (newNames names' proxy' rules ts).length := by
    unfold newNames
    rw [List.length_append, List.length_append, hlengths, List.length_map, List.length_map]
  obtain ⟨ρ, hρ, hother⟩ := exists_map_eq hnodup hall
  have hparts : (rules.flatMap names).map ρ = rules.flatMap names' ∧ (ts.map proxy).map ρ = ts.map proxy' := by
    refine List.append_inj ?_ ((List.length_map _).trans hlengths)
    rw [← List.map_append]
    exact hρ
  refine ⟨ρ, hρ, hother, ?_, fun t ht => ?_⟩
  · rw [List.map_flatMap] at hparts
    exact eq_of_flatMap_eq (fun r hr => (List.length_map _).trans (hlength r hr)) hparts.1
  · have hproxies := hparts.2
    rw [List.map_map] at hproxies
    exact List.map_inj_left.1 hproxies t ht

end

namespace Grammar

variable {G H : Grammar}

/-- What one run ends with becomes what the other ends with if the names that were drawn are exchanged. -/
theorem exists_renaming (h : G ≈ H) (hG : G.Valid) : ∃ ρ : Nonterminal → Nonterminal,
    (∀ A ∈ G.pruned.nonterminals, ρ A = A) ∧ Set.InjOn ρ {A | A ∈ G.passThrough.result.nonterminals} ∧
      G.passThrough.result.rename ρ ≈ H.passThrough.result := by
  have hpruned := h.pruned hG
  obtain ⟨names, proxy, B, hsplits, hisolates⟩ := G.exists_names
  obtain ⟨names', proxy', C, hsplits', hisolates'⟩ := H.exists_names
  have hrule : ∀ r ∈ G.pruned.productions.toList, r ∈ H.pruned.productions := fun r hr => (hpruned.productions r).1 hr
  have hlength : ∀ r ∈ G.pruned.productions.toList, (names r).length = (names' r).length := fun r hr => by
    rw [hsplits.length r hr, hsplits'.length r (hrule r hr)]
  have hnodup := nodup_newNames hsplits hisolates G.pruned.productions.nodup (fun _ hr => hr)
    B.pairedTerminals.nodup fun _ ht => ht
  have hfresh : ∀ A ∈ newNames names proxy G.pruned.productions.toList B.pairedTerminals.toList,
      ¬ A ∈ G.pruned.nonterminals := fun A hA =>
    not_mem_of_mem_newNames hsplits hisolates (fun _ hr => hr) (fun _ ht => ht) hA
  obtain ⟨ρ, hmap, hother, hnames, hproxy⟩ := exists_exchange hnodup hlength
  have hkept : ∀ A ∈ G.pruned.nonterminals, ρ A = A := fun A hA => hother A fun hnew => hfresh A hnew hA
  have hsplit : B.rename ρ ≈ C := hsplits.rename_equiv hsplits' hpruned hG.pruned hkept hnames
  refine ⟨ρ, hkept, ?_, hisolates.rename_equiv hisolates' hsplit hproxy⟩
  -- Both runs have drawn for the same terminals, so the names of the other run are all different too.
  have hpaired : ∀ t ∈ B.pairedTerminals.toList, t ∈ C.pairedTerminals := fun t ht =>
    hsplit.mem_pairedTerminals.1 (mem_pairedTerminals_rename.2 ht)
  have hnodup' := nodup_newNames hsplits' hisolates' G.pruned.productions.nodup hrule B.pairedTerminals.nodup hpaired
  refine injOn_of_newNames hsplits hisolates hkept hmap hnodup' fun A hnew hA => ?_
  exact not_mem_of_mem_newNames hsplits' hisolates' hrule hpaired hnew ((hpruned.nonterminals A).1 hA)

/-- Runs over equivalent grammars go through the same stages and have equivalent grammars at every stage before
binarization.  Their results are equivalent up to the names of the nonterminals that were not there before
binarization. -/
theorem run_order_independent (G H : Grammar) (hG : G.validate = .ok ()) (h : G ≈ H) :
    ∃ (run₁ run₂ : Run) (core : Grammar) (ρ : Nonterminal → Nonterminal), G.run = .ok run₁ ∧ H.run = .ok run₂ ∧
      run₁.passes.map Pass.stage = run₂.passes.map Pass.stage ∧
      List.Forall₂ (fun p q => p.result ≈ q.result) run₁.passesBeforeBinarization run₂.passesBeforeBinarization ∧
      run₁.beforeBinarization? = some core ∧ ρ G.start = G.start ∧ (∀ A ∈ core.nonterminals, ρ A = A) ∧
      Set.InjOn ρ {A | A ∈ run₁.result.nonterminals} ∧ run₁.result.rename ρ ≈ run₂.result := by
  have hvalid := validate_eq_ok.1 hG
  obtain ⟨ρ, hkept, hinj, hresult⟩ := exists_renaming h hvalid
  exact ⟨G.passThrough, H.passThrough, G.pruned, ρ, run_eq_passThrough hG,
    run_eq_passThrough (validate_eq_ok.2 (h.valid hvalid)), h.stages hvalid, h.beforeBinarization hvalid,
    passThrough_beforeBinarization?, hkept _ (start_mem_pruned hvalid), hkept, hinj, hresult⟩

/-- The rules of `crowded` in the opposite order. -/
def crowdedReversed : Grammar := (ofStart crowded.start).addAll crowded.productions.toList.reverse

theorem run_order_independent_crowded : crowded.validate = .ok () ∧ crowded ≈ crowdedReversed ∧
    ∃ (run₁ run₂ : Run) (core : Grammar) (ρ : Nonterminal → Nonterminal),
      crowded.run = .ok run₁ ∧ crowdedReversed.run = .ok run₂ ∧
      run₁.passes.map Pass.stage = run₂.passes.map Pass.stage ∧
      List.Forall₂ (fun p q => p.result ≈ q.result) run₁.passesBeforeBinarization run₂.passesBeforeBinarization ∧
      run₁.beforeBinarization? = some core ∧ ρ crowded.start = crowded.start ∧ (∀ A ∈ core.nonterminals, ρ A = A) ∧
      Set.InjOn ρ {A | A ∈ run₁.result.nonterminals} ∧ run₁.result.rename ρ ≈ run₂.result := by
  have hvalid : crowded.validate = .ok () := by decide
  have hequiv : crowded ≈ crowdedReversed := by decide
  exact ⟨hvalid, hequiv, run_order_independent crowded crowdedReversed hvalid hequiv⟩

end Grammar

end NormalGrammar
