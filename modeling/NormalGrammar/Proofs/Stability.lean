import NormalGrammar.Proofs.Acceptance
import NormalGrammar.Proofs.Trim

/-!
# Repeated runs

The result of a run is settled: it is valid, trim and normal.  A run changes a settled grammar `N` in its first two
stages only, and these just add bodies that are in `N` already (`result_equiv`).  They add none if no symbol is nullable
(`withoutUnits_equiv_of_not_mem`).  Else they give a nonterminal the bodies of what it becomes when nullable symbols are
left out, and doing so again gives it nothing new (`withoutUnits_equiv_of_equiv`).  So runs stabilize, at the latest
after the second (`run_stabilizes`).
-/

namespace NormalGrammar

namespace Grammar

variable {G H K : Grammar}

/-! ### Equality without order -/

theorem Equivalent.trim (h : G ≈ H) (hG : G.Trim) : H.Trim where
  accessible := by
    intro A hA
    have hreach := hG.accessible A ((h.nonterminals A).2 hA)
    rw [← h.start]
    exact hreach.mono fun r hr => (h.productions r).1 hr
  productive := by
    intro r hr A hA
    obtain ⟨x, hx⟩ := hG.productive r ((h.productions r).2 hr) A hA
    exact ⟨x, hx.mono fun q hq => (h.productions q).1 hq⟩
  used := by
    intro t ht
    obtain ⟨r, hr, hmem⟩ := hG.used t ((h.terminals t).2 ht)
    exact ⟨r, (h.productions r).1 hr, hmem⟩

theorem Equivalent.normal (h : G ≈ H) (hG : G.Normal) : H.Normal := by
  intro r hr
  rw [← h.start]
  exact hG r ((h.productions r).2 hr)

/-! ### Stages that find nothing to do -/

/-- Keeping the terminals that are used changes nothing if all of them are, and all rules and nonterminals are kept. -/
theorem equiv_of_used (hused : ∀ t ∈ G.terminals, ∃ r ∈ G.productions, .terminal t ∈ r.body)
    (hstart : K.start = G.start) (hnonterminals : ∀ A, A ∈ K.nonterminals ↔ A ∈ G.nonterminals)
    (hrules : ∀ r, r ∈ K.productions ↔ r ∈ G.productions)
    (hterminals : ∀ t, t ∈ K.terminals ↔ t ∈ G.terminals ∧ ∃ r ∈ K.productions, .terminal t ∈ r.body) : K ≈ G := by
  refine ⟨hstart, hnonterminals, fun t => ?_, hrules⟩
  rw [hterminals]
  constructor
  · exact fun h => h.1
  · intro ht
    obtain ⟨r, hr, hmem⟩ := hused t ht
    exact ⟨ht, r, (hrules r).2 hr, hmem⟩

theorem withoutInaccessible_equiv (hnonterminals : ∀ A ∈ G.nonterminals, G.Reaches G.start A)
    (howners : ∀ r ∈ G.productions, G.Reaches G.start r.owner)
    (hused : ∀ t ∈ G.terminals, ∃ r ∈ G.productions, .terminal t ∈ r.body) : G.withoutInaccessible ≈ G := by
  refine equiv_of_used hused rfl (fun A => ?_) (fun r => ?_) fun t => mem_withoutInaccessible_terminals
  · rw [mem_withoutInaccessible_nonterminals]
    exact ⟨fun h => h.1, fun hA => ⟨hA, hnonterminals A hA⟩⟩
  · rw [mem_withoutInaccessible]
    exact ⟨fun h => h.1, fun hr => ⟨hr, howners r hr⟩⟩

theorem withoutUnproductive_equiv (hnonterminals : ∀ A ∈ G.nonterminals, (∃ x, G.Generates A x) ∨ A = G.start)
    (hbodies : ∀ r ∈ G.productions, ∀ A, .nonterminal A ∈ r.body → ∃ x, G.Generates A x)
    (hused : ∀ t ∈ G.terminals, ∃ r ∈ G.productions, .terminal t ∈ r.body) : G.withoutUnproductive ≈ G := by
  refine equiv_of_used hused rfl (fun A => ?_) (fun r => ?_) fun t => mem_withoutUnproductive_terminals
  · rw [mem_withoutUnproductive_nonterminals]
    exact ⟨fun h => h.1, fun hA => ⟨hA, hnonterminals A hA⟩⟩
  · rw [mem_withoutUnproductive]
    exact ⟨fun h => h.1, fun hr => ⟨hr, hbodies r hr⟩⟩

theorem Trim.withoutInaccessible_equiv (hG : G.Trim) (hvalid : G.Valid) : G.withoutInaccessible ≈ G :=
  Grammar.withoutInaccessible_equiv hG.accessible (fun r hr => hG.accessible _ (hvalid.owner r hr)) hG.used

theorem Trim.withoutUnproductive_equiv (hG : G.Trim) : G.withoutUnproductive ≈ G :=
  Grammar.withoutUnproductive_equiv (fun _ hA => hG.productive_or_start hA) hG.productive hG.used

/-- Pruning leaves alone what is trim after the first two stages. -/
theorem pruned_equiv (hG : G.Valid) (htrim : G.withoutErasing.withoutUnits.Trim) :
    G.pruned ≈ G.withoutErasing.withoutUnits := by
  have hreduced : G.reduced ≈ G.withoutErasing.withoutUnits :=
    htrim.withoutInaccessible_equiv hG.withoutErasing.withoutUnits
  have hproductive : G.reduced.withoutUnproductive ≈ G.reduced :=
    (hreduced.symm.trim htrim).withoutUnproductive_equiv
  unfold pruned
  rw [if_pos hproductive]
  exact hproductive.trans hreduced

end Grammar

/-- A body of at most two symbols is a chain by itself. -/
theorem Splits.equiv_of_length {G H : Grammar} {names : Rule Body → List Nonterminal} (h : Splits G names H)
    (hG : ∀ r ∈ G.productions, r.body.length ≤ 2) : H ≈ G := by
  have hnames : ∀ r ∈ G.productions, names r = [] := by
    intro r hr
    have hlen := h.length r hr
    have hshort := hG r hr
    exact List.eq_nil_of_length_eq_zero (by omega)
  refine ⟨h.start, fun A => ?_, fun t => by rw [h.terminals], fun q => ?_⟩
  · rw [h.nonterminals]
    constructor
    · rintro (hA | ⟨r, hr, hA⟩)
      · exact hA
      · rw [hnames r hr] at hA
        cases hA
    · exact Or.inl
  · rw [h.productions]
    constructor
    · rintro ⟨r, hr, hq⟩
      rw [hnames r hr, Chain.linksWith, List.mem_singleton] at hq
      rw [hq]
      exact hr
    · intro hq
      refine ⟨q, hq, ?_⟩
      rw [hnames q hq, Chain.linksWith]
      exact List.mem_singleton_self _

theorem Splits.equiv {G H : Grammar} {names : Rule Body → List Nonterminal} (h : Splits G names H) (hG : G.Normal) :
    H ≈ G := by
  refine h.equiv_of_length fun r hr => ?_
  rcases hG r hr with ⟨w, hw⟩ | ⟨-, hempty⟩
  · rw [hw]
    cases w <;> simp [NormalBody.toBody]
  · rw [hempty]
    simp

/-- Where no terminal stands in a body of two symbols there is nothing to isolate. -/
theorem Isolates.equiv_of_unpaired {G H : Grammar} {proxy : Terminal → Nonterminal} (h : Isolates G proxy H)
    (hG : ∀ t, ¬ t ∈ G.pairedTerminals) : H ≈ G := by
  have hsame : ∀ r ∈ G.productions, Proxy.isolateWith proxy r = r := by
    intro r hr
    by_cases hlen : r.body.length = 2
    · obtain ⟨A, w⟩ := r
      obtain ⟨s, t, rfl⟩ := List.length_eq_two.1 hlen
      cases s with
      | terminal a => exact absurd (Grammar.mem_pairedTerminals.2 ⟨_, hr, hlen, by simp⟩) (hG a)
      | nonterminal B =>
        cases t with
        | terminal a => exact absurd (Grammar.mem_pairedTerminals.2 ⟨_, hr, hlen, by simp⟩) (hG a)
        | nonterminal C => exact Proxy.isolateWith_of_eq hlen
    · exact Proxy.isolateWith_of_ne hlen
  refine ⟨h.start, fun A => ?_, fun t => by rw [h.terminals], fun q => ?_⟩
  · rw [h.nonterminals]
    constructor
    · rintro (hA | ⟨t, ht, -⟩)
      · exact hA
      · exact absurd ht (hG t)
    · exact Or.inl
  · rw [h.productions]
    constructor
    · rintro (⟨r, hr, rfl⟩ | ⟨t, ht, -⟩)
      · rw [hsame r hr]
        exact hr
      · exact absurd ht (hG t)
    · exact fun hq => Or.inl ⟨q, hq, (hsame q hq).symm⟩

/-- No terminal stands in a normal body of two symbols. -/
theorem Isolates.equiv {G H : Grammar} {proxy : Terminal → Nonterminal} (h : Isolates G proxy H) (hG : G.Normal) :
    H ≈ G := by
  refine h.equiv_of_unpaired fun t ht => ?_
  obtain ⟨r, hr, hlen, hmem⟩ := Grammar.mem_pairedTerminals.1 ht
  rcases hG r hr with ⟨w, hw⟩ | ⟨-, hempty⟩
  · rw [hw] at hlen hmem
    cases w with
    | terminal a => cases hlen
    | pair B C => simp [NormalBody.toBody] at hmem
  · rw [hempty] at hlen
    cases hlen

namespace Grammar

variable {N M : Grammar}

/-! ### Settled grammars -/

/-- What every result of a run is. -/
structure Settled (N : Grammar) : Prop where
  valid : N.Valid
  trim : N.Trim
  normal : N.Normal

theorem result_settled {G : Grammar} (hG : G.Valid) : G.passThrough.result.Settled :=
  ⟨result_valid hG, result_trim hG, result_normal hG⟩

/-- All proper variants of a normal body are empty or units. -/
theorem eq_of_mem_variants {nullable : OrderedSet Nonterminal} {w : NormalBody} {v : Body}
    (h : v ∈ variants nullable w.toBody) (hne : v ≠ []) (hunit : v.unit? = none) : v = w.toBody := by
  cases w with
  | terminal t => simpa [NormalBody.toBody, variants, isMarked] using h
  | pair B C =>
    have hlast : ∀ u, u ∈ variants nullable [.nonterminal C] → u = [.nonterminal C] ∨ u = [] := by
      intro u hu
      rcases mem_variants_cons.1 hu with ⟨_, hnil, rfl⟩ | ⟨-, hnil⟩
      · rw [List.mem_singleton.1 hnil]
        exact Or.inl rfl
      · exact Or.inr (List.mem_singleton.1 hnil)
    rcases mem_variants_cons.1 h with ⟨u, hu, rfl⟩ | ⟨-, hv⟩
    · rcases hlast u hu with rfl | rfl
      · rfl
      · cases hunit
    · rcases hlast v hv with rfl | rfl
      · cases hunit
      · exact absurd rfl hne

/-- The bodies that are left of a normal grammar without its erasing and unit productions are its own. -/
theorem mem_withoutErasing_of_normal (hN : N.Normal) {B : Nonterminal} {w : Body} :
    (⟨B, w⟩ ∈ N.withoutErasing.productions ∧ w.unit? = none) ↔ ⟨B, w⟩ ∈ N.productions := by
  rw [mem_withoutErasing]
  constructor
  · rintro ⟨⟨hne, v, hv, hw⟩ | ⟨hrule, hempty⟩, hunit⟩
    · rcases hN _ hv with ⟨u, hu⟩ | ⟨-, hu⟩
      · simp only at hu
        rw [hu] at hw hv
        have hsame : w = u.toBody := eq_of_mem_variants hw hne hunit
        rw [hsame]
        exact hv
      · simp only at hu
        rw [hu, variants, List.mem_singleton] at hw
        exact absurd hw hne
    · rw [hrule]
      exact NormalForm.empty_mem_of_generates hN hempty
  · intro hw
    rcases hN _ hw with ⟨u, hu⟩ | ⟨howner, hempty⟩
    · simp only at hu
      refine ⟨Or.inl ⟨?_, w, hw, self_mem_variants w⟩, ?_⟩
      · show w ≠ []
        rw [hu]
        exact NormalForm.toBody_ne_nil u
      · rw [hu]
        cases u <;> rfl
    · simp only at howner hempty
      rw [howner, hempty] at hw ⊢
      exact ⟨Or.inr ⟨rfl, .of_rule hw rfl⟩, rfl⟩

namespace Settled

/-- After the first two stages a nonterminal has the bodies of all that it becomes when nullable symbols are left
out. -/
theorem mem_withoutUnits (hN : N.Settled) {r : Rule Body} : r ∈ N.withoutErasing.withoutUnits.productions ↔
    r.owner ∈ N.nonterminals ∧
      ∃ B, N.withoutErasing.UnitReaches r.owner B ∧ ⟨B, r.body⟩ ∈ N.productions ∧ (r.body = [] → B = r.owner) := by
  rw [Grammar.mem_withoutUnits hN.valid.withoutErasing]
  constructor
  · rintro ⟨howner, B, hreach, hB, hunit, hempty⟩
    exact ⟨howner, B, hreach, (mem_withoutErasing_of_normal hN.normal).1 ⟨hB, hunit⟩, hempty⟩
  · rintro ⟨howner, B, hreach, hB, hempty⟩
    obtain ⟨hB, hunit⟩ := (mem_withoutErasing_of_normal hN.normal).2 hB
    exact ⟨howner, B, hreach, hB, hunit, hempty⟩

theorem mem_withoutUnits_of_mem (hN : N.Settled) {r : Rule Body} (hr : r ∈ N.productions) :
    r ∈ N.withoutErasing.withoutUnits.productions :=
  hN.mem_withoutUnits.2 ⟨hN.valid.owner r hr, r.owner, .refl, hr, fun _ => rfl⟩

/-- The first two stages keep a settled grammar trim and normal. -/
theorem trim_withoutUnits (hN : N.Settled) : N.withoutErasing.withoutUnits.Trim where
  accessible := fun A hA => (hN.trim.accessible A hA).mono fun _ => hN.mem_withoutUnits_of_mem
  productive := by
    intro r hr A hA
    obtain ⟨-, B, -, hB, -⟩ := hN.mem_withoutUnits.1 hr
    obtain ⟨x, hx⟩ := hN.trim.productive _ hB A hA
    exact ⟨x, hx.mono fun _ => hN.mem_withoutUnits_of_mem⟩
  used := by
    intro t ht
    obtain ⟨r, hr, hmem⟩ := hN.trim.used t ht
    exact ⟨r, hN.mem_withoutUnits_of_mem hr, hmem⟩

theorem normal_withoutUnits (hN : N.Settled) : N.withoutErasing.withoutUnits.Normal := by
  intro r hr
  obtain ⟨-, B, -, hB, hempty⟩ := hN.mem_withoutUnits.1 hr
  rcases hN.normal _ hB with hbody | ⟨howner, hbody⟩
  · exact Or.inl hbody
  · refine Or.inr ⟨?_, hbody⟩
    rw [← hempty hbody]
    exact howner

/-- A run over a settled grammar ends with what the first two stages leave. -/
theorem result_equiv (hN : N.Settled) : N.passThrough.result ≈ N.withoutErasing.withoutUnits := by
  obtain ⟨names, proxy, B, hsplits, hisolates⟩ := N.exists_names
  have hpruned := pruned_equiv hN.valid hN.trim_withoutUnits
  have hsplit := (hsplits.equiv (hpruned.symm.normal hN.normal_withoutUnits)).trans hpruned
  exact (hisolates.equiv (hsplit.symm.normal hN.normal_withoutUnits)).trans hsplit

/-! ### Without an empty body -/

/-- Where the start symbol owns no empty body, nothing is nullable and there are no units to remove. -/
theorem withoutUnits_equiv_of_not_mem (hN : N.Settled) (hempty : ¬ (⟨N.start, []⟩ : Rule Body) ∈ N.productions) :
    N.withoutErasing.withoutUnits ≈ N := by
  -- Nothing is left out of any body, so no unit production arises.
  have hnullable : ∀ A, ¬ A ∈ N.nullable.facts := fun A hA =>
    hempty (NormalForm.empty_mem_of_generates hN.normal (mem_nullable.1 hA))
  have hvariants : ∀ v w : Body, v ∈ variants N.nullable.facts w → v = w := by
    intro v w hv
    induction w generalizing v with
    | nil => exact List.mem_singleton.1 hv
    | cons s w ih =>
      rcases mem_variants_cons.1 hv with ⟨u, hu, rfl⟩ | ⟨hs, -⟩
      · rw [ih u hu]
      · obtain ⟨A, -, hA⟩ := isMarked_iff.1 hs
        exact absurd hA (hnullable A)
  have hstep : ∀ A B, ¬ N.withoutErasing.UnitStep A B := by
    intro A B hAB
    rcases mem_withoutErasing.1 hAB with ⟨-, w, hw, hv⟩ | ⟨hrule, -⟩
    · rw [← hvariants _ _ hv] at hw
      have hunit := ((mem_withoutErasing_of_normal hN.normal).2 hw).2
      cases hunit
    · cases hrule
  refine ⟨rfl, fun _ => Iff.rfl, fun _ => Iff.rfl, fun r => ⟨fun hr => ?_, hN.mem_withoutUnits_of_mem⟩⟩
  obtain ⟨-, B, hreach, hB, -⟩ := hN.mem_withoutUnits.1 hr
  cases hreach with
  | refl => exact hB
  | tail _ hlast => exact absurd hlast (hstep _ _)

/-! ### With an empty body -/

/-- The result of the second run makes no new symbol nullable. -/
theorem nullable_of_equiv (hN : N.Settled) (hM : M ≈ N.withoutErasing.withoutUnits) {A : Nonterminal}
    (hA : A ∈ M.nullable.facts) : A ∈ N.nullable.facts := by
  have hword : N.withoutErasing.withoutUnits.Generates A [] :=
    (mem_nullable.1 hA).mono fun r hr => (hM.productions r).1 hr
  exact mem_nullable.2 (hword.of_withoutUnits hN.valid.withoutErasing).of_withoutErasing

/-- Nor does it let a nonterminal become anything new. -/
theorem unitReaches_of_equiv (hN : N.Settled) (hM : M ≈ N.withoutErasing.withoutUnits) {A B : Nonterminal}
    (h : M.withoutErasing.UnitReaches A B) : N.withoutErasing.UnitReaches A B := by
  induction h with
  | refl => exact .refl
  | @tail B C _ hstep ih =>
    rcases mem_withoutErasing.1 hstep with ⟨-, w, hw, hC⟩ | ⟨hrule, -⟩
    · -- `B` has the body from some `D` that it becomes, and leaving out symbols of it leads on from `D`.
      obtain ⟨-, D, hreach, hD, -⟩ := hN.mem_withoutUnits.1 ((hM.productions _).1 hw)
      have hlast : N.withoutErasing.UnitStep D C :=
        mem_withoutErasing.2 (Or.inl ⟨by simp, w, hD, variants_mono (fun _ => hN.nullable_of_equiv hM) hC⟩)
      exact (ih.trans hreach).tail hlast
    · cases hrule

/-- The first two stages of a third run give a nonterminal no body that it did not get in the second. -/
theorem withoutUnits_equiv_of_equiv (hN : N.Settled) (hM : M.Settled) (h : M ≈ N.withoutErasing.withoutUnits) :
    M.withoutErasing.withoutUnits ≈ M := by
  refine ⟨rfl, fun _ => Iff.rfl, fun _ => Iff.rfl, fun r => ⟨fun hr => ?_, hM.mem_withoutUnits_of_mem⟩⟩
  obtain ⟨howner, B, hreach, hB, hempty⟩ := hM.mem_withoutUnits.1 hr
  obtain ⟨-, C, hreach', hC, hempty'⟩ := hN.mem_withoutUnits.1 ((h.productions _).1 hB)
  refine (h.productions r).2 (hN.mem_withoutUnits.2 ⟨(h.nonterminals _).1 howner, C, ?_, hC, fun e => ?_⟩)
  · exact (hN.unitReaches_of_equiv h hreach).trans hreach'
  · rw [hempty' e]
    exact hempty e

end Settled

/-- Runs over a valid grammar and over results of runs succeed.  The third result is the second without regard to order,
and already the second is the first if the start symbol does not derive the empty word. -/
theorem run_stabilizes (G : Grammar) (h : G.validate = .ok ()) : ∃ run₁ run₂ run₃,
    G.run = .ok run₁ ∧ run₁.result.run = .ok run₂ ∧ run₂.result.run = .ok run₃ ∧
      run₃.result ≈ run₂.result ∧ (¬ G.Generates G.start [] → run₂.result ≈ run₁.result) := by
  have hG := validate_eq_ok.1 h
  have hfirst := result_settled hG
  have hsecond := result_settled hfirst.valid
  refine ⟨_, _, _, run_eq_passThrough h, run_eq_passThrough (validate_eq_ok.2 hfirst.valid),
    run_eq_passThrough (validate_eq_ok.2 hsecond.valid), ?_, fun hempty => ?_⟩
  · exact hsecond.result_equiv.trans (hfirst.withoutUnits_equiv_of_equiv hsecond hfirst.result_equiv)
  · refine hfirst.result_equiv.trans (hfirst.withoutUnits_equiv_of_not_mem fun hmem => hempty ?_)
    exact ((empty_mem_result hG).1 hmem).2

/-- `S → ABb`, `A → a | ε` and `B → A`, where all but the start symbol is nullable. -/
def optionalFront : Grammar :=
  let S : Nonterminal := ⟨.ofChar 'S'⟩
  let A : Nonterminal := ⟨.ofChar 'A'⟩
  let B : Nonterminal := ⟨.ofChar 'B'⟩
  (ofStart S).addAll [⟨S, [.nonterminal A, .nonterminal B, .terminal ⟨.ofChar 'b'⟩]⟩,
    ⟨A, [.terminal ⟨.ofChar 'a'⟩]⟩, ⟨A, []⟩, ⟨B, [.nonterminal A]⟩]

theorem not_empty_optionalFront : ¬ optionalFront.Generates optionalFront.start [] := by
  have hfacts : optionalFront.nullable.facts.toList = [⟨.ofChar 'A'⟩, ⟨.ofChar 'B'⟩] := by cbv
  rw [← mem_nullable, ← OrderedSet.mem_toList, hfacts]
  decide

/-- The start symbol of `balanced` derives the empty word, that of `optionalFront` does not. -/
theorem run_stabilizes_balanced_optionalFront :
    (balanced.validate = .ok () ∧ ∃ run₁ run₂ run₃,
      balanced.run = .ok run₁ ∧ run₁.result.run = .ok run₂ ∧ run₂.result.run = .ok run₃ ∧
        run₃.result ≈ run₂.result ∧ (¬ balanced.Generates balanced.start [] → run₂.result ≈ run₁.result)) ∧
    optionalFront.validate = .ok () ∧ ¬ optionalFront.Generates optionalFront.start [] ∧ ∃ run₁ run₂ run₃,
      optionalFront.run = .ok run₁ ∧ run₁.result.run = .ok run₂ ∧ run₂.result.run = .ok run₃ ∧
        run₃.result ≈ run₂.result ∧ run₂.result ≈ run₁.result := by
  refine ⟨⟨rfl, run_stabilizes balanced rfl⟩, rfl, not_empty_optionalFront, ?_⟩
  obtain ⟨run₁, run₂, run₃, hrun₁, hrun₂, hrun₃, hthird, hsecond⟩ := run_stabilizes optionalFront rfl
  exact ⟨run₁, run₂, run₃, hrun₁, hrun₂, hrun₃, hthird, hsecond not_empty_optionalFront⟩

end Grammar

end NormalGrammar
