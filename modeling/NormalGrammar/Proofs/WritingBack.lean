import Mathlib.Data.List.Nodup
import NormalGrammar.Proofs.Arrangement
import NormalGrammar.Proofs.Declaration
import NormalGrammar.Proofs.Outcome

/-!
# Writing a normal form back

Reading a grammar as a normal form keeps its nonempty bodies in their order (`filter_eq_map_of_readRules`), and the
empty body of the start symbol becomes a flag.  Writing the normal form back puts this body last and declares what is
used (`Reading.toGrammar_productions`, `exact_toGrammar`).  So the rules come back, the declarations only if nothing else
was declared, and what is written is read as the very same normal form (`ofGrammar_toGrammar`).
-/

namespace NormalGrammar

/-- A rule in normal form as a rule of a grammar. -/
def Rule.toBody (r : Rule NormalBody) : Rule Body := ⟨r.owner, r.body.toBody⟩

namespace NormalForm

variable {G : Grammar} {N : NormalForm} {start : Nonterminal}

theorem ruleToBody_injective {r q : Rule NormalBody} (h : r.toBody = q.toBody) : r = q := by
  obtain ⟨A, v⟩ := r
  obtain ⟨B, w⟩ := q
  obtain ⟨rfl, hbody⟩ := Rule.mk.inj h
  obtain rfl : v = w := toBody_injective hbody
  rfl

/-- No rule in normal form has an empty body. -/
theorem toBody_full (q : Rule NormalBody) : (!q.toBody.body.isEmpty) = true := by
  have hbody : q.toBody.body ≠ [] := toBody_ne_nil q.body
  simpa using hbody

/-! ### The order of the bodies -/

/-- The rules that are read are those with a nonempty body, in the same order. -/
theorem filter_eq_map_of_readRules {rules : List (Rule Body)} {read : List (Rule NormalBody)}
    (h : readRules start rules = .ok read) : rules.filter (fun r => !r.body.isEmpty) = read.map Rule.toBody := by
  induction rules generalizing read with
  | nil =>
    cases h
    rfl
  | cons r rules ih =>
    simp only [readRules] at h
    split at h
    · cases h
    · rename_i first hfirst
      cases hrest : readRules start rules with
      | error e =>
        rw [hrest] at h
        cases h
      | ok rest =>
        rw [hrest] at h
        cases h
        rcases normal_of_readRule hfirst with ⟨rfl, rfl⟩ | ⟨w, rfl, hw⟩
        · rw [List.filter_cons_of_neg (by simp), ih hrest]
          rfl
        · have hne : r.body ≠ [] := by
            rw [hw]
            exact toBody_ne_nil w
          have hrule : (⟨r.owner, w⟩ : Rule NormalBody).toBody = r := by
            rw [Rule.toBody, ← hw]
          rw [List.filter_cons_of_pos (by simpa using hne), ih hrest]
          show r :: rest.map Rule.toBody = (⟨r.owner, w⟩ : Rule NormalBody).toBody :: rest.map Rule.toBody
          rw [hrule]

/-- A normal form that is read from a grammar has its rules owner by owner, in the order of the grammar. -/
theorem toList_productions_of_ofGrammar (h : ofGrammar G = .ok N) :
    N.productions.toList.map Rule.toBody = G.rules.filter (fun r => !r.body.isEmpty) ∧
      N.rules = N.productions.toList := by
  unfold ofGrammar at h
  cases hread : readRules G.start G.rules with
  | error e =>
    rw [hread] at h
    cases h
  | ok read =>
    rw [hread] at h
    cases h
    have hfilter := filter_eq_map_of_readRules hread
    have hnodup : (read.map Rule.toBody).Nodup := by
      rw [← hfilter]
      exact G.productions.arranged.nodup.filter _
    have hlist : (OrderedSet.ofList read).toList = read := OrderedSet.toList_ofList hnodup.of_map
    have hgrouped : Productions.Grouped (read.map Rule.toBody) := by
      rw [← hfilter]
      exact (Productions.grouped_rules G.productions).filter _
    refine ⟨by rw [hlist, hfilter], Productions.rules_eq_of_grouped ?_⟩
    rw [hlist]
    exact hgrouped.of_map (fun _ _ => ruleToBody_injective) fun _ => rfl

/-! ### The grammar that is written -/

/-- The productions that are written, in order. -/
def writtenRules (N : NormalForm) : List (Rule Body) :=
  N.rules.map Rule.toBody ++ if N.erasable then [⟨N.start, []⟩] else []

/-- Just the productions in normal form are written with a body that is not empty. -/
theorem filter_writtenRules (N : NormalForm) :
    N.writtenRules.filter (fun r => !r.body.isEmpty) = N.rules.map Rule.toBody := by
  have hrules : (N.rules.map Rule.toBody).filter (fun r => !r.body.isEmpty) = N.rules.map Rule.toBody :=
    List.filter_eq_self.2 (List.forall_mem_map.2 fun q _ => toBody_full q)
  unfold writtenRules
  rw [List.filter_append, hrules]
  split
  · exact List.append_nil _
  · exact List.append_nil _

theorem toGrammar_eq (N : NormalForm) : N.toGrammar = (Grammar.ofStart N.start).addAll N.writtenRules := rfl

@[simp] theorem toGrammar_start (N : NormalForm) : N.toGrammar.start = N.start := by
  rw [toGrammar_eq, Grammar.addAll_start]
  rfl

theorem exact_toGrammar (N : NormalForm) : N.toGrammar.Exact := Grammar.exact_ofStart_addAll _ _

theorem mem_toGrammar {r : Rule Body} : r ∈ N.toGrammar.productions ↔
    (∃ q ∈ N.productions, q.toBody = r) ∨ (N.erasable = true ∧ r = ⟨N.start, []⟩) := by
  rw [toGrammar_eq, Grammar.mem_ofStart_addAll, writtenRules, List.mem_append, List.mem_map]
  have hempty : r ∈ (if N.erasable then [⟨N.start, []⟩] else []) ↔ N.erasable = true ∧ r = ⟨N.start, []⟩ := by
    split
    · rename_i h
      simp [h]
    · rename_i h
      simp [h]
  rw [hempty]
  simp only [rules, Productions.mem_rules]

/-- What is written declares the start symbol and the symbols of the productions. -/
theorem declares_toGrammar {s : Symbol} : N.toGrammar.DeclaresSymbol s ↔
    s = .nonterminal N.start ∨ ∃ q ∈ N.productions, s = .nonterminal q.owner ∨ s ∈ q.body.toBody := by
  rw [N.exact_toGrammar s]
  unfold Grammar.Uses
  rw [toGrammar_start]
  simp only [mem_toGrammar]
  constructor
  · rintro (hstart | ⟨r, ⟨q, hq, rfl⟩ | ⟨-, rfl⟩, hs⟩)
    · exact Or.inl hstart
    · exact Or.inr ⟨q, hq, hs⟩
    · exact Or.inl (hs.resolve_right List.not_mem_nil)
  · rintro (hstart | ⟨q, hq, hs⟩)
    · exact Or.inl hstart
    · exact Or.inr ⟨q.toBody, Or.inl ⟨q, hq, rfl⟩, hs⟩

/-- The nonterminals of a normal form are those that are declared by what is written. -/
theorem nonterminals_toGrammar (N : NormalForm) : N.nonterminals.SameElements N.toGrammar.nonterminals := by
  intro A
  have hbody : ∀ w : NormalBody, A ∈ w.nonterminals ↔ .nonterminal A ∈ w.toBody := fun w => by
    cases w <;> simp [NormalBody.toBody, NormalBody.nonterminals]
  have hdeclared : A ∈ N.toGrammar.nonterminals ↔ _ := declares_toGrammar (s := .nonterminal A)
  rw [hdeclared]
  simp only [nonterminals, rules, OrderedSet.mem_ofList, List.mem_cons, List.mem_flatMap, Productions.mem_rules, hbody,
    Symbol.nonterminal.injEq]

/-- The terminals of a normal form are those that are declared by what is written. -/
theorem terminals_toGrammar (N : NormalForm) : N.terminals.SameElements N.toGrammar.terminals := by
  intro t
  have hbody : ∀ w : NormalBody, w.terminal? = some t ↔ .terminal t ∈ w.toBody := fun w => by
    cases w <;> simp [NormalBody.toBody, NormalBody.terminal?, eq_comm]
  have hdeclared : t ∈ N.toGrammar.terminals ↔ _ := declares_toGrammar (s := .terminal t)
  rw [hdeclared]
  simp only [terminals, rules, OrderedSet.mem_ofList, List.mem_filterMap, Productions.mem_rules, hbody, reduceCtorEq,
    false_or]

/-- Without empty bodies, just the stored productions are written. -/
theorem mem_withoutEmptyBodies_toGrammar {r : Rule Body} :
    r ∈ N.toGrammar.withoutEmptyBodies.productions ↔ ∃ q ∈ N.productions, q.toBody = r := by
  rw [Grammar.mem_withoutEmptyBodies, mem_toGrammar]
  constructor
  · rintro ⟨hq | ⟨-, rfl⟩, hne⟩
    · exact hq
    · exact absurd rfl hne
  · rintro ⟨q, hq, rfl⟩
    exact ⟨Or.inl ⟨q, hq, rfl⟩, toBody_ne_nil q.body⟩

/-- What is written holds the stored productions, and an empty body for an erasable start symbol. -/
theorem reading_toGrammar (N : NormalForm) : Reading N.toGrammar N where
  normal := by
    intro r hr
    rw [toGrammar_start]
    rcases mem_toGrammar.1 hr with ⟨q, -, rfl⟩ | ⟨-, rfl⟩
    · exact Or.inl ⟨q.body, rfl⟩
    · exact Or.inr ⟨rfl, rfl⟩
  start := (toGrammar_start N).symm
  erasable := by
    rw [mem_toGrammar, toGrammar_start]
    constructor
    · exact fun h => Or.inr ⟨h, rfl⟩
    · rintro (⟨q, -, hq⟩ | ⟨h, -⟩)
      · exact absurd (congrArg Rule.body hq) (toBody_ne_nil q.body)
      · exact h
  productions := by
    intro q
    rw [mem_toGrammar]
    constructor
    · exact fun hq => Or.inl ⟨q, hq, rfl⟩
    · rintro (⟨p, hp, hpq⟩ | ⟨-, hq⟩)
      · exact ruleToBody_injective hpq ▸ hp
      · exact absurd (congrArg Rule.body hq) (toBody_ne_nil q.body)

/-- Reading and writing back keeps the rules. -/
theorem Reading.toGrammar_productions (h : Reading G N) : N.toGrammar.productions.SameElements G.productions := by
  intro r
  rw [mem_toGrammar, h.erasable, h.start]
  constructor
  · rintro (⟨q, hq, rfl⟩ | ⟨hempty, rfl⟩)
    · exact (h.productions q).1 hq
    · exact hempty
  · intro hr
    obtain ⟨A, w⟩ := r
    rcases h.normal _ hr with ⟨v, hv⟩ | ⟨howner, hempty⟩
    · simp only at hv
      subst hv
      exact Or.inl ⟨⟨A, v⟩, (h.productions ⟨A, v⟩).2 hr, rfl⟩
    · simp only at howner hempty
      subst howner hempty
      exact Or.inr ⟨hr, rfl⟩

/-- The rules that are written stand in the order in which they are added. -/
theorem toList_toGrammar (N : NormalForm) : N.toGrammar.productions.toList = N.writtenRules := by
  have hnonempty : (N.rules.map Rule.toBody).Nodup :=
    N.productions.arranged.nodup.map fun _ _ => ruleToBody_injective
  have hnodup : N.writtenRules.Nodup := by
    unfold writtenRules
    split
    · refine hnonempty.append (List.nodup_singleton _) (List.disjoint_singleton.2 fun hmem => ?_)
      obtain ⟨q, -, hq⟩ := List.mem_map.1 hmem
      exact toBody_ne_nil q.body (congrArg Rule.body hq)
    · rw [List.append_nil]
      exact hnonempty
  rw [toGrammar_eq, Grammar.addAll_productions]
  exact OrderedSet.toList_ofList hnodup

/-- The rules that are written are the productions in order, owner by owner but for an erasable start symbol. -/
private theorem filter_toGrammar_rules (h : ofGrammar G = .ok N) :
    N.toGrammar.rules.filter (fun r => !r.body.isEmpty) = N.productions.toList.map Rule.toBody := by
  obtain ⟨hfilter, hrules⟩ := toList_productions_of_ofGrammar h
  have hne : ∀ r ∈ N.rules.map Rule.toBody, (!r.body.isEmpty) = true :=
    List.forall_mem_map.2 fun q _ => toBody_full q
  have hgrouped : Productions.Grouped (N.rules.map Rule.toBody) := by
    rw [hrules, hfilter]
    exact (Productions.grouped_rules G.productions).filter _
  rw [← hrules]
  refine Productions.filter_rules_of_append N.toList_toGrammar hne (fun r hr => ?_) hgrouped
  split at hr
  · rw [List.mem_singleton.1 hr]
    rfl
  · cases hr

/-- What is written is read as the same normal form, in the same order. -/
theorem ofGrammar_toGrammar (h : ofGrammar G = .ok N) : ofGrammar N.toGrammar = .ok N := by
  have hreading := ofGrammar_reading h
  have hnormal : ∀ r ∈ N.toGrammar.rules, r.Normal N.toGrammar.start := by
    intro r hr
    rw [toGrammar_start, hreading.start]
    exact hreading.normal r ((hreading.toGrammar_productions r).1 (Grammar.mem_rules.1 hr))
  obtain ⟨read, hread⟩ := readRules_of_normal hnormal
  have hsame : read = N.productions.toList := by
    have hmap := (filter_eq_map_of_readRules hread).symm.trans (filter_toGrammar_rules h)
    exact (List.map_injective_iff.2 fun _ _ => ruleToBody_injective) hmap
  have hproductions : OrderedSet.ofList read = N.productions := by
    rw [hsame]
    exact OrderedSet.ext (OrderedSet.toList_ofList N.productions.nodup)
  have herasable : decide ([] ∈ N.toGrammar.bodies N.start) = N.erasable := by
    have hempty : [] ∈ N.toGrammar.bodies N.start ↔ N.erasable = true := by
      rw [Grammar.mem_bodies, hreading.toGrammar_productions, hreading.start, hreading.erasable]
    rw [Bool.eq_iff_iff, decide_eq_true_eq, hempty]
  unfold ofGrammar
  rw [hread]
  simp only [Except.map, toGrammar_start, herasable, hproductions]

/-- A normal form that is read from a grammar keeps its start symbol and its rules.  Written back it declares exactly
the symbols that are used, so the grammar comes back if and only if it declares no others, and reading again gives the
same normal form with everything in the same order.  Results of runs declare exactly what they use, so they come back. -/
theorem toGrammar_faithful (G : Grammar) :
    (∀ N, ofGrammar G = .ok N →
      N.toGrammar.start = G.start ∧ N.toGrammar.productions.SameElements G.productions ∧
      (∀ s, N.toGrammar.DeclaresSymbol s ↔ G.Uses s) ∧ (N.toGrammar ≈ G ↔ G.Exact) ∧
      ofGrammar N.toGrammar = .ok N) ∧
    ∀ run, G.run = .ok run → run.result.Exact ∧ ∃ N, ofGrammar run.result = .ok N ∧ N.toGrammar ≈ run.result := by
  constructor
  · intro N h
    have hreading := ofGrammar_reading h
    have hstart : N.toGrammar.start = G.start := by rw [toGrammar_start, hreading.start]
    have hrules := hreading.toGrammar_productions
    have hexact := N.exact_toGrammar
    exact ⟨hstart, hrules, fun s => (hexact s).trans (Grammar.uses_congr hstart hrules),
      hexact.equiv_iff hstart hrules, ofGrammar_toGrammar h⟩
  · intro run hrun
    cases hvalid : G.validate with
    | error e =>
      rw [Grammar.run_eq_error hvalid] at hrun
      cases hrun
    | ok =>
      rw [Grammar.run_eq_passThrough hvalid] at hrun
      cases hrun
      have hexact := Grammar.result_exact (Grammar.validate_eq_ok.1 hvalid)
      obtain ⟨N, hread, -⟩ := Grammar.exists_toNormalForm hvalid
      have hreading := ofGrammar_reading hread
      have hstart : N.toGrammar.start = G.passThrough.result.start := by rw [toGrammar_start, hreading.start]
      exact ⟨hexact, N, hread, (N.exact_toGrammar.equiv_iff hstart hreading.toGrammar_productions).2 hexact⟩

/-- `S → ε | AA` and `A → a`, where `B` and `b` are declared but not used. -/
def idle : Grammar :=
  let S : Nonterminal := ⟨.ofChar 'S'⟩
  let A : Nonterminal := ⟨.ofChar 'A'⟩
  let a : Terminal := ⟨.ofChar 'a'⟩
  .ofParts S [⟨.ofChar 'B'⟩, A, S] [a, ⟨.ofChar 'b'⟩]
    [⟨S, []⟩, ⟨A, [.terminal a]⟩, ⟨S, [.nonterminal A, .nonterminal A]⟩]

theorem toGrammar_faithful_idle :
    (∃ N, ofGrammar idle = .ok N ∧ N.erasable = true ∧
      N.toGrammar.start = idle.start ∧ N.toGrammar.productions.SameElements idle.productions ∧
      (∀ s, N.toGrammar.DeclaresSymbol s ↔ idle.Uses s) ∧ (N.toGrammar ≈ idle ↔ idle.Exact) ∧
      ofGrammar N.toGrammar = .ok N) ∧
    ∃ run, idle.run = .ok run ∧ run.result.Exact ∧
      ∃ N, ofGrammar run.result = .ok N ∧ N.toGrammar ≈ run.result := by
  have hrun : idle.run = .ok idle.passThrough := Grammar.run_eq_passThrough rfl
  exact ⟨⟨_, rfl, rfl, (toGrammar_faithful idle).1 _ rfl⟩, _, hrun, (toGrammar_faithful idle).2 _ hrun⟩

end NormalForm

end NormalGrammar
