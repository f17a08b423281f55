import NormalGrammar.Proofs.Reordering

/-!
# Renaming the nonterminals of a result

Renaming commutes with the last two stages: a chain with renamed inner links is the renamed chain
(`Chain.linksWith_rename`), and a rule isolated with renamed proxies is the renamed isolated rule
(`Proxy.isolateWith_rename`).  So a renaming that takes the names drawn for one grammar to those drawn for an equivalent
one takes one result to the other (`Splits.rename_equiv`, `Isolates.rename_equiv`).
-/

namespace NormalGrammar

/-! ### Renaming -/

def Symbol.rename (ρ : Nonterminal → Nonterminal) : Symbol → Symbol
  | .terminal t => .terminal t
  | .nonterminal A => .nonterminal (ρ A)

def Rule.rename (ρ : Nonterminal → Nonterminal) (r : Rule Body) : Rule Body :=
  ⟨ρ r.owner, r.body.map (Symbol.rename ρ)⟩

/-- Every nonterminal `A` becomes `ρ A`. -/
def Grammar.rename (ρ : Nonterminal → Nonterminal) (G : Grammar) : Grammar where
  start := ρ G.start
  nonterminals := .ofList (G.nonterminals.toList.map ρ)
  terminals := G.terminals
  productions := .ofList (G.productions.toList.map (Rule.rename ρ))

section

variable {ρ : Nonterminal → Nonterminal} {G H : Grammar}

@[simp] theorem terminal_mem_rename {w : Body} {t : Terminal} :
    .terminal t ∈ w.map (Symbol.rename ρ) ↔ .terminal t ∈ w := by
  rw [List.mem_map]
  constructor
  · rintro ⟨s, hs, e⟩
    cases s with
    | terminal u =>
      rw [← e]
      exact hs
    | nonterminal A => cases e
  · exact fun ht => ⟨.terminal t, ht, rfl⟩

theorem map_rename_eq_self {w : Body} (h : ∀ A, .nonterminal A ∈ w → ρ A = A) : w.map (Symbol.rename ρ) = w := by
  refine (List.map_congr_left fun s hs => ?_).trans (List.map_id w)
  cases s with
  | terminal t => rfl
  | nonterminal A => exact congrArg Symbol.nonterminal (h A hs)

theorem Grammar.mem_rename_nonterminals {A : Nonterminal} :
    A ∈ (G.rename ρ).nonterminals ↔ ∃ B ∈ G.nonterminals, ρ B = A := by
  simp [rename]

theorem Grammar.mem_rename {r : Rule Body} :
    r ∈ (G.rename ρ).productions ↔ ∃ q ∈ G.productions, q.rename ρ = r := by
  simp [rename]

theorem Grammar.mem_pairedTerminals_rename {t : Terminal} :
    t ∈ (G.rename ρ).pairedTerminals ↔ t ∈ G.pairedTerminals := by
  rw [mem_pairedTerminals, mem_pairedTerminals]
  constructor
  · rintro ⟨_, hq, hlen, ht⟩
    obtain ⟨r, hr, rfl⟩ := mem_rename.1 hq
    exact ⟨r, hr, by simpa [Rule.rename] using hlen, terminal_mem_rename.1 ht⟩
  · rintro ⟨r, hr, hlen, ht⟩
    exact ⟨r.rename ρ, mem_rename.2 ⟨r, hr, rfl⟩, by simpa [Rule.rename] using hlen, terminal_mem_rename.2 ht⟩

theorem Grammar.Equivalent.mem_pairedTerminals (h : G ≈ H) {t : Terminal} :
    t ∈ G.pairedTerminals ↔ t ∈ H.pairedTerminals := by
  rw [Grammar.mem_pairedTerminals, Grammar.mem_pairedTerminals]
  simp only [h.productions _]

/-- A chain with renamed inner links is the renamed chain. -/
theorem Chain.linksWith_rename (Xs : List Nonterminal) (A : Nonterminal) (w : Body) :
    (linksWith Xs A w).map (Rule.rename ρ) = linksWith (Xs.map ρ) (ρ A) (w.map (Symbol.rename ρ)) := by
  fun_induction linksWith Xs A w with
  | case1 X Xs A s w ih =>
    rw [List.map_cons, ih]
    rfl
  | case2 A w => rfl
  | case3 X Xs A => rfl

/-- A rule isolated with renamed proxies is the renamed isolated rule. -/
theorem Proxy.isolateWith_rename {proxy proxy' : Terminal → Nonterminal} {r : Rule Body}
    (h : r.body.length = 2 → ∀ t, .terminal t ∈ r.body → ρ (proxy t) = proxy' t) :
    (isolateWith proxy r).rename ρ = isolateWith proxy' (r.rename ρ) := by
  have hlength : (r.rename ρ).body.length = r.body.length := List.length_map _
  by_cases hlen : r.body.length = 2
  · rw [isolateWith_of_eq hlen, isolateWith_of_eq (hlength.trans hlen)]
    unfold Rule.rename
    simp only [List.map_map, Rule.mk.injEq, true_and]
    refine List.map_congr_left fun s hs => ?_
    cases s with
    | terminal t => exact congrArg Symbol.nonterminal (h hlen t hs)
    | nonterminal A => rfl
  · rw [isolateWith_of_ne hlen, isolateWith_of_ne fun e => hlen (hlength.symm.trans e)]

end

/-! ### The last two stages -/

section

variable {ρ : Nonterminal → Nonterminal} {G H B C K L : Grammar} {names names' : Rule Body → List Nonterminal}
  {proxy proxy' : Terminal → Nonterminal}

theorem Splits.rename_equiv (h : Splits G names B) (h' : Splits H names' C) (hGH : G ≈ H) (hG : G.Valid)
    (hkept : ∀ A ∈ G.nonterminals, ρ A = A) (hnames : ∀ r ∈ G.productions, (names r).map ρ = names' r) :
    B.rename ρ ≈ C := by
  have hlinks : ∀ r ∈ G.productions, (Chain.linksWith (names r) r.owner r.body).map (Rule.rename ρ) =
      Chain.linksWith (names' r) r.owner r.body := by
    intro r hr
    have hbody : r.body.map (Symbol.rename ρ) = r.body :=
      map_rename_eq_self fun A hA => hkept A (hG.body r hr (.nonterminal A) hA)
    rw [Chain.linksWith_rename, hnames r hr, hkept _ (hG.owner r hr), hbody]
  refine ⟨?_, fun A => ?_, fun t => ?_, fun q => ?_⟩
  · show ρ B.start = C.start
    rw [h.start, h'.start, hkept _ hG.start, hGH.start]
  · rw [Grammar.mem_rename_nonterminals, h'.nonterminals]
    constructor
    · rintro ⟨X, hX, rfl⟩
      rcases (h.nonterminals X).1 hX with hX | ⟨r, hr, hX⟩
      · rw [hkept X hX]
        exact Or.inl ((hGH.nonterminals X).1 hX)
      · refine Or.inr ⟨r, (hGH.productions r).1 hr, ?_⟩
        rw [← hnames r hr]
        exact List.mem_map_of_mem hX
    · rintro (hA | ⟨r, hr, hA⟩)
      · have hA' := (hGH.nonterminals A).2 hA
        exact ⟨A, (h.nonterminals A).2 (Or.inl hA'), hkept A hA'⟩
      · have hr' := (hGH.productions r).2 hr
        rw [← hnames r hr'] at hA
        obtain ⟨X, hX, rfl⟩ := List.mem_map.1 hA
        exact ⟨X, (h.nonterminals X).2 (Or.inr ⟨r, hr', hX⟩), rfl⟩
  · show t ∈ B.terminals ↔ t ∈ C.terminals
    rw [h.terminals, h'.terminals]
    exact hGH.terminals t
  · rw [Grammar.mem_rename, h'.productions]
    constructor
    · rintro ⟨p, hp, rfl⟩
      obtain ⟨r, hr, hp⟩ := (h.productions p).1 hp
      refine ⟨r, (hGH.productions r).1 hr, ?_⟩
      rw [← hlinks r hr]
      exact List.mem_map_of_mem hp
    · rintro ⟨r, hr, hq⟩
      have hr' := (hGH.productions r).2 hr
      rw [← hlinks r hr'] at hq
      obtain ⟨p, hp, rfl⟩ := List.mem_map.1 hq
      exact ⟨p, (h.productions p).2 ⟨r, hr', hp⟩, rfl⟩

theorem Isolates.rename_equiv (h : Isolates B proxy K) (h' : Isolates C proxy' L) (hBC : B.rename ρ ≈ C)
    (hproxy : ∀ t ∈ B.pairedTerminals, ρ (proxy t) = proxy' t) : K.rename ρ ≈ L := by
  have hpaired : ∀ t, t ∈ B.pairedTerminals ↔ t ∈ C.pairedTerminals := fun t =>
    Grammar.mem_pairedTerminals_rename.symm.trans hBC.mem_pairedTerminals
  have hisolate : ∀ r ∈ B.productions, (Proxy.isolateWith proxy r).rename ρ = Proxy.isolateWith proxy' (r.rename ρ) :=
    fun r hr => Proxy.isolateWith_rename fun hlen t ht => hproxy t (Grammar.mem_pairedTerminals.2 ⟨r, hr, hlen, ht⟩)
  refine ⟨?_, fun A => ?_, fun t => ?_, fun q => ?_⟩
  · show ρ K.start = L.start
    rw [h.start, h'.start]
    exact hBC.start
  · rw [Grammar.mem_rename_nonterminals, h'.nonterminals, ← hBC.nonterminals, Grammar.mem_rename_nonterminals]
    constructor
    · rintro ⟨X, hX, rfl⟩
      rcases (h.nonterminals X).1 hX with hX | ⟨t, ht, rfl⟩
      · exact Or.inl ⟨X, hX, rfl⟩
      · exact Or.inr ⟨t, (hpaired t).1 ht, hproxy t ht⟩
    · rintro (⟨X, hX, rfl⟩ | ⟨t, ht, rfl⟩)
      · exact ⟨X, (h.nonterminals X).2 (Or.inl hX), rfl⟩
      · have ht' := (hpaired t).2 ht
        exact ⟨proxy t, (h.nonterminals _).2 (Or.inr ⟨t, ht', rfl⟩), hproxy t ht'⟩
  · show t ∈ K.terminals ↔ t ∈ L.terminals
    rw [h.terminals, h'.terminals]
    exact hBC.terminals t
  · rw [Grammar.mem_rename, h'.productions]
    constructor
    · rintro ⟨p, hp, rfl⟩
      rcases (h.productions p).1 hp with ⟨r, hr, rfl⟩ | ⟨t, ht, rfl⟩
      · exact Or.inl ⟨_, (hBC.productions _).1 (Grammar.mem_rename.2 ⟨r, hr, rfl⟩), hisolate r hr⟩
      · refine Or.inr ⟨t, (hpaired t).1 ht, ?_⟩
        rw [← hproxy t ht]
        rfl
    · rintro (⟨r, hr, rfl⟩ | ⟨t, ht, rfl⟩)
      · obtain ⟨s, hs, rfl⟩ := Grammar.mem_rename.1 ((hBC.productions r).2 hr)
        exact ⟨_, h.isolated_mem hs, hisolate s hs⟩
      · have ht' := (hpaired t).2 ht
        refine ⟨_, h.proxy_mem ht', ?_⟩
        rw [← hproxy t ht']
        rfl

end

end NormalGrammar
