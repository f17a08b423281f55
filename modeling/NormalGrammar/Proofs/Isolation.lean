import Mathlib.Data.List.Nodup
import NormalGrammar.Grammar.Validation
import NormalGrammar.Isolation
import NormalGrammar.Proofs.NewNames
import NormalGrammar.Proofs.Pruning

/-!
# Words after the isolation of terminals

Every terminal that occurs in a body of two symbols gets a proxy of its own, which was not declared before, and the
bodies of two symbols have proxies in place of terminals (`isolate_isolates`).  A proxy is read as its terminal and as
nothing else, so the declared nonterminals keep exactly their words (`Isolates.generates`, `Isolates.generates_of`).
-/

namespace NormalGrammar

namespace Proxy

/-- A terminal is replaced by the nonterminal that stands for it. -/
def replaceWith (proxy : Terminal → Nonterminal) : Symbol → Symbol
  | .terminal t => .nonterminal (proxy t)
  | .nonterminal A => .nonterminal A

/-- A body of two symbols has its terminals replaced. -/
def isolateWith (proxy : Terminal → Nonterminal) (r : Rule Body) : Rule Body :=
  if r.body.length = 2 then ⟨r.owner, r.body.map (replaceWith proxy)⟩ else r

section

variable {proxy : Terminal → Nonterminal} {r : Rule Body}

theorem isolateWith_of_ne (hlen : r.body.length ≠ 2) : isolateWith proxy r = r := if_neg hlen

theorem isolateWith_of_eq (hlen : r.body.length = 2) :
    isolateWith proxy r = ⟨r.owner, r.body.map (replaceWith proxy)⟩ := if_pos hlen

@[simp] theorem isolateWith_owner : (isolateWith proxy r).owner = r.owner := by
  unfold isolateWith
  split <;> rfl

@[simp] theorem isolateWith_length : (isolateWith proxy r).body.length = r.body.length := by
  unfold isolateWith
  split
  · exact List.length_map _
  · rfl

theorem isolateWith_body_ne_nil (hne : r.body ≠ []) : (isolateWith proxy r).body ≠ [] := by
  unfold isolateWith
  split
  · simpa using hne
  · exact hne

/-- A symbol of an isolated body is a symbol of the body, or the proxy of one. -/
theorem mem_isolateWith {s : Symbol} (hs : s ∈ (isolateWith proxy r).body) :
    s ∈ r.body ∨ ∃ t, r.body.length = 2 ∧ .terminal t ∈ r.body ∧ s = .nonterminal (proxy t) := by
  by_cases hlen : r.body.length = 2
  · rw [isolateWith_of_eq hlen] at hs
    obtain ⟨u, hu, rfl⟩ := List.mem_map.1 hs
    cases u with
    | terminal t => exact Or.inr ⟨t, hlen, hu, rfl⟩
    | nonterminal A => exact Or.inl hu
  · rw [isolateWith_of_ne hlen] at hs
    exact Or.inl hs

/-- Nonterminals stay where they are. -/
theorem nonterminal_mem_isolateWith {A : Nonterminal} (hA : .nonterminal A ∈ r.body) :
    .nonterminal A ∈ (isolateWith proxy r).body := by
  by_cases hlen : r.body.length = 2
  · rw [isolateWith_of_eq hlen]
    exact List.mem_map.2 ⟨.nonterminal A, hA, rfl⟩
  · rw [isolateWith_of_ne hlen]
    exact hA

theorem proxy_mem_isolateWith {t : Terminal} (hlen : r.body.length = 2) (ht : .terminal t ∈ r.body) :
    .nonterminal (proxy t) ∈ (isolateWith proxy r).body := by
  rw [isolateWith_of_eq hlen]
  exact List.mem_map.2 ⟨.terminal t, ht, rfl⟩

end

private theorem find?_map {ts : List Terminal} {proxy : Terminal → Nonterminal} {t : Terminal} (ht : t ∈ ts) :
    (ts.map fun u => (⟨u, proxy u⟩ : Proxy)).find? (fun p => decide (p.terminal = t)) = some ⟨t, proxy t⟩ := by
  induction ts with
  | nil => simp at ht
  | cons u ts ih =>
    rw [List.map_cons, List.find?_cons]
    by_cases hu : u = t
    · simp [hu]
    · have hmem : t ∈ ts := (List.mem_cons.1 ht).resolve_left fun e => hu e.symm
      simpa [hu] using ih hmem

/-- With a proxy for each of its terminals, a rule is rewritten as by the function from terminals to proxies. -/
theorem isolateRule_eq {ts : List Terminal} {proxy : Terminal → Nonterminal} {r : Rule Body}
    (h : r.body.length = 2 → ∀ t, .terminal t ∈ r.body → t ∈ ts) :
    isolateRule (ts.map fun t => ⟨t, proxy t⟩) r = isolateWith proxy r := by
  unfold isolateRule
  by_cases hlen : r.body.length = 2
  · rw [if_pos hlen, isolateWith_of_eq hlen]
    congr 1
    refine List.map_congr_left fun s hs => ?_
    cases s with
    | terminal t => simp only [replace, replaceWith, find?_map (h hlen t hs)]
    | nonterminal A => rfl
  · rw [if_neg hlen, isolateWith_of_ne hlen]

end Proxy

open Proxy

variable {I : Interpretation} {proxy : Terminal → Nonterminal}

/-- A body keeps its words where proxies stand for their terminals. -/
theorem Reads.replaceWith {w : Body} (h : ∀ t, .terminal t ∈ w → I (proxy t) [t]) {x : Word} (hx : Reads I w x) :
    Reads I (w.map (replaceWith proxy)) x := by
  induction w generalizing x with
  | nil => exact hx
  | cons s w ih =>
    have hw : ∀ t, .terminal t ∈ w → I (proxy t) [t] := fun t ht => h t (List.mem_cons_of_mem _ ht)
    cases s with
    | terminal t =>
      obtain ⟨y, rfl, hy⟩ := hx
      exact ⟨[t], y, rfl, h t List.mem_cons_self, ih hw hy⟩
    | nonterminal A =>
      obtain ⟨y, z, rfl, hA, hz⟩ := hx
      exact ⟨y, z, rfl, hA, ih hw hz⟩

/-- It gains none if they stand for nothing else. -/
theorem Reads.of_replaceWith {w : Body} (h : ∀ t, .terminal t ∈ w → ∀ x, I (proxy t) x → x = [t]) {x : Word}
    (hx : Reads I (w.map (Proxy.replaceWith proxy)) x) : Reads I w x := by
  induction w generalizing x with
  | nil => exact hx
  | cons s w ih =>
    have hw : ∀ t, .terminal t ∈ w → ∀ x, I (proxy t) x → x = [t] := fun t ht => h t (List.mem_cons_of_mem _ ht)
    obtain ⟨y, z, rfl, hA, hz⟩ : ∃ y z, x = y ++ z ∧ Reads I [Proxy.replaceWith proxy s] y ∧
        Reads I (w.map (Proxy.replaceWith proxy)) z := reads_cons.1 hx
    cases s with
    | terminal t =>
      have hy : y = [t] := h t List.mem_cons_self y (reads_unit.1 hA)
      exact ⟨z, by rw [hy]; rfl, ih hw hz⟩
    | nonterminal A => exact ⟨y, z, rfl, reads_unit.1 hA, ih hw hz⟩

/-! ### What isolation does -/

/-- In `H` the given proxies stand for the terminals of the bodies of two symbols of `G`.  All proxies are different
and none was declared by `G`. -/
structure Isolates (G : Grammar) (proxy : Terminal → Nonterminal) (H : Grammar) : Prop where
  start : H.start = G.start
  terminals : H.terminals = G.terminals
  nonterminals : ∀ A, A ∈ H.nonterminals ↔ A ∈ G.nonterminals ∨ ∃ t ∈ G.pairedTerminals, A = proxy t
  productions : ∀ q, q ∈ H.productions ↔
    (∃ r ∈ G.productions, q = isolateWith proxy r) ∨ ∃ t ∈ G.pairedTerminals, q = ⟨proxy t, [.terminal t]⟩
  injective : ∀ t ∈ G.pairedTerminals, ∀ u ∈ G.pairedTerminals, proxy t = proxy u → t = u
  fresh : ∀ t ∈ G.pairedTerminals, ¬ proxy t ∈ G.nonterminals
  notTerminal : ∀ t ∈ G.pairedTerminals, ¬ ⟨(proxy t).name⟩ ∈ G.terminals

theorem Grammar.mem_pairedTerminals {G : Grammar} {t : Terminal} :
    t ∈ G.pairedTerminals ↔ ∃ r ∈ G.productions, r.body.length = 2 ∧ .terminal t ∈ r.body := by
  simp only [Grammar.pairedTerminals, OrderedSet.mem_ofList, List.mem_flatMap, List.mem_filter, Grammar.mem_rules,
    decide_eq_true_eq, Body.mem_terminals]
  constructor
  · rintro ⟨r, ⟨hr, hlen⟩, ht⟩
    exact ⟨r, hr, hlen, ht⟩
  · rintro ⟨r, hr, hlen, ht⟩
    exact ⟨r, ⟨hr, hlen⟩, ht⟩

/-- One proxy is drawn for every terminal. -/
theorem Draft.proxies_eq (ts : List Terminal) (hts : ts.Nodup) (d : Draft) : ∃ proxy : Terminal → Nonterminal,
    (proxies ts d).1 = ts.map (fun t => ⟨t, proxy t⟩) ∧ d.Adds (ts.map proxy) (proxies ts d).2 := by
  induction ts generalizing d with
  | nil => exact ⟨fun t => ⟨t.name⟩, rfl, .refl d⟩
  | cons t ts ih =>
    rw [List.nodup_cons] at hts
    obtain ⟨proxy, hlist, hadds⟩ := ih hts.2 (d.newProxy t).2
    have hne : ∀ u ∈ ts, u ≠ t := fun u hu e => hts.1 (e ▸ hu)
    -- The proxy of `t` is set apart from those of the other terminals.
    refine ⟨fun u => if u = t then (d.newProxy t).1 else proxy u, ?_, ?_⟩
    · have htail : ts.map (fun u => (⟨u, if u = t then (d.newProxy t).1 else proxy u⟩ : Proxy)) =
          ts.map fun u => ⟨u, proxy u⟩ := List.map_congr_left fun u hu => by rw [if_neg (hne u hu)]
      simp only [proxies, List.map_cons, ↓reduceIte, hlist, htail]
    · have htail : ts.map (fun u => if u = t then (d.newProxy t).1 else proxy u) = ts.map proxy :=
        List.map_congr_left fun u hu => if_neg (hne u hu)
      simp only [List.map_cons, ↓reduceIte, htail]
      exact (adds_newProxy d t).trans hadds

theorem Draft.isolate_eq (d : Draft) : d.isolate = (proxies d.grammar.pairedTerminals.toList d).2.withProductions
    (d.grammar.rules.map (isolateRule (proxies d.grammar.pairedTerminals.toList d).1) ++
      (proxies d.grammar.pairedTerminals.toList d).1.map Proxy.rule) := rfl

/-- Besides, the proxies are declared behind all others, and their rules stand behind those that are isolated. -/
theorem isolate_ordered (d : Draft) : ∃ proxy, Isolates d.grammar proxy d.isolate.grammar ∧
    d.isolate.grammar.nonterminals.toList =
      d.grammar.nonterminals.toList ++ d.grammar.pairedTerminals.toList.map proxy ∧
    d.isolate.grammar.productions = .ofList (d.grammar.rules.map (isolateWith proxy) ++
      d.grammar.pairedTerminals.toList.map fun t => ⟨proxy t, [.terminal t]⟩) := by
  obtain ⟨proxy, hlist, hadds⟩ := Draft.proxies_eq _ d.grammar.pairedTerminals.nodup d
  have hmem : ∀ {t : Terminal}, t ∈ d.grammar.pairedTerminals →
      proxy t ∈ d.grammar.pairedTerminals.toList.map proxy := fun ht => List.mem_map_of_mem ht
  have hrules : d.grammar.rules.map (isolateRule (d.grammar.pairedTerminals.toList.map fun t => ⟨t, proxy t⟩)) =
      d.grammar.rules.map (isolateWith proxy) := by
    refine List.map_congr_left fun r hr => isolateRule_eq fun hlen t ht => ?_
    exact Grammar.mem_pairedTerminals.2 ⟨r, Grammar.mem_rules.1 hr, hlen, ht⟩
  refine ⟨proxy, ?_⟩
  rw [Draft.isolate_eq, hlist, hrules, List.map_map]
  generalize (Draft.proxies d.grammar.pairedTerminals.toList d).2 = e at hadds
  refine ⟨?_, hadds.nonterminals, rfl⟩
  exact {
    start := hadds.start
    terminals := hadds.terminals
    nonterminals := by
      intro A
      rw [Draft.withProductions_nonterminals, hadds.mem_nonterminals, List.mem_map]
      simp only [OrderedSet.mem_toList, eq_comm]
    productions := by
      intro q
      rw [Draft.mem_withProductions, List.mem_append, List.mem_map, List.mem_map]
      simp only [Grammar.mem_rules, OrderedSet.mem_toList, eq_comm, Function.comp_apply, Proxy.rule]
    injective := fun t ht u hu e => List.inj_on_of_nodup_map hadds.nodup ht hu e
    fresh := fun t ht => hadds.fresh (hmem ht)
    notTerminal := fun t ht => hadds.notTerminal _ (hmem ht) }

theorem isolate_isolates (d : Draft) : ∃ proxy, Isolates d.grammar proxy d.isolate.grammar := by
  obtain ⟨proxy, hisolates, -⟩ := isolate_ordered d
  exact ⟨proxy, hisolates⟩

namespace Isolates

variable {G H : Grammar}

theorem isolated_mem (h : Isolates G proxy H) {r : Rule Body} (hr : r ∈ G.productions) :
    isolateWith proxy r ∈ H.productions :=
  (h.productions _).2 (Or.inl ⟨r, hr, rfl⟩)

/-- The owner keeps what isolation makes of its body. -/
theorem isolated_body_mem (h : Isolates G proxy H) {r : Rule Body} (hr : r ∈ G.productions) :
    ⟨r.owner, (isolateWith proxy r).body⟩ ∈ H.productions := by
  have hrule := h.isolated_mem hr
  have howner : (isolateWith proxy r).owner = r.owner := isolateWith_owner
  rw [← howner]
  exact hrule

theorem proxy_mem (h : Isolates G proxy H) {t : Terminal} (ht : t ∈ G.pairedTerminals) :
    ⟨proxy t, [.terminal t]⟩ ∈ H.productions :=
  (h.productions _).2 (Or.inr ⟨t, ht, rfl⟩)

/-! ### Words -/

/-- With proxies that stand for their terminals, the isolated rule gives its owner the words of the rule. -/
private theorem generates_of_isolated {K : Grammar} {r : Rule Body} (hr : isolateWith proxy r ∈ K.productions)
    (hproxy : r.body.length = 2 → ∀ t, .terminal t ∈ r.body → ⟨proxy t, [.terminal t]⟩ ∈ K.productions) {x : Word}
    (hx : Reads K.Generates r.body x) : K.Generates r.owner x := by
  by_cases hlen : r.body.length = 2
  · rw [isolateWith_of_eq hlen] at hr
    exact .of_rule hr (hx.replaceWith fun t ht => .of_rule (hproxy hlen t ht) (reads_letter.2 rfl))
  · rw [isolateWith_of_ne hlen] at hr
    exact .of_rule hr hx

/-- No word is lost. -/
theorem generates_of (h : Isolates G proxy H) {A : Nonterminal} {x : Word} (hx : G.Generates A x) :
    H.Generates A x :=
  hx.interpret fun r hr _ hread => generates_of_isolated (h.isolated_mem hr)
    (fun hlen _ ht => h.proxy_mem (Grammar.mem_pairedTerminals.2 ⟨r, hr, hlen, ht⟩)) hread

/-- Nor is a word that is derived without an empty body. -/
theorem generates_withoutEmptyBodies_of (h : Isolates G proxy H) {A : Nonterminal} {x : Word}
    (hx : G.withoutEmptyBodies.Generates A x) : H.withoutEmptyBodies.Generates A x := by
  refine hx.interpret fun r hr y hread => ?_
  obtain ⟨hrule, hne⟩ := Grammar.mem_withoutEmptyBodies.1 hr
  refine generates_of_isolated
    (Grammar.mem_withoutEmptyBodies.2 ⟨h.isolated_mem hrule, isolateWith_body_ne_nil hne⟩) (fun hlen t ht => ?_) hread
  exact Grammar.mem_withoutEmptyBodies.2
    ⟨h.proxy_mem (Grammar.mem_pairedTerminals.2 ⟨r, hrule, hlen, ht⟩), by simp⟩

/-- What the nonterminals of `H` stand for: those of `G` for their words, a proxy for its terminal. -/
private def meaning (G : Grammar) (proxy : Terminal → Nonterminal) : Interpretation := fun A x =>
  (A ∈ G.nonterminals → G.Generates A x) ∧ ∀ t ∈ G.pairedTerminals, A = proxy t → x = [t]

private theorem meaning_of_generates (h : Isolates G proxy H) {A : Nonterminal} (hA : A ∈ G.nonterminals) {x : Word}
    (hx : G.Generates A x) : meaning G proxy A x := by
  refine ⟨fun _ => hx, fun t ht e => ?_⟩
  rw [e] at hA
  exact absurd hA (h.fresh t ht)

/-- No declared nonterminal gains a word. -/
theorem generates (h : Isolates G proxy H) (hG : G.Valid) {A : Nonterminal} (hA : A ∈ G.nonterminals) {x : Word}
    (hx : H.Generates A x) : G.Generates A x := by
  have hmeaning : meaning G proxy A x := by
    refine hx.interpret fun q hq y hy => ?_
    rcases (h.productions q).1 hq with ⟨r, hr, rfl⟩ | ⟨t, ht, rfl⟩
    · -- A rule of `G` is closed as it stands, and reading its proxies as their terminals changes nothing.
      have howner : ∀ z, Reads (meaning G proxy) r.body z → meaning G proxy r.owner z := by
        intro z hz
        refine h.meaning_of_generates (hG.owner r hr) (.of_rule hr ?_)
        exact hz.imp fun B hB _ hword => hword.1 (hG.body r hr _ hB)
      by_cases hlen : r.body.length = 2
      · rw [isolateWith_of_eq hlen] at hy ⊢
        refine howner y (Reads.of_replaceWith (fun t ht z hz => ?_) hy)
        exact hz.2 t (Grammar.mem_pairedTerminals.2 ⟨r, hr, hlen, ht⟩) rfl
      · rw [isolateWith_of_ne hlen] at hy ⊢
        exact howner y hy
    · refine ⟨fun hmem => absurd hmem (h.fresh t ht), fun u hu e => ?_⟩
      rw [← h.injective t ht u hu e]
      exact reads_letter.1 hy
  exact hmeaning.1 hA

end Isolates

end NormalGrammar
