import Mathlib.Data.Set.Function
import NormalGrammar.Proofs.Contraction

/-!
# Putting terminals back

Isolation can be taken back.  A proxy owns its terminal and nothing else (`Isolates.bodies_proxy`), and the proxies are
in bijection with the terminals that stand beside another symbol (`Isolates.bijOn`).  So replacing each proxy by its body
makes a rule of every isolated rule again (`Isolates.contract_isolateWith`).  No two rules are mixed up by isolation
therefore, and those of the declared nonterminals are found again in their old order (`Isolates.contracted_eq`).
-/

namespace NormalGrammar

open Proxy

namespace Isolates

variable {G H : Grammar} {proxy : Terminal → Nonterminal}

/-! ### Proxies -/

theorem undeclared (h : Isolates G proxy H) {t : Terminal} (ht : t ∈ G.pairedTerminals) :
    ¬ G.declares (proxy t).name := by
  rw [Grammar.declares_iff, not_or]
  exact ⟨h.fresh t ht, h.notTerminal t ht⟩

/-- A proxy owns just its terminal. -/
theorem bodies_proxy (h : Isolates G proxy H) (hG : G.Valid) {t : Terminal} (ht : t ∈ G.pairedTerminals) :
    (H.bodies (proxy t)).toList = [[.terminal t]] := by
  have hmem : ∀ w, w ∈ (H.bodies (proxy t)).toList ↔ w ∈ [[Symbol.terminal t]] := by
    intro w
    rw [OrderedSet.mem_toList, Grammar.mem_bodies, h.productions, List.mem_singleton]
    constructor
    · rintro (⟨r, hr, e⟩ | ⟨u, hu, e⟩)
      · have howner : proxy t = r.owner := (congrArg Rule.owner e).trans isolateWith_owner
        exact absurd (howner ▸ hG.owner r hr) (h.fresh t ht)
      · obtain ⟨hproxy, hbody⟩ := Rule.mk.inj e
        rw [h.injective t ht u hu hproxy]
        exact hbody
    · rintro rfl
      exact Or.inr ⟨t, ht, rfl⟩
  refine List.perm_singleton.1 ?_
  exact (List.perm_ext_iff_of_nodup (H.bodies (proxy t)).nodup (List.nodup_singleton _)).2 hmem

theorem bijOn (h : Isolates G proxy H) :
    Set.BijOn proxy {t | t ∈ G.pairedTerminals} {P | P ∈ H.nonterminals ∧ ¬ P ∈ G.nonterminals} := by
  refine ⟨fun t ht => ?_, fun t ht u hu e => h.injective t ht u hu e, fun P hP => ?_⟩
  · exact ⟨(h.nonterminals _).2 (Or.inr ⟨t, ht, rfl⟩), h.fresh t ht⟩
  · obtain ⟨t, ht, rfl⟩ := ((h.nonterminals P).1 hP.1).resolve_left hP.2
    exact ⟨t, ht, rfl⟩

/-- Two symbols stand for nonterminals once their terminals are isolated. -/
theorem not_terminal_mem (h : Isolates G proxy H) {q : Rule Body} (hq : q ∈ H.productions) (hlen : q.body.length = 2)
    (t : Terminal) : .terminal t ∉ q.body := by
  rcases (h.productions q).1 hq with ⟨r, hr, rfl⟩ | ⟨u, hu, rfl⟩
  · rw [isolateWith_length] at hlen
    rw [isolateWith_of_eq hlen]
    intro ht
    obtain ⟨s, -, e⟩ := List.mem_map.1 ht
    cases s <;> cases e
  · simp at hlen

/-! ### Back to the rules -/

/-- Once proxies are replaced by their terminals, the body is the one that was isolated. -/
theorem contract_isolateWith (h : Isolates G proxy H) (hG : G.Valid) {r : Rule Body} (hr : r ∈ G.productions) :
    H.contract G.nonterminals (isolateWith proxy r).body = r.body := by
  have hkeeps : ∀ s ∈ r.body, Grammar.Keeps G.nonterminals s := fun s hs A e => hG.body r hr (.nonterminal A) (e ▸ hs)
  by_cases hlen : r.body.length = 2
  · have hsymbol : ∀ s ∈ r.body, H.contractSymbol G.nonterminals (replaceWith proxy s) = [s] := by
      intro s hs
      cases s with
      | terminal t =>
        have ht : t ∈ G.pairedTerminals := Grammar.mem_pairedTerminals.2 ⟨r, hr, hlen, hs⟩
        show (if proxy t ∈ G.nonterminals then _ else (H.bodies (proxy t)).toList.flatten) = _
        rw [if_neg (h.fresh t ht), h.bodies_proxy hG ht]
        rfl
      | nonterminal A => exact Grammar.contractSymbol_of_keeps (hkeeps _ hs)
    rw [isolateWith_of_eq hlen]
    calc (r.body.map (replaceWith proxy)).flatMap (H.contractSymbol G.nonterminals)
        = r.body.flatMap fun s => H.contractSymbol G.nonterminals (replaceWith proxy s) := List.flatMap_map ..
      _ = r.body.flatMap fun s => [s] := List.flatMap_congr hsymbol
      _ = r.body := List.flatMap_singleton' _
  · rw [isolateWith_of_ne hlen]
    exact Grammar.contract_eq_self hkeeps

/-- Isolation keeps different rules apart. -/
theorem isolateWith_inj (h : Isolates G proxy H) (hG : G.Valid) {r q : Rule Body} (hr : r ∈ G.productions)
    (hq : q ∈ G.productions) (e : isolateWith proxy r = isolateWith proxy q) : r = q := by
  calc r = ⟨(isolateWith proxy r).owner, H.contract G.nonterminals (isolateWith proxy r).body⟩ := by
        rw [isolateWith_owner, h.contract_isolateWith hG hr]
    _ = ⟨(isolateWith proxy q).owner, H.contract G.nonterminals (isolateWith proxy q).body⟩ := by rw [e]
    _ = q := by rw [isolateWith_owner, h.contract_isolateWith hG hq]

theorem nodup_rules (h : Isolates G proxy H) (hG : G.Valid) : (G.rules.map (isolateWith proxy) ++
    G.pairedTerminals.toList.map fun t => (⟨proxy t, [.terminal t]⟩ : Rule Body)).Nodup := by
  have hrules : G.rules.Nodup := G.productions.arranged.nodup
  rw [List.nodup_append]
  refine ⟨hrules.map_on fun r hr q hq => ?_, G.pairedTerminals.nodup.map_on fun t ht u hu e => ?_, ?_⟩
  · exact h.isolateWith_inj hG (Grammar.mem_rules.1 hr) (Grammar.mem_rules.1 hq)
  · exact h.injective t ht u hu (Rule.mk.inj e).1
  · intro q hisolated p hproxy e
    obtain ⟨r, hr, rfl⟩ := List.mem_map.1 hisolated
    obtain ⟨t, ht, rfl⟩ := List.mem_map.1 hproxy
    have howner : r.owner = proxy t := isolateWith_owner.symm.trans (congrArg Rule.owner e)
    exact h.fresh t ht (howner ▸ hG.owner r (Grammar.mem_rules.1 hr))

variable (hproductions : H.productions = .ofList (G.rules.map (isolateWith proxy) ++
  G.pairedTerminals.toList.map fun t => ⟨proxy t, [.terminal t]⟩))
include hproductions

/-- The rules of the declared nonterminals are the isolated ones, in their old order. -/
theorem filter_rules_eq (h : Isolates G proxy H) (hG : G.Valid) :
    H.rules.filter (fun r => decide (r.owner ∈ G.nonterminals)) = G.rules.map (isolateWith proxy) := by
  have hlist := (congrArg OrderedSet.toList hproductions).trans (OrderedSet.toList_ofList (h.nodup_rules hG))
  refine Productions.filter_rules_of_append hlist (fun r hr => ?_) (fun r hr => ?_)
    ((Productions.grouped_rules G.productions).map fun _ => isolateWith_owner)
  · obtain ⟨q, hq, rfl⟩ := List.mem_map.1 hr
    rw [isolateWith_owner]
    exact decide_eq_true (hG.owner q (Grammar.mem_rules.1 hq))
  · obtain ⟨t, ht, rfl⟩ := List.mem_map.1 hr
    exact decide_eq_false (h.fresh t ht)

/-- Bodies that do not have two symbols stay as they are, where they are. -/
theorem filter_rules_of_ne (h : Isolates G proxy H) (hG : G.Valid) :
    H.rules.filter (fun r => decide (r.owner ∈ G.nonterminals ∧ r.body.length ≠ 2)) =
      G.rules.filter fun r => decide (r.body.length ≠ 2) := by
  have hsplit : H.rules.filter (fun r => decide (r.owner ∈ G.nonterminals ∧ r.body.length ≠ 2)) =
      (H.rules.filter fun r => decide (r.owner ∈ G.nonterminals)).filter fun r => decide (r.body.length ≠ 2) := by
    rw [List.filter_filter]
    refine List.filter_congr fun r _ => ?_
    rw [Bool.decide_and, Bool.and_comm]
  have hlength : ((fun r : Rule Body => decide (r.body.length ≠ 2)) ∘ isolateWith proxy) =
      fun r => decide (r.body.length ≠ 2) := by
    funext r
    rw [Function.comp_apply, isolateWith_length]
  rw [hsplit, h.filter_rules_eq hproductions hG, List.filter_map, hlength]
  refine (List.map_congr_left fun r hr => ?_).trans (List.map_id _)
  exact isolateWith_of_ne (of_decide_eq_true (List.mem_filter.1 hr).2)

/-- Once the proxies are replaced, the rules are those from before. -/
theorem contracted_eq (h : Isolates G proxy H) (hG : G.Valid) : H.contracted G.nonterminals 1 = G.rules := by
  unfold Grammar.contracted
  rw [h.filter_rules_eq hproductions hG, List.map_map]
  refine (List.map_congr_left fun r hr => ?_).trans (List.map_id _)
  have hbody : (H.contract G.nonterminals)^[1] (isolateWith proxy r).body = r.body :=
    h.contract_isolateWith hG (Grammar.mem_rules.1 hr)
  simp only [Function.comp_apply, isolateWith_owner, hbody, id]

end Isolates

namespace Grammar

variable {G : Grammar}

/-- Isolation leaves no terminal in a body of two symbols and all other bodies where they are, keeps the words of every
declared nonterminal, and declares new ones behind the others, whatever number its names start from.  The new ones stand
for the terminals that bodies of two symbols had, one for each.  None of them has a name that was declared, and each
owns its terminal and nothing else.  Replacing them by their terminals gives back the rules in their old order. -/
theorem isolate_contracted (G : Grammar) (names : FreshNames) (h : G.validate = .ok ()) : ∃ H proxy,
    (Draft.isolate ⟨G, names⟩).grammar = H ∧
      H.nonterminals.toList = G.nonterminals.toList ++ G.pairedTerminals.toList.map proxy ∧
      Set.BijOn proxy {t | ∃ r ∈ G.productions, r.body.length = 2 ∧ .terminal t ∈ r.body}
        {P | P ∈ H.nonterminals ∧ ¬ P ∈ G.nonterminals} ∧
      (∀ r ∈ H.productions, r.body.length = 2 → ∀ t, .terminal t ∉ r.body) ∧
      H.rules.filter (fun r => decide (r.owner ∈ G.nonterminals ∧ r.body.length ≠ 2)) =
        G.rules.filter (fun r => decide (r.body.length ≠ 2)) ∧
      (∀ A ∈ G.nonterminals, ∀ x, H.Generates A x ↔ G.Generates A x) ∧
      (∀ r ∈ G.productions, r.body.length = 2 → ∀ t, .terminal t ∈ r.body →
        ¬ G.declares (proxy t).name ∧ (H.bodies (proxy t)).toList = [[.terminal t]]) ∧
      H.contracted G.nonterminals 1 = G.rules := by
  have hG := validate_eq_ok.1 h
  obtain ⟨proxy, hisolates, hnonterminals, hproductions⟩ := isolate_ordered ⟨G, names⟩
  have hbij := hisolates.bijOn
  simp only [mem_pairedTerminals] at hbij
  refine ⟨_, proxy, rfl, hnonterminals, hbij, fun r hr => hisolates.not_terminal_mem hr,
    hisolates.filter_rules_of_ne hproductions hG, fun A hA x => ?_, fun r hr hlen t hmem => ?_,
    hisolates.contracted_eq hproductions hG⟩
  · exact ⟨hisolates.generates hG hA, hisolates.generates_of⟩
  · have ht : t ∈ G.pairedTerminals := mem_pairedTerminals.2 ⟨r, hr, hlen, hmem⟩
    exact ⟨hisolates.undeclared ht, hisolates.bodies_proxy hG ht⟩

/-- `T_a` is in use, so that the `a` of `X1 → a T_a` becomes `T_a_1`. -/
theorem isolate_contracted_crowded : crowded.validate = .ok () ∧ ∃ H proxy,
    (Draft.isolate ⟨crowded, ⟨1⟩⟩).grammar = H ∧
      H.nonterminals.toList = crowded.nonterminals.toList ++ crowded.pairedTerminals.toList.map proxy ∧
      Set.BijOn proxy {t | ∃ r ∈ crowded.productions, r.body.length = 2 ∧ .terminal t ∈ r.body}
        {P | P ∈ H.nonterminals ∧ ¬ P ∈ crowded.nonterminals} ∧
      (∀ r ∈ H.productions, r.body.length = 2 → ∀ t, .terminal t ∉ r.body) ∧
      H.rules.filter (fun r => decide (r.owner ∈ crowded.nonterminals ∧ r.body.length ≠ 2)) =
        crowded.rules.filter (fun r => decide (r.body.length ≠ 2)) ∧
      (∀ A ∈ crowded.nonterminals, ∀ x, H.Generates A x ↔ crowded.Generates A x) ∧
      (∀ r ∈ crowded.productions, r.body.length = 2 → ∀ t, .terminal t ∈ r.body →
        ¬ crowded.declares (proxy t).name ∧ (H.bodies (proxy t)).toList = [[.terminal t]]) ∧
      H.contracted crowded.nonterminals 1 = crowded.rules := by
  have hvalid : crowded.validate = .ok () := by decide
  exact ⟨hvalid, isolate_contracted crowded ⟨1⟩ hvalid⟩

end Grammar

end NormalGrammar
