import Mathlib.Data.List.Forall2
import NormalGrammar.Reader
import NormalGrammar.Proofs.ScanLines

/-!
# Reading what is written

A text is read only as a whole, and a grammar is read line by line, up to the first line that cannot be read.  So a
grammar is read if and only if its start symbol and all its lines are written as the notation says, and what is reported
otherwise is the first text that is not (`read_exactly`).
-/

namespace NormalGrammar

open Notation

section

variable {α β ε : Type}

theorem mapM_eq_ok {f : α → Except ε β} {l : List α} {m : List β} :
    l.mapM f = .ok m ↔ List.Forall₂ (fun a b => f a = .ok b) l m := by
  induction l generalizing m with
  | nil =>
    rw [List.mapM_nil, List.forall₂_nil_left_iff]
    exact ⟨fun h => (Except.ok.inj h).symm, fun h => h ▸ rfl⟩
  | cons a l ih =>
    rw [List.mapM_cons, List.forall₂_cons_left_iff]
    cases ha : f a with
    | error e =>
      refine iff_of_false (fun h => by cases h) ?_
      rintro ⟨b, m', hb, -⟩
      cases hb
    | ok b =>
      cases hl : l.mapM f with
      | error e =>
        refine iff_of_false (fun h => by simp [bind, Except.bind] at h) ?_
        rintro ⟨b, m', -, hm, -⟩
        rw [ih.2 hm] at hl
        cases hl
      | ok m' =>
        constructor
        · intro h
          exact ⟨b, m', rfl, ih.1 hl, (Except.ok.inj h).symm⟩
        · rintro ⟨b', m'', hb, hm, rfl⟩
          rw [ih.2 hm] at hl
          cases hb
          cases hl
          rfl

/-- An error is that of the first element that has one. -/
theorem exists_of_mapM_eq_error {f : α → Except ε β} {l : List α} {e : ε} (h : l.mapM f = .error e) :
    ∃ front a rest, l = front ++ a :: rest ∧ (∀ b ∈ front, ∃ m, f b = .ok m) ∧ f a = .error e := by
  induction l with
  | nil => cases h
  | cons a l ih =>
    rw [List.mapM_cons] at h
    cases ha : f a with
    | error e' =>
      rw [ha] at h
      cases h
      exact ⟨[], a, l, rfl, by simp, ha⟩
    | ok b =>
      rw [ha] at h
      cases hl : l.mapM f with
      | error e' =>
        simp only [bind, Except.bind, hl] at h
        cases h
        obtain ⟨front, a', rest, rfl, hfront, ha'⟩ := ih hl
        refine ⟨a :: front, a', rest, rfl, ?_, ha'⟩
        exact List.forall_mem_cons.2 ⟨⟨b, ha⟩, hfront⟩
      | ok m =>
        simp only [bind, Except.bind, hl] at h
        cases h

end

theorem readAll_eq_ok {α : Type} {scan : List Char → Scan α} {text : String} {a : α} :
    readAll scan text = .ok a ↔ scan text.toList = .ok (a, []) := by
  unfold readAll
  rcases scan text.toList with e | ⟨b, _ | ⟨c, cs⟩⟩ <;> simp [Scan.complete, Except.mapError]

theorem text_of_readAll {α : Type} {scan : List Char → Scan α} {text : String} {e : Misread}
    (h : readAll scan text = .error e) : e.text = text := by
  unfold readAll at h
  cases hscan : (scan text.toList).complete with
  | ok a =>
    rw [hscan] at h
    cases h
  | error cs =>
    rw [hscan] at h
    cases h
    rfl

/-- What is left behind the front that was read is reported. -/
theorem readAll_eq_error {α : Type} {scan : List Char → Scan α} {text : String} {a : α} {rest : List Char}
    (h : scan text.toList = .ok (a, rest)) (hne : rest ≠ []) : readAll scan text = .error ⟨text, rest⟩ := by
  obtain ⟨c, cs, rfl⟩ := List.exists_cons_of_ne_nil hne
  unfold readAll
  rw [h]
  rfl

theorem Body.read_eq_ok {text : String} {w : Body} : Body.read text = .ok w ↔ BodyText text.toList w :=
  readAll_eq_ok.trans Scan.body_eq_ok

namespace Grammar

variable {start : String} {lines : List String}

theorem readAll_owner {S : Nonterminal} : readAll Scan.owner start = .ok S ↔ OwnerText start.toList S :=
  readAll_eq_ok.trans Scan.owner_eq_ok

theorem readAll_production {line : String} {rules : List (Rule Body)} :
    readAll Scan.production line = .ok rules ↔ ProductionText line.toList rules :=
  readAll_eq_ok.trans Scan.production_eq_ok

theorem read_eq_ok {G : Grammar} : read start lines = .ok G ↔ ∃ S rules, OwnerText start.toList S ∧
    List.Forall₂ (fun line rules => ProductionText line.toList rules) lines rules ∧
      G = (ofStart S).addAll rules.flatten := by
  simp only [← readAll_owner, ← readAll_production, ← mapM_eq_ok]
  unfold read
  cases readAll Scan.owner start with
  | error e =>
    refine iff_of_false (fun h => by cases h) ?_
    rintro ⟨S, rules, hS, -⟩
    cases hS
  | ok S =>
    cases hlines : lines.mapM (readAll Scan.production) with
    | error e =>
      refine iff_of_false (fun h => by simp [bind, Except.bind] at h) ?_
      rintro ⟨T, rules, -, hrules, -⟩
      cases hrules
    | ok rules =>
      simp only [bind, Except.bind]
      constructor
      · intro h
        exact ⟨S, rules, rfl, rfl, (Except.ok.inj h).symm⟩
      · rintro ⟨T, rules', hT, hrules, rfl⟩
        cases hT
        cases hrules
        rfl

theorem read_eq_error {e : Misread} (h : read start lines = .error e) :
    readAll Scan.owner start = .error e ∨
      ((∃ S, readAll Scan.owner start = .ok S) ∧ lines.mapM (readAll Scan.production) = .error e) := by
  unfold read at h
  cases hstart : readAll Scan.owner start with
  | error e' =>
    rw [hstart] at h
    cases h
    exact Or.inl rfl
  | ok S =>
    cases hlines : lines.mapM (readAll Scan.production) with
    | error e' =>
      simp only [bind, Except.bind, hstart, hlines] at h
      cases h
      exact Or.inr ⟨⟨S, rfl⟩, rfl⟩
    | ok rules =>
      simp only [bind, Except.bind, hstart, hlines] at h
      cases h

/-- A list of texts for something has the things in a row. -/
private theorem exists_forall₂ {α β : Type} {R : α → β → Prop} {l : List α} :
    (∃ m, List.Forall₂ R l m) ↔ ∀ a ∈ l, ∃ b, R a b := by
  induction l with
  | nil => simp
  | cons a l ih =>
    rw [List.forall_mem_cons, ← ih]
    constructor
    · rintro ⟨_, hm⟩
      cases hm with
      | cons hb hm => exact ⟨⟨_, hb⟩, _, hm⟩
    · rintro ⟨⟨b, hb⟩, m, hm⟩
      exact ⟨b :: m, .cons hb hm⟩

/-- Lines can stand for one list of rules only. -/
private theorem lines_unique {rules rules' : List (List (Rule Body))}
    (h : List.Forall₂ (fun line rules => ProductionText line.toList rules) lines rules)
    (h' : List.Forall₂ (fun line rules => ProductionText line.toList rules) lines rules') : rules = rules' := by
  have hunique : Relator.RightUnique fun (line : String) rules => ProductionText line.toList rules :=
    fun _ _ _ => Scan.productionText_unique
  exact List.right_unique_forall₂' hunique h h'

/-- A grammar is read if and only if its start symbol and all its lines are written as the notation says.  It is then the
start symbol with the rules of the lines added in order, and as a name is never followed by a digit or a prime, these
are the only rules that the lines can stand for.  Otherwise the start symbol, or else the first line that is not
written so, is reported. -/
theorem read_exactly (start : String) (lines : List String) :
    ((∃ G, read start lines = .ok G) ↔
      (∃ S, OwnerText start.toList S) ∧ ∀ line ∈ lines, ∃ rules, ProductionText line.toList rules) ∧
    (∀ G, read start lines = .ok G ↔ ∃ S rules, OwnerText start.toList S ∧
      List.Forall₂ (fun line rules => ProductionText line.toList rules) lines rules ∧
        G = (ofStart S).addAll rules.flatten) ∧
    (∀ S T, OwnerText start.toList S → OwnerText start.toList T → S = T) ∧
    (∀ rules rules', List.Forall₂ (fun line rules => ProductionText line.toList rules) lines rules →
      List.Forall₂ (fun line rules => ProductionText line.toList rules) lines rules' → rules = rules') ∧
    ∀ e, read start lines = .error e →
      ((¬ ∃ S, OwnerText start.toList S) ∧ e.text = start) ∨
      ((∃ S, OwnerText start.toList S) ∧ ∃ front line rest, lines = front ++ line :: rest ∧
        (∀ l ∈ front, ∃ rules, ProductionText l.toList rules) ∧
        (¬ ∃ rules, ProductionText line.toList rules) ∧ e.text = line) := by
  refine ⟨?_, fun G => read_eq_ok, fun S T => Scan.ownerText_unique, fun rules rules' => lines_unique, fun e h => ?_⟩
  · rw [← exists_forall₂]
    constructor
    · rintro ⟨G, hG⟩
      obtain ⟨S, rules, hS, hrules, -⟩ := read_eq_ok.1 hG
      exact ⟨⟨S, hS⟩, rules, hrules⟩
    · rintro ⟨⟨S, hS⟩, rules, hrules⟩
      exact ⟨_, read_eq_ok.2 ⟨S, rules, hS, hrules, rfl⟩⟩
  · rcases read_eq_error h with hstart | ⟨⟨S, hS⟩, hlines⟩
    · refine Or.inl ⟨?_, text_of_readAll hstart⟩
      rintro ⟨S, hS⟩
      rw [readAll_owner.2 hS] at hstart
      cases hstart
    · obtain ⟨front, line, rest, rfl, hfront, hline⟩ := exists_of_mapM_eq_error hlines
      refine Or.inr ⟨⟨S, readAll_owner.1 hS⟩, front, line, rest, rfl, fun l hl => ?_, ?_, text_of_readAll hline⟩
      · obtain ⟨rules, hrules⟩ := hfront l hl
        exact ⟨rules, readAll_production.1 hrules⟩
      · rintro ⟨rules, hrules⟩
        rw [readAll_production.2 hrules] at hline
        cases hline

/-- `S → aB1`, `S → ε` and `B1 → b` with the symbols that occur in them. -/
def threeRules : Grammar :=
  let S : Nonterminal := ⟨.ofChar 'S'⟩
  let B1 : Nonterminal := ⟨.ofChars 'B' ['1']⟩
  let a : Terminal := ⟨.ofChar 'a'⟩
  let b : Terminal := ⟨.ofChar 'b'⟩
  .ofParts S [S, B1] [a, b] [⟨S, [.terminal a, .nonterminal B1]⟩, ⟨S, []⟩, ⟨B1, [.terminal b]⟩]

/-- Two lines are read as the rules that are written in them.  A bar that no body follows makes a line unreadable, and the
lines behind it are not looked at. -/
theorem read_exactly_bar :
    (read "S" ["S → a B1|epsilon", "B1 -> b "] = .ok threeRules ∧
      ∃ S rules, OwnerText "S".toList S ∧
        List.Forall₂ (fun line rules => ProductionText line.toList rules) ["S → a B1|epsilon", "B1 -> b "] rules ∧
          threeRules = (ofStart S).addAll rules.flatten) ∧
    read "S" ["S → a B1|epsilon", "B1 -> b |", "b"] = .error ⟨"B1 -> b |", ['|']⟩ ∧
    ((¬ ∃ S, OwnerText "S".toList S) ∧ "B1 -> b |" = "S" ∨
      (∃ S, OwnerText "S".toList S) ∧ ∃ front line rest,
        ["S → a B1|epsilon", "B1 -> b |", "b"] = front ++ line :: rest ∧
        (∀ l ∈ front, ∃ rules, ProductionText l.toList rules) ∧
        (¬ ∃ rules, ProductionText line.toList rules) ∧ "B1 -> b |" = line) := by
  have hrules : read "S" ["S → a B1|epsilon", "B1 -> b "] = .ok threeRules := by decide +kernel
  have hbar : read "S" ["S → a B1|epsilon", "B1 -> b |", "b"] = .error ⟨"B1 -> b |", ['|']⟩ := by decide +kernel
  exact ⟨⟨hrules, ((read_exactly _ _).2.1 _).1 hrules⟩, hbar, (read_exactly _ _).2.2.2.2 _ hbar⟩

end Grammar

end NormalGrammar
