import Mathlib.Data.List.DropRight
import NormalGrammar.FreshNames

/-!
# New names are new

A numbered name ends in the digits of its number, in front of which stands no digit, so the number can be read off the
name (`lastNumber_numbered`, `lastNumber_numberedProxy`) and the numbered names are all different.  Hence the search for
a free one ends, at the first number whose name is not taken (`isFirstFree_firstFree`).  So a request for a new name is
met by the plain name of a proxy, or else by the first number whose name the grammar does not declare (`drawn_draw`).
Whatever nonterminal a draft draws is declared by it afterwards and was no name of its grammar before.
-/

namespace NormalGrammar

namespace Name

/-- The number that the digits at the end of a name write. -/
def lastNumber (name : Name) : Nat := Nat.ofDigitChars 10 (name.text.toList.rtakeWhile Char.isDigit) 0

theorem isDigit_of_mem_repr {n : Nat} {c : Char} (hc : c ∈ n.repr.toList) : c.isDigit = true := by
  rw [Nat.toList_repr] at hc
  exact Nat.isDigit_of_mem_toDigits (by decide : 0 < 10) (by decide) hc

/-- The digits of a number are found at the end of a text if no digit stands before them. -/
private theorem rtakeWhile_repr (front : List Char) {c : Char} (hc : c.isDigit = false) (n : Nat) :
    (front ++ c :: n.repr.toList).rtakeWhile Char.isDigit = n.repr.toList := by
  have hdigits : ∀ d ∈ n.repr.toList.reverse, d.isDigit = true := fun d hd =>
    isDigit_of_mem_repr (List.mem_reverse.1 hd)
  have hreverse : (front ++ c :: n.repr.toList).reverse = n.repr.toList.reverse ++ c :: front.reverse := by simp
  rw [List.rtakeWhile, hreverse, List.takeWhile_append_of_pos hdigits,
    List.takeWhile_cons_of_neg (by simp [hc]), List.append_nil, List.reverse_reverse]

private theorem lastNumber_eq {name : Name} {front : List Char} {c : Char} {n : Nat} (hc : c.isDigit = false)
    (hname : name.text.toList = front ++ c :: n.repr.toList) : name.lastNumber = n := by
  rw [lastNumber, hname, rtakeWhile_repr front hc]
  simp

theorem lastNumber_numbered (n : Nat) : (numbered n).lastNumber = n := by
  have hchars : (numbered n).text.toList = [] ++ 'X' :: n.repr.toList := String.toList_append
  exact lastNumber_eq (by decide) hchars

/-- Whatever the terminal, the number stands behind the last underscore. -/
theorem lastNumber_numberedProxy (t : Terminal) (n : Nat) : (numberedProxy t n).lastNumber = n := by
  have hchars : (numberedProxy t n).text.toList = ("T_".toList ++ t.text.toList) ++ '_' :: n.repr.toList := by
    show ("T_" ++ (t.text ++ "_" ++ n.repr)).toList = _
    simp
  exact lastNumber_eq (by decide) hchars

end Name

/-! ### The search for a free name -/

/-- From `start` on, `n` is the first number whose candidate is not taken. -/
structure IsFirstFree (candidate : Nat → Name) (taken : List Name) (start n : Nat) : Prop where
  le : start ≤ n
  near : n ≤ start + taken.length
  tried : ∀ m, start ≤ m → m < n → candidate m ∈ taken
  free : candidate n ∉ taken

/-- The search ends at the first free candidate. -/
theorem isFirstFree_firstFree {candidate : Nat → Name} (hinj : ∀ m n, candidate m = candidate n → m = n)
    (taken : List Name) (start : Nat) : IsFirstFree candidate taken start (firstFree candidate taken start) := by
  fun_induction firstFree candidate taken start with
  | case1 taken n h ih =>
    have hlength := List.length_erase_of_mem h
    have hpos := List.length_pos_of_mem h
    refine ⟨?_, ?_, fun m hm hlt => ?_, fun hmem => ih.free ?_⟩
    · exact Nat.le_of_succ_le ih.le
    · have hnear := ih.near
      omega
    · rcases Nat.eq_or_lt_of_le hm with rfl | hm
      · exact h
      · exact List.mem_of_mem_erase (ih.tried m hm hlt)
    · -- The candidates from here on differ from the one that was crossed out.
      refine (List.mem_erase_of_ne fun e => ?_).2 hmem
      have hle := ih.le
      have hsame := hinj _ _ e
      omega
  | case2 taken n h => exact ⟨Nat.le_refl n, Nat.le_add_right n _, fun m hm hlt => absurd hlt (by omega), h⟩

/-! ### One request -/

/-- What a source of names is asked for, and the grammar in which the name has to be new. -/
inductive NameRequest
  | numbered (G : Grammar)
  | proxy (t : Terminal) (G : Grammar)
  deriving DecidableEq

namespace NameRequest

def grammar : NameRequest → Grammar
  | numbered G => G
  | proxy _ G => G

/-- The names that can meet the request, by their numbers. -/
def candidate : NameRequest → Nat → Name
  | numbered _ => Name.numbered
  | proxy t _ => Name.numberedProxy t

/-- A name with a number is asked for, or the plain name of the proxy is in use. -/
def NeedsNumber : NameRequest → Prop
  | numbered _ => True
  | proxy t G => G.declares (.proxy t)

/-- The name that is drawn, and the source of names afterwards. -/
def draw (names : FreshNames) : NameRequest → Nonterminal × FreshNames
  | numbered G => names.draw G
  | proxy t G => names.drawProxy G t

end NameRequest

/-- How a source of names meets a request: by a name, with a source of names for the next request. -/
inductive Drawn (names : FreshNames) : NameRequest → Nonterminal → FreshNames → Prop
  | plain {t : Terminal} {G : Grammar} (free : ¬ G.declares (.proxy t)) : Drawn names (.proxy t G) ⟨.proxy t⟩ names
  | number {r : NameRequest} {n : Nat} (needed : r.NeedsNumber)
      (first : IsFirstFree r.candidate r.grammar.names names.next n) : Drawn names r ⟨r.candidate n⟩ ⟨n + 1⟩

theorem NameRequest.lastNumber_candidate (r : NameRequest) (n : Nat) : (r.candidate n).lastNumber = n := by
  cases r with
  | numbered G => exact Name.lastNumber_numbered n
  | proxy t G => exact Name.lastNumber_numberedProxy t n

theorem NameRequest.candidate_injective (r : NameRequest) {m n : Nat} (h : r.candidate m = r.candidate n) : m = n := by
  rw [← r.lastNumber_candidate m, h, r.lastNumber_candidate]

theorem drawn_draw (names : FreshNames) (r : NameRequest) : Drawn names r (r.draw names).1 (r.draw names).2 := by
  have hfirst := isFirstFree_firstFree (fun _ _ => r.candidate_injective) r.grammar.names names.next
  cases r with
  | numbered G => exact .number trivial hfirst
  | proxy t G =>
    by_cases h : G.declares (.proxy t)
    · have hdraw : names.drawProxy G t = (⟨.numberedProxy t (firstFree (.numberedProxy t) G.names names.next)⟩,
          ⟨firstFree (.numberedProxy t) G.names names.next + 1⟩) := if_pos h
      show Drawn names _ (names.drawProxy G t).1 (names.drawProxy G t).2
      rw [hdraw]
      exact .number h hfirst
    · have hdraw : names.drawProxy G t = (⟨.proxy t⟩, names) := if_neg h
      show Drawn names _ (names.drawProxy G t).1 (names.drawProxy G t).2
      rw [hdraw]
      exact .plain h

namespace Drawn

variable {names after : FreshNames} {r : NameRequest} {X : Nonterminal}

theorem undeclared (h : Drawn names r X after) : ¬ r.grammar.declares X.name := by
  cases h with
  | plain free => exact free
  | number needed first => exact fun h => first.free (of_decide_eq_true h)

theorem next_le (h : Drawn names r X after) : names.next ≤ after.next := by
  cases h with
  | plain free => exact Nat.le_refl _
  | number needed first => exact Nat.le_succ_of_le first.le

/-- No more numbers are tried than the grammar has names, and the one that is free. -/
theorem next_near (h : Drawn names r X after) : after.next ≤ names.next + r.grammar.names.length + 1 := by
  cases h with
  | plain free => omega
  | number needed first => exact Nat.succ_le_succ first.near

/-- The number of a name lies between the number to be tried before and the one to be tried afterwards. -/
theorem lastNumber_range (h : Drawn names r X after) (hneeds : r.NeedsNumber) :
    names.next ≤ X.name.lastNumber ∧ X.name.lastNumber < after.next := by
  cases h with
  | plain free => exact absurd hneeds free
  | number needed first =>
    rw [r.lastNumber_candidate]
    exact ⟨first.le, Nat.lt_succ_self _⟩

end Drawn

namespace FreshNames

theorem not_declares_draw (names : FreshNames) (G : Grammar) : ¬ G.declares (names.draw G).1.name :=
  (drawn_draw names (.numbered G)).undeclared

theorem not_declares_drawProxy (names : FreshNames) (G : Grammar) (t : Terminal) :
    ¬ G.declares (names.drawProxy G t).1.name :=
  (drawn_draw names (.proxy t G)).undeclared

end FreshNames

/-! ### Drafts -/

namespace Draft

variable {d : Draft}

@[simp] theorem withProductions_nonterminals {rules : List (Rule Body)} :
    (d.withProductions rules).grammar.nonterminals = d.grammar.nonterminals := rfl

@[simp] theorem mem_withProductions {rules : List (Rule Body)} {r : Rule Body} :
    r ∈ (d.withProductions rules).grammar.productions ↔ r ∈ rules :=
  OrderedSet.mem_ofList

/-- `e` declares the nonterminals `Xs` beyond those of `d`, none of them with the name of a terminal. -/
structure Adds (d : Draft) (Xs : List Nonterminal) (e : Draft) : Prop where
  start : e.grammar.start = d.grammar.start
  terminals : e.grammar.terminals = d.grammar.terminals
  productions : e.grammar.productions = d.grammar.productions
  nonterminals : e.grammar.nonterminals.toList = d.grammar.nonterminals.toList ++ Xs
  notTerminal : ∀ X ∈ Xs, ⟨X.name⟩ ∉ d.grammar.terminals.toList

theorem Adds.refl (d : Draft) : d.Adds [] d :=
  ⟨rfl, rfl, rfl, by simp, by simp⟩

theorem Adds.trans {e f : Draft} {Xs Ys : List Nonterminal} (h : d.Adds Xs e) (h' : e.Adds Ys f) :
    d.Adds (Xs ++ Ys) f where
  start := h'.start.trans h.start
  terminals := h'.terminals.trans h.terminals
  productions := h'.productions.trans h.productions
  nonterminals := by rw [h'.nonterminals, h.nonterminals, List.append_assoc]
  notTerminal := by
    intro X hX
    rcases List.mem_append.1 hX with hX | hX
    · exact h.notTerminal X hX
    · rw [← h.terminals]
      exact h'.notTerminal X hX

theorem Adds.nodup {e : Draft} {Xs : List Nonterminal} (h : d.Adds Xs e) : Xs.Nodup := by
  have hnodup := e.grammar.nonterminals.nodup
  rw [h.nonterminals, List.nodup_append] at hnodup
  exact hnodup.2.1

/-- What is declared anew was not declared before. -/
theorem Adds.fresh {e : Draft} {Xs : List Nonterminal} (h : d.Adds Xs e) {X : Nonterminal} (hX : X ∈ Xs) :
    ¬ X ∈ d.grammar.nonterminals := by
  exact OrderedSet.not_mem_of_toList_append h.nonterminals hX

theorem Adds.undeclared {e : Draft} {Xs : List Nonterminal} (h : d.Adds Xs e) {X : Nonterminal} (hX : X ∈ Xs) :
    ¬ d.grammar.declares X.name := by
  rw [Grammar.declares_iff, not_or]
  exact ⟨h.fresh hX, h.notTerminal X hX⟩

theorem Adds.mem_nonterminals {e : Draft} {Xs : List Nonterminal} (h : d.Adds Xs e) {A : Nonterminal} :
    A ∈ e.grammar.nonterminals ↔ A ∈ d.grammar.nonterminals ∨ A ∈ Xs := by
  rw [← OrderedSet.mem_toList, h.nonterminals, List.mem_append, OrderedSet.mem_toList]

private theorem adds_declare {names : FreshNames} {X : Nonterminal} (hX : ¬ d.grammar.declares X.name) :
    d.Adds [X] (declare ⟨d.grammar, names⟩ X) := by
  rw [Grammar.declares_iff, not_or] at hX
  refine ⟨rfl, rfl, rfl, OrderedSet.toList_insert_of_not_mem hX.1, fun Y hY => ?_⟩
  rw [List.mem_singleton.1 hY]
  exact hX.2

theorem adds_newNonterminal (d : Draft) : d.Adds [d.newNonterminal.1] d.newNonterminal.2 :=
  adds_declare (d.names.not_declares_draw d.grammar)

theorem adds_newProxy (d : Draft) (t : Terminal) : d.Adds [(d.newProxy t).1] (d.newProxy t).2 :=
  adds_declare (d.names.not_declares_drawProxy d.grammar t)

end Draft

end NormalGrammar
