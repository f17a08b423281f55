import NormalGrammar.Grammar

/-!
# Validity

A grammar is valid if it declares its start symbol, every owner and every symbol of every body, each as what it is
used as, and declares no name both as a nonterminal and as a terminal.  `validate` reports the first violation: the
start symbol, then the terminals in order, then the productions in order, each with its owner before its body.  It
finds none exactly if the grammar is valid (`validate_eq_ok`).
-/

namespace NormalGrammar

/-- The ways in which a grammar can use its symbols without declaring them properly. -/
inductive ValidationError
  | undeclaredStart (S : Nonterminal)
  | undeclaredOwner (A : Nonterminal)
  | undeclaredNonterminal (rule : Rule Body) (A : Nonterminal)
  | undeclaredTerminal (rule : Rule Body) (t : Terminal)
  | ambiguous (name : Name)
  deriving DecidableEq

/-- How a production is written. -/
def Rule.text (r : Rule Body) : String := s!"{r.owner.text} → {r.body.text}"

def ValidationError.message : ValidationError → String
  | undeclaredStart S => s!"start symbol {S.text} is not a declared non-terminal"
  | undeclaredOwner A => s!"productions are given for {A.text}, which is not a declared non-terminal"
  | undeclaredNonterminal rule A => s!"production {rule.text} uses undeclared non-terminal {A.text}"
  | undeclaredTerminal rule t => s!"production {rule.text} uses undeclared terminal {t.text}"
  | ambiguous name => s!"symbol {name.text} is declared both as a terminal and as a non-terminal"

namespace Grammar

def DeclaresSymbol (G : Grammar) : Symbol → Prop
  | .terminal t => t ∈ G.terminals
  | .nonterminal A => A ∈ G.nonterminals

structure Valid (G : Grammar) : Prop where
  start : G.start ∈ G.nonterminals
  unambiguous : ∀ name, ¬ (⟨name⟩ ∈ G.terminals ∧ ⟨name⟩ ∈ G.nonterminals)
  owner : ∀ r ∈ G.productions, r.owner ∈ G.nonterminals
  body : ∀ r ∈ G.productions, ∀ s ∈ r.body, G.DeclaresSymbol s

/-- The error that the symbol `s` in the body of `r` gives rise to. -/
def symbolFault? (G : Grammar) (r : Rule Body) : Symbol → Option ValidationError
  | .terminal t => if t ∈ G.terminals then none else some (.undeclaredTerminal r t)
  | .nonterminal A => if A ∈ G.nonterminals then none else some (.undeclaredNonterminal r A)

/-- The first error in a production, its owner coming before its body. -/
def ruleFault? (G : Grammar) (r : Rule Body) : Option ValidationError :=
  if r.owner ∈ G.nonterminals then r.body.findSome? (G.symbolFault? r) else some (.undeclaredOwner r.owner)

/-- The first terminal that is a nonterminal too. -/
def ambiguousTerminal? (G : Grammar) : Option Terminal :=
  G.terminals.toList.find? fun t => decide (⟨t.name⟩ ∈ G.nonterminals)

def fault? (G : Grammar) : Option ValidationError :=
  if G.start ∈ G.nonterminals then
    match G.ambiguousTerminal? with
    | some t => some (.ambiguous t.name)
    | none => G.rules.findSome? G.ruleFault?
  else some (.undeclaredStart G.start)

def validate (G : Grammar) : Except ValidationError Unit :=
  match G.fault? with
  | some e => .error e
  | none => .ok ()

/-! ### Validity and the first violation -/

theorem symbolFault?_eq_none {G : Grammar} {r : Rule Body} {s : Symbol} :
    G.symbolFault? r s = none ↔ G.DeclaresSymbol s := by
  cases s <;> simp [symbolFault?, DeclaresSymbol]

theorem ruleFault?_eq_none {G : Grammar} {r : Rule Body} :
    G.ruleFault? r = none ↔ r.owner ∈ G.nonterminals ∧ ∀ s ∈ r.body, G.DeclaresSymbol s := by
  unfold ruleFault?
  split <;> simp_all [List.findSome?_eq_none_iff, symbolFault?_eq_none]

theorem ambiguousTerminal?_eq_none {G : Grammar} :
    G.ambiguousTerminal? = none ↔ ∀ name, ¬ (⟨name⟩ ∈ G.terminals ∧ ⟨name⟩ ∈ G.nonterminals) := by
  simp only [ambiguousTerminal?, List.find?_eq_none, decide_eq_true_eq, OrderedSet.mem_toList]
  exact ⟨fun h name hn => h ⟨name⟩ hn.1 hn.2, fun h t ht hn => h t.name ⟨ht, hn⟩⟩

theorem of_ambiguousTerminal?_eq_some {G : Grammar} {t : Terminal} (h : G.ambiguousTerminal? = some t) :
    t ∈ G.terminals ∧ ⟨t.name⟩ ∈ G.nonterminals := by
  unfold ambiguousTerminal? at h
  have hnonterminal := List.find?_some h
  exact ⟨List.mem_of_find?_eq_some h, of_decide_eq_true hnonterminal⟩

theorem fault?_eq_none {G : Grammar} : G.fault? = none ↔ G.Valid := by
  unfold fault?
  constructor
  · intro h
    split at h
    · rename_i hstart
      split at h
      · simp at h
      · rename_i hambiguous
        simp only [List.findSome?_eq_none_iff, mem_rules, ruleFault?_eq_none] at h
        exact ⟨hstart, ambiguousTerminal?_eq_none.1 hambiguous, fun r hr => (h r hr).1, fun r hr => (h r hr).2⟩
    · simp at h
  · intro h
    rw [if_pos h.start, ambiguousTerminal?_eq_none.2 h.unambiguous]
    simp only [List.findSome?_eq_none_iff, mem_rules, ruleFault?_eq_none]
    exact fun r hr => ⟨h.owner r hr, h.body r hr⟩

theorem validate_eq_ok {G : Grammar} : G.validate = .ok () ↔ G.Valid := by
  rw [← fault?_eq_none]
  unfold validate
  split <;> simp_all

end Grammar

end NormalGrammar
