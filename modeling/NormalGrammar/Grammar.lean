import NormalGrammar.Rule

/-!
# Context-free grammars

A grammar declares its start symbol, its nonterminals and terminals, and has productions.  Nothing is declared on
the caller's behalf by `ofParts`, while `add` declares every symbol of the production that it adds.  All parts keep
their order, and `G ≈ H` compares two grammars without it.
-/

namespace NormalGrammar

structure Grammar where
  start : Nonterminal
  nonterminals : OrderedSet Nonterminal
  terminals : OrderedSet Terminal
  productions : Productions Body
  deriving DecidableEq

namespace Grammar

/-- The grammar that declares its start symbol and has no productions. -/
def ofStart (S : Nonterminal) : Grammar :=
  ⟨S, .singleton S, .empty, .empty⟩

def ofParts (start : Nonterminal) (nonterminals : List Nonterminal) (terminals : List Terminal)
    (rules : List (Rule Body)) : Grammar :=
  ⟨start, .ofList nonterminals, .ofList terminals, .ofList rules⟩

/-- Adds a production and declares the symbols of its body, then its owner. -/
def add (G : Grammar) (r : Rule Body) : Grammar where
  start := G.start
  nonterminals := (G.nonterminals.insertAll r.body.nonterminals).insert r.owner
  terminals := G.terminals.insertAll r.body.terminals
  productions := G.productions.insert r

def addAll (G : Grammar) (rules : List (Rule Body)) : Grammar := rules.foldl add G

/-! ### Views -/

/-- All productions, owner by owner. -/
def rules (G : Grammar) : List (Rule Body) := G.productions.rules

def owners (G : Grammar) : OrderedSet Nonterminal := G.productions.owners

def bodies (G : Grammar) (A : Nonterminal) : OrderedSet Body := G.productions.bodies A

/-- All declared names, those of the nonterminals first. -/
def names (G : Grammar) : List Name :=
  G.nonterminals.toList.map Nonterminal.name ++ G.terminals.toList.map Terminal.name

/-- Whether `name` is in use as a nonterminal or as a terminal. -/
def declares (G : Grammar) (name : Name) : Bool := decide (name ∈ G.names)

/-- The nonterminals that own an empty body. -/
def erasingOwners (G : Grammar) : OrderedSet Nonterminal := G.owners.filter fun A => decide ([] ∈ G.bodies A)

/-- Whether the start symbol owns no body. -/
def startOwnsNothing (G : Grammar) : Bool := (G.bodies G.start).isEmpty

/-- Keeps the declared terminals that still occur in a body. -/
def withUsedTerminals (G : Grammar) : Grammar :=
  { G with terminals := G.terminals.filter fun t => G.rules.any fun r => decide (t ∈ r.body.terminals) }

@[simp] theorem mem_rules {G : Grammar} {r : Rule Body} : r ∈ G.rules ↔ r ∈ G.productions :=
  Productions.mem_rules

@[simp] theorem mem_owners {G : Grammar} {A : Nonterminal} : A ∈ G.owners ↔ ∃ w, ⟨A, w⟩ ∈ G.productions :=
  Productions.mem_owners

@[simp] theorem mem_bodies {G : Grammar} {A : Nonterminal} {w : Body} :
    w ∈ G.bodies A ↔ ⟨A, w⟩ ∈ G.productions :=
  Productions.mem_bodies

theorem declares_iff {G : Grammar} {name : Name} :
    G.declares name ↔ ⟨name⟩ ∈ G.nonterminals ∨ ⟨name⟩ ∈ G.terminals := by
  simp only [declares, names, decide_eq_true_eq, List.mem_append, List.mem_map, OrderedSet.mem_toList]
  constructor
  · rintro (⟨A, hA, rfl⟩ | ⟨t, ht, rfl⟩)
    · exact Or.inl hA
    · exact Or.inr ht
  · exact fun h => h.imp (fun hA => ⟨_, hA, rfl⟩) (fun ht => ⟨_, ht, rfl⟩)

/-! ### Equality without order -/

/-- Same start symbol and, without regard to order, the same symbols and productions. -/
structure Equivalent (G H : Grammar) : Prop where
  start : G.start = H.start
  nonterminals : G.nonterminals.SameElements H.nonterminals
  terminals : G.terminals.SameElements H.terminals
  productions : G.productions.SameElements H.productions

instance : HasEquiv Grammar := ⟨Equivalent⟩

theorem equiv_iff {G H : Grammar} : G ≈ H ↔
    G.start = H.start ∧ G.nonterminals.SameElements H.nonterminals ∧
      G.terminals.SameElements H.terminals ∧ G.productions.SameElements H.productions :=
  ⟨fun h => ⟨h.start, h.nonterminals, h.terminals, h.productions⟩, fun h => ⟨h.1, h.2.1, h.2.2.1, h.2.2.2⟩⟩

theorem Equivalent.refl (G : Grammar) : G ≈ G :=
  ⟨rfl, fun _ => Iff.rfl, fun _ => Iff.rfl, fun _ => Iff.rfl⟩

theorem Equivalent.trans {G H K : Grammar} (h : G ≈ H) (h' : H ≈ K) : G ≈ K :=
  ⟨h.start.trans h'.start, fun A => (h.nonterminals A).trans (h'.nonterminals A),
    fun t => (h.terminals t).trans (h'.terminals t), fun r => (h.productions r).trans (h'.productions r)⟩

theorem Equivalent.symm {G H : Grammar} (h : G ≈ H) : H ≈ G :=
  ⟨h.start.symm, fun A => (h.nonterminals A).symm, fun t => (h.terminals t).symm, fun r => (h.productions r).symm⟩

instance (G H : Grammar) : Decidable (G ≈ H) := decidable_of_iff' _ equiv_iff

end Grammar

end NormalGrammar
