import NormalGrammar.Proofs.Reading

/-!
# Derivation trees

A forest is a row of derivation trees: a leaf is a terminal, and a node is a nonterminal above the forest of a body.  A
derivation is a tree all of whose nodes stand above one of their bodies (`generates_iff_tree`), and what a derivation
must not do can be said of the nodes of its tree.
-/

namespace NormalGrammar

/-- Derivation trees side by side. -/
inductive Forest
  | empty
  | leaf (t : Terminal) (rest : Forest)
  | node (A : Nonterminal) (children rest : Forest)

namespace Forest

/-- The body that the roots make up. -/
def roots : Forest → Body
  | empty => []
  | leaf t rest => .terminal t :: rest.roots
  | node A _ rest => .nonterminal A :: rest.roots

/-- The word that the leaves make up. -/
def word : Forest → Word
  | empty => []
  | leaf t rest => t :: rest.word
  | node _ children rest => children.word ++ rest.word

/-- `p` holds of every node and the forest below it. -/
def Everywhere (p : Nonterminal → Forest → Prop) : Forest → Prop
  | empty => True
  | leaf _ rest => rest.Everywhere p
  | node A children rest => p A children ∧ children.Everywhere p ∧ rest.Everywhere p

/-- The words of the trees in which `p` holds everywhere, by their roots. -/
def words (p : Nonterminal → Forest → Prop) : Interpretation := fun A x =>
  ∃ children, p A children ∧ children.Everywhere p ∧ children.word = x

variable {p q : Nonterminal → Forest → Prop}

theorem roots_eq_nil {f : Forest} : f.roots = [] ↔ f = empty := by
  cases f <;> simp [roots]

theorem roots_eq_unit {f : Forest} {B : Nonterminal} :
    f.roots = [.nonterminal B] ↔ ∃ children, f = node B children empty := by
  cases f with
  | empty => simp [roots]
  | leaf t rest => simp [roots]
  | node A children rest => simp [roots, roots_eq_nil]

/-- What passes from a forest to the node above it holds everywhere. -/
theorem Everywhere.imp {f : Forest} (h : f.Everywhere p)
    (step : ∀ A children, p A children → children.Everywhere p → children.Everywhere q → q A children) :
    f.Everywhere q := by
  induction f with
  | empty => trivial
  | leaf t rest ih => exact ih h
  | node A children rest ihchildren ihrest =>
    obtain ⟨hnode, hchildren, hrest⟩ := h
    have hbelow := ihchildren hchildren
    exact ⟨step A children hnode hchildren hbelow, hbelow, ihrest hrest⟩

/-- A body that is read with the words of trees is the row of roots of a forest. -/
theorem exists_of_reads {w : Body} {x : Word} (h : Reads (words p) w x) :
    ∃ f : Forest, f.roots = w ∧ f.Everywhere p ∧ f.word = x := by
  induction w generalizing x with
  | nil => exact ⟨empty, rfl, trivial, (reads_nil.1 h).symm⟩
  | cons s w ih =>
    cases s with
    | terminal t =>
      obtain ⟨y, rfl, hy⟩ := h
      obtain ⟨f, rfl, hf, rfl⟩ := ih hy
      exact ⟨leaf t f, rfl, hf, rfl⟩
    | nonterminal A =>
      obtain ⟨_, z, rfl, ⟨children, hnode, hchildren, rfl⟩, hz⟩ := h
      obtain ⟨f, rfl, hf, rfl⟩ := ih hz
      exact ⟨node A children f, rfl, ⟨hnode, hchildren, hf⟩, rfl⟩

/-- The roots of a forest are read as its word if every node stands for the word below it. -/
theorem reads_of_everywhere {I : Interpretation} {f : Forest} (h : f.Everywhere fun A children => I A children.word) :
    Reads I f.roots f.word := by
  induction f with
  | empty => rfl
  | leaf t rest ih => exact ⟨_, rfl, ih h⟩
  | node A children rest _ ih => exact ⟨_, _, rfl, h.1, ih h.2.2⟩

end Forest

namespace Grammar

variable {G : Grammar}

/-- The roots of the forest are a body of the nonterminal above it. -/
def HasNode (G : Grammar) (A : Nonterminal) (children : Forest) : Prop := ⟨A, children.roots⟩ ∈ G.productions

/-- A nonterminal derives the words of its trees. -/
theorem generates_iff_tree {A : Nonterminal} {x : Word} : G.Generates A x ↔ Forest.words G.HasNode A x := by
  constructor
  · refine fun h => h.interpret fun r hr y hy => ?_
    obtain ⟨f, hroots, hf, rfl⟩ := Forest.exists_of_reads hy
    have hnode : G.HasNode r.owner f := by
      unfold HasNode
      rw [hroots]
      exact hr
    exact ⟨f, hnode, hf, rfl⟩
  · rintro ⟨children, hnode, hchildren, rfl⟩
    have hwords : children.Everywhere fun B below => G.Generates B below.word :=
      hchildren.imp fun B below hrule _ hbelow => .of_rule hrule (Forest.reads_of_everywhere hbelow)
    exact .of_rule hnode (Forest.reads_of_everywhere hwords)

end Grammar

end NormalGrammar
