import NormalGrammar.OrderedSet
import NormalGrammar.Word

/-!
# Productions

A rule `A → w` has an owner and a body.  `Productions` keeps rules in the order of insertion, but they are read
owner by owner: `rules` lists the bodies of the owner that came first, then those of the second, and so on.
Reading the rules in this order loses none of them (`mem_rules`).  `ofFamily` builds productions from the bodies that
every owner is to have.
-/

namespace NormalGrammar

/-- The production `owner → body`. -/
structure Rule (β : Type) where
  owner : Nonterminal
  body : β
  deriving DecidableEq

abbrev Productions (β : Type) := OrderedSet (Rule β)

namespace Productions

variable {β : Type}

private theorem nodup_bodies {rules : List (Rule β)} (h : rules.Nodup) (A : Nonterminal) :
    ((rules.filter fun r => r.owner = A).map Rule.body).Nodup := by
  rw [List.nodup_iff_pairwise_ne, List.pairwise_map]
  refine (List.nodup_iff_pairwise_ne.1 (h.filter _)).imp_of_mem ?_
  intro r q hr hq hne e
  simp only [List.mem_filter, decide_eq_true_eq] at hr hq
  apply hne
  cases r; cases q
  simp_all

private theorem nodup_family {owners : List Nonterminal} (h : owners.Nodup) (family : Nonterminal → OrderedSet β) :
    (owners.flatMap fun A => (family A).toList.map (Rule.mk A)).Nodup := by
  rw [List.nodup_iff_pairwise_ne, List.pairwise_flatMap]
  constructor
  · intro A _
    rw [List.pairwise_map]
    exact (List.nodup_iff_pairwise_ne.1 (family A).nodup).imp fun hne e => hne (Rule.mk.inj e).2
  · refine (List.nodup_iff_pairwise_ne.1 h).imp fun hne r hr q hq e => hne ?_
    obtain ⟨w, _, rfl⟩ := List.mem_map.1 hr
    obtain ⟨v, _, rfl⟩ := List.mem_map.1 hq
    exact (Rule.mk.inj e).1

/-- Gives every owner its family of bodies. -/
def ofFamily (owners : OrderedSet Nonterminal) (family : Nonterminal → OrderedSet β) : Productions β :=
  ⟨owners.toList.flatMap fun A => (family A).toList.map (Rule.mk A), nodup_family owners.nodup family⟩

/-- The nonterminals that own a body, in the order of their first rules. -/
def owners (P : Productions β) : OrderedSet Nonterminal := .ofList (P.toList.map Rule.owner)

/-- The bodies of `A` in the order of insertion. -/
def bodies (P : Productions β) (A : Nonterminal) : OrderedSet β :=
  ⟨(P.toList.filter fun r => r.owner = A).map Rule.body, nodup_bodies P.nodup A⟩

/-- The same rules, owner by owner. -/
def arranged (P : Productions β) : Productions β := ofFamily P.owners P.bodies

/-- All rules, owner by owner. -/
def rules (P : Productions β) : List (Rule β) := P.arranged.toList

@[simp] theorem mem_ofFamily {owners : OrderedSet Nonterminal} {family : Nonterminal → OrderedSet β} {r : Rule β} :
    r ∈ ofFamily owners family ↔ r.owner ∈ owners ∧ r.body ∈ family r.owner := by
  rw [← OrderedSet.mem_toList]
  simp only [ofFamily, List.mem_flatMap, List.mem_map, OrderedSet.mem_toList]
  constructor
  · rintro ⟨A, hA, w, hw, rfl⟩
    exact ⟨hA, hw⟩
  · exact fun h => ⟨r.owner, h.1, r.body, h.2, rfl⟩

@[simp] theorem mem_owners {P : Productions β} {A : Nonterminal} : A ∈ P.owners ↔ ∃ w, ⟨A, w⟩ ∈ P := by
  simp only [owners, OrderedSet.mem_ofList, List.mem_map, OrderedSet.mem_toList]
  constructor
  · rintro ⟨r, hr, rfl⟩
    exact ⟨r.body, hr⟩
  · rintro ⟨w, hw⟩
    exact ⟨⟨A, w⟩, hw, rfl⟩

@[simp] theorem mem_bodies {P : Productions β} {A : Nonterminal} {w : β} : w ∈ P.bodies A ↔ ⟨A, w⟩ ∈ P := by
  rw [← OrderedSet.mem_toList]
  simp only [bodies, List.mem_map, List.mem_filter, decide_eq_true_eq, OrderedSet.mem_toList]
  constructor
  · rintro ⟨r, ⟨hr, rfl⟩, rfl⟩
    exact hr
  · exact fun hw => ⟨⟨A, w⟩, ⟨hw, rfl⟩, rfl⟩

@[simp] theorem mem_arranged {P : Productions β} {r : Rule β} : r ∈ P.arranged ↔ r ∈ P := by
  simp only [arranged, mem_ofFamily, mem_owners, mem_bodies]
  exact ⟨fun h => h.2, fun h => ⟨⟨r.body, h⟩, h⟩⟩

@[simp] theorem mem_rules {P : Productions β} {r : Rule β} : r ∈ P.rules ↔ r ∈ P := mem_arranged

end Productions

end NormalGrammar
