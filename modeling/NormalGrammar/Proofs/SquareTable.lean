import NormalGrammar.NormalForm.SquareTable
import NormalGrammar.Proofs.Arrangement
import NormalGrammar.Proofs.TableCells
import NormalGrammar.Proofs.WritingBack

/-!
# Filling a table in place

The contents of a square are a function of two indices (`Square.Shows`).  A loop that succeeds in every step succeeds as
a whole, so what it does to the contents is found step by step: adding a nonterminal changes one cell
(`Shows.insert?`), and as the cuts of a factor only lead to shorter ones, their loop changes just the cell of the factor
(`exists_fillCell`).  After the factors whose letters are at most `d` places apart all cells up to there are final
(`exists_fillSpan`), so in the end the square is the table of the word (`fillSquare_exactly`).
-/

namespace NormalGrammar

/-! ### Loops that can fail -/

section

variable {α β : Type}

/-- A loop over a list succeeds if every step does, and keeps what every step keeps. -/
theorem exists_foldlM {step : β → α → Option β} {I : List α → β → Prop} {l : List α}
    (hstep : ∀ front, ∀ a ∈ l, ∀ b, I front b → ∃ c, step b a = some c ∧ I (front ++ [a]) c) {b : β} (h : I [] b) :
    ∃ c, l.foldlM step b = some c ∧ I l c := by
  suffices ∀ front b, I front b → ∃ c, l.foldlM step b = some c ∧ I (front ++ l) c from this [] b h
  clear h b
  induction l with
  | nil =>
    intro front b h
    rw [List.append_nil]
    exact ⟨b, rfl, h⟩
  | cons a l ih =>
    intro front b h
    obtain ⟨c, hc, hI⟩ := hstep front a List.mem_cons_self b h
    obtain ⟨d, hd, hend⟩ := ih (fun front x hx => hstep front x (List.mem_cons_of_mem _ hx)) (front ++ [a]) c hI
    rw [List.append_assoc] at hend
    exact ⟨d, by rw [List.foldlM_cons, hc]; exact hd, hend⟩

/-- The same for a loop over the numbers from `s` on that are less than `e`. -/
theorem exists_foldlM_range' {step : β → Nat → Option β} {I : Nat → β → Prop} {s e : Nat} (hse : s ≤ e)
    (hstep : ∀ m, s ≤ m → m < e → ∀ b, I m b → ∃ c, step b m = some c ∧ I (m + 1) c) {b : β} (h : I s b) :
    ∃ c, (List.range' s (e - s)).foldlM step b = some c ∧ I e c := by
  obtain ⟨n, rfl⟩ := Nat.exists_eq_add_of_le hse
  rw [Nat.add_sub_cancel_left]
  clear hse
  induction n generalizing s b with
  | zero => exact ⟨b, rfl, h⟩
  | succ n ih =>
    obtain ⟨c, hc, hI⟩ := hstep s (Nat.le_refl s) (by omega) b h
    rw [show s + (n + 1) = s + 1 + n by omega] at hstep ⊢
    obtain ⟨d, hd, hend⟩ := ih hI fun m hs hm => hstep m (by omega) hm
    refine ⟨d, ?_, hend⟩
    rw [List.range'_succ, List.foldlM_cons, hc]
    exact hd

end

/-! ### Squares -/

namespace Square

/-- The square has the cells `f i j` for all indices below `n`, and no others. -/
def Shows (n : Nat) (f : Nat → Nat → Cell) (T : Square) : Prop :=
  ∀ i j, T.cell? i j = if i < n ∧ j < n then some (f i j) else none

/-- The contents with one cell replaced. -/
def withCell (f : Nat → Nat → Cell) (i j : Nat) (cell : Cell) : Nat → Nat → Cell :=
  fun a b => if a = i ∧ b = j then cell else f a b

variable {n : Nat} {f g : Nat → Nat → Cell} {T : Square} {i j : Nat}

theorem Shows.cell? (h : Shows n f T) (hi : i < n) (hj : j < n) : T.cell? i j = some (f i j) := by
  rw [h i j, if_pos ⟨hi, hj⟩]

theorem Shows.congr (h : Shows n f T) (hfg : ∀ i j, i < n → j < n → f i j = g i j) : Shows n g T := by
  intro i j
  rw [h i j]
  by_cases hinside : i < n ∧ j < n
  · rw [if_pos hinside, if_pos hinside, hfg i j hinside.1 hinside.2]
  · rw [if_neg hinside, if_neg hinside]

theorem shows_blank (n : Nat) : Shows n (fun _ _ => .empty) (blank n) := by
  intro i j
  unfold Square.cell? blank
  rw [List.getElem?_replicate]
  by_cases hi : i < n
  · rw [if_pos hi, Option.bind_some, List.getElem?_replicate]
    simp only [hi, true_and]
  · rw [if_neg hi, if_neg (fun h => hi h.1), Option.bind_none]

/-- Inside the square a nonterminal can be added to every cell, and this changes no other cell. -/
theorem Shows.insert? (h : Shows n f T) (hi : i < n) (hj : j < n) (A : Nonterminal) :
    ∃ T', T.insert? i j A = some T' ∧ Shows n (withCell f i j ((f i j).insert A)) T' := by
  obtain ⟨row, hrow, hcell⟩ := Option.bind_eq_some_iff.1 (h.cell? hi hj)
  have hlen : i < T.length := (List.getElem?_eq_some_iff.1 hrow).1
  have hlen' : j < row.length := (List.getElem?_eq_some_iff.1 hcell).1
  refine ⟨T.set i (row.set j ((f i j).insert A)), by simp [Square.insert?, hrow, hcell], fun a b => ?_⟩
  have hold := h a b
  unfold Square.cell? at hold ⊢
  unfold withCell
  by_cases ha : a = i
  · subst ha
    rw [hrow, Option.bind_some] at hold
    rw [List.getElem?_set_self hlen, Option.bind_some]
    by_cases hb : b = j
    · subst hb
      rw [List.getElem?_set_self hlen', if_pos ⟨hi, hj⟩, if_pos ⟨rfl, rfl⟩]
    · have hother : ¬ (a = a ∧ b = j) := fun e => hb e.2
      rw [List.getElem?_set_ne (fun e => hb e.symm), hold, if_neg hother]
  · have hother : ¬ (a = i ∧ b = j) := fun e => ha e.1
    rw [List.getElem?_set_ne (fun e => ha e.symm), hold, if_neg hother]

theorem withCell_self (f : Nat → Nat → Cell) (i j : Nat) (cell : Cell) : withCell f i j cell i j = cell :=
  if_pos ⟨rfl, rfl⟩

theorem withCell_of_ne {a b : Nat} (cell : Cell) (h : ¬ (a = i ∧ b = j)) : withCell f i j cell a b = f a b := if_neg h

theorem withCell_withCell (f : Nat → Nat → Cell) (i j : Nat) (cell cell' : Cell) :
    withCell (withCell f i j cell) i j cell' = withCell f i j cell' := by
  funext a b
  by_cases h : a = i ∧ b = j
  · obtain ⟨rfl, rfl⟩ := h
    rw [withCell_self, withCell_self]
  · rw [withCell_of_ne _ h, withCell_of_ne _ h, withCell_of_ne _ h]

theorem withCell_eq_self (f : Nat → Nat → Cell) (i j : Nat) : withCell f i j (f i j) = f := by
  funext a b
  by_cases h : a = i ∧ b = j
  · obtain ⟨rfl, rfl⟩ := h
    rw [withCell_self]
  · rw [withCell_of_ne _ h]

end Square

namespace NormalForm

open Square

variable {n : Nat} {f : Nat → Nat → Cell} {T : Square} {i j k : Nat} {rules : List (Rule NormalBody)}

/-! ### One cell -/

/-- The owners of the pairs whose halves lie in the two cells. -/
def joinedOwners (rules : List (Rule NormalBody)) (left right : Cell) : List Nonterminal :=
  (rules.filter fun r => Cell.joins left right r.body).map Rule.owner

theorem joinedOwners_append (front rest : List (Rule NormalBody)) (left right : Cell) :
    joinedOwners (front ++ rest) left right = joinedOwners front left right ++ joinedOwners rest left right := by
  rw [joinedOwners, List.filter_append, List.map_append]
  rfl

theorem ofCuts_cutsUpTo_succ (hik : i ≤ k) : Cell.ofCuts rules (cutsUpTo f i j (k + 1)) =
    (Cell.ofCuts rules (cutsUpTo f i j k)).insertAll (joinedOwners rules (f i k) (f (k + 1) j)) := by
  rw [Cell.ofCuts, cutsUpTo_succ f hik, List.flatMap_append, List.flatMap_singleton]
  exact OrderedSet.insertAll_append _ _ _

/-- One production and one cut: the owner is entered if the halves are found. -/
theorem exists_insertCut (hik : i ≤ k) (hkj : k < j) (hj : j < n) {cell : Cell} (h : Shows n (withCell f i j cell) T)
    (r : Rule NormalBody) : ∃ T', insertCut i j k T r = some T' ∧
      Shows n (withCell f i j (cell.insertAll (joinedOwners [r] (f i k) (f (k + 1) j)))) T' := by
  obtain ⟨A, body⟩ := r
  cases body with
  | terminal t => exact ⟨T, rfl, h⟩
  | pair B C =>
    -- The cells of shorter factors are not the one that is being filled.
    have hleft : T.cell? i k = some (f i k) := by
      rw [h.cell? (by omega) (by omega), withCell_of_ne _ (by omega)]
    have hright : T.cell? (k + 1) j = some (f (k + 1) j) := by
      rw [h.cell? (by omega) hj, withCell_of_ne _ (by omega)]
    simp only [insertCut, hleft, hright, Option.bind_some]
    by_cases hB : B ∈ f i k
    · by_cases hC : C ∈ f (k + 1) j
      · have hi : i < n := by omega
        obtain ⟨T', hT', hshows⟩ := h.insert? hi hj A
        rw [withCell_self, withCell_withCell] at hshows
        refine ⟨T', by simp [hB, hC, hT'], ?_⟩
        simpa [joinedOwners, Cell.joins, hB, hC] using hshows
      · exact ⟨T, by simp [hB, hC], by simpa [joinedOwners, Cell.joins, hB, hC] using h⟩
    · exact ⟨T, by simp [hB], by simpa [joinedOwners, Cell.joins, hB] using h⟩

/-- All productions and one cut. -/
theorem exists_insertCuts (hik : i ≤ k) (hkj : k < j) (hj : j < n) {cell : Cell}
    (h : Shows n (withCell f i j cell) T) : ∃ T', rules.foldlM (insertCut i j k) T = some T' ∧
      Shows n (withCell f i j (cell.insertAll (joinedOwners rules (f i k) (f (k + 1) j)))) T' := by
  refine exists_foldlM (I := fun front => Shows n
    (withCell f i j (cell.insertAll (joinedOwners front (f i k) (f (k + 1) j))))) (fun front r _ T hT => ?_) h
  rw [joinedOwners_append, OrderedSet.insertAll_append]
  exact exists_insertCut hik hkj hj hT r

/-- All cuts of a factor fill its cell, if it was empty. -/
theorem exists_fillCell (rules : List (Rule NormalBody)) (hij : i ≤ j) (hj : j < n) (hempty : f i j = .empty)
    (h : Shows n f T) : ∃ T', fillCell rules i j T = some T' ∧
      Shows n (withCell f i j (Cell.ofCuts rules (cutsUpTo f i j j))) T' := by
  refine exists_foldlM_range' (I := fun k => Shows n (withCell f i j (Cell.ofCuts rules (cutsUpTo f i j k)))) hij
    (fun k hik hkj T hT => ?_) ?_
  · rw [ofCuts_cutsUpTo_succ hik]
    exact exists_insertCuts hik hkj hj hT
  · have hnone : Cell.ofCuts rules (cutsUpTo f i j i) = f i j := by
      rw [cutsUpTo_self, hempty]
      rfl
    rwa [hnone, withCell_eq_self]

/-! ### Letters -/

theorem mem_positions {w : Word} {t : Terminal} : i ∈ positions w t ↔ w[i]? = some t := by
  unfold positions
  rw [List.mem_filter, List.mem_range, decide_eq_true_eq]
  exact and_iff_right_of_imp fun h => (List.getElem?_eq_some_iff.1 h).1

theorem ofLetter_append_singleton (front : List (Rule NormalBody)) (r : Rule NormalBody) (t : Terminal) :
    Cell.ofLetter (front ++ [r]) t =
      if r.body = .terminal t then (Cell.ofLetter front t).insert r.owner else Cell.ofLetter front t := by
  rw [Cell.ofLetter, List.filter_append, List.map_append]
  split
  · rename_i hbody
    have hone : [r].filter (fun r => r.body = .terminal t) = [r] := by simp [hbody]
    rw [hone]
    exact OrderedSet.insertAll_append _ _ _
  · rename_i hbody
    have hnone : [r].filter (fun r => r.body = .terminal t) = [] := by simp [hbody]
    rw [hnone, List.map_nil, List.append_nil]
    rfl

/-- The contents of the square when some productions have been entered for the letters of the word. -/
def diagonal (rules : List (Rule NormalBody)) (w : Word) : Nat → Nat → Cell :=
  fun a b => if a = b then (w[a]?).elim .empty (Cell.ofLetter rules) else .empty

/-- An owner is entered at some places on the diagonal. -/
theorem exists_insert_diagonal {places : List Nat} (hplaces : ∀ i ∈ places, i < n) (A : Nonterminal)
    (h : Shows n f T) : ∃ T', places.foldlM (fun T i => T.insert? i i A) T = some T' ∧
      Shows n (fun a b => if a = b ∧ a ∈ places then (f a b).insert A else f a b) T' := by
  refine exists_foldlM (I := fun front => Shows n fun a b => if a = b ∧ a ∈ front then (f a b).insert A else f a b)
    (fun front i hi T hT => ?_) (h.congr fun a b _ _ => by simp)
  have hin := hplaces i hi
  obtain ⟨T', hT', hshows⟩ := hT.insert? hin hin A
  refine ⟨T', hT', hshows.congr fun a b _ _ => ?_⟩
  by_cases hab : a = i ∧ b = i
  · obtain ⟨rfl, rfl⟩ := hab
    rw [withCell_self]
    by_cases hmem : b ∈ front
    · -- A place that occurs twice gets its owner once.
      have htwice : ((f b b).insert A).insert A = (f b b).insert A :=
        OrderedSet.insert_of_mem (OrderedSet.mem_insert.2 (Or.inr rfl))
      simp [hmem, htwice]
    · simp [hmem]
  · have hother : a = b → a ≠ i := fun e ha => hab ⟨ha, e ▸ ha⟩
    rw [withCell_of_ne _ hab]
    refine if_congr (and_congr_right fun e => ?_) rfl rfl
    rw [List.mem_append, List.mem_singleton, or_iff_left (hother e)]

/-- One production is entered for all its letters. -/
theorem exists_insertLetters (w : Word) (front : List (Rule NormalBody)) (r : Rule NormalBody)
    (h : Shows w.length (diagonal front w) T) :
    ∃ T', insertLetters w T r = some T' ∧ Shows w.length (diagonal (front ++ [r]) w) T' := by
  obtain ⟨A, body⟩ := r
  cases body with
  | pair B C =>
    refine ⟨T, rfl, h.congr fun a b _ _ => ?_⟩
    have hsame : Cell.ofLetter (front ++ [⟨A, .pair B C⟩]) = Cell.ofLetter front := by
      funext t
      rw [ofLetter_append_singleton, if_neg (by simp)]
    rw [diagonal, diagonal, hsame]
  | terminal t =>
    obtain ⟨T', hT', hshows⟩ := exists_insert_diagonal
      (fun i hi => (List.getElem?_eq_some_iff.1 (mem_positions.1 hi)).1) A h
    refine ⟨T', hT', hshows.congr fun a b ha _ => ?_⟩
    have hletter : w[a]? = some w[a] := List.getElem?_eq_getElem ha
    simp only [diagonal, mem_positions, hletter, Option.elim_some, ofLetter_append_singleton]
    by_cases hab : a = b
    · subst hab
      by_cases ht : w[a] = t
      · subst ht
        simp
      · have ht' : t ≠ w[a] := Ne.symm ht
        simp [ht, ht']
    · simp [hab]

theorem shows_diagonal_nil (w : Word) : Shows w.length (diagonal [] w) (blank w.length) := by
  refine (shows_blank w.length).congr fun a b ha _ => ?_
  unfold diagonal
  split
  · rw [List.getElem?_eq_getElem ha]
    rfl
  · rfl

/-! ### All cells -/

/-- The cells of a table that are final before the factor of `d + 1` letters from `i` on is looked at. -/
def finalCells (N : NormalForm) (w : Word) (d i : Nat) : Nat → Nat → Cell :=
  fun a b => if b < a + d ∨ (b = a + d ∧ a < i) then N.tableCell w a b else .empty

variable {N : NormalForm} {w : Word} {d : Nat}

/-- The letters fill the cells on the diagonal. -/
theorem diagonal_eq_finalCells (hi : i < w.length) : diagonal N.rules w i j = finalCells N w 1 0 i j := by
  unfold diagonal finalCells
  by_cases hij : i = j
  · subst hij
    have hletter : w[i]? = some w[i] := List.getElem?_eq_getElem hi
    rw [if_pos rfl, if_pos (by omega), hletter, tableCell_self hletter]
    rfl
  · rw [if_neg hij]
    by_cases hbelow : j < i
    · rw [if_pos (by omega), tableCell_of_lt hbelow]
    · rw [if_neg (by omega)]

/-- With the cells of shorter factors final, the next cell becomes final too. -/
theorem exists_fillCell_final (hd : 0 < d) (hi : i + d < w.length) (h : Shows w.length (finalCells N w d i) T) :
    ∃ T', fillCell N.rules i (i + d) T = some T' ∧ Shows w.length (finalCells N w d (i + 1)) T' := by
  have hempty : finalCells N w d i i (i + d) = .empty := if_neg (by omega)
  obtain ⟨T', hT', hshows⟩ := exists_fillCell N.rules (by omega) hi hempty h
  refine ⟨T', hT', hshows.congr fun a b _ _ => ?_⟩
  have hcuts : cutsUpTo (finalCells N w d i) i (i + d) (i + d) = cutsUpTo (N.tableCell w) i (i + d) (i + d) :=
    cutsUpTo_congr (fun k hik hkj => if_pos (by omega)) fun k hik hkj => if_pos (by omega)
  rw [hcuts, ← tableCell_of_cuts (by omega) hi]
  by_cases hab : a = i ∧ b = i + d
  · obtain ⟨rfl, rfl⟩ := hab
    rw [withCell_self, finalCells, if_pos (by omega)]
  · rw [withCell_of_ne _ hab, finalCells, finalCells]
    exact if_congr (by omega) rfl rfl

/-- So do all cells of factors of one length. -/
theorem exists_fillSpan (hd : 0 < d) (hdn : d < w.length) (h : Shows w.length (finalCells N w d 0) T) :
    ∃ T', fillSpan N.rules w.length T d = some T' ∧ Shows w.length (finalCells N w (d + 1) 0) T' := by
  obtain ⟨T', hT', hshows⟩ := exists_foldlM_range' (I := fun i => Shows w.length (finalCells N w d i))
    (Nat.zero_le (w.length - d)) (fun i _ hi T hT => exists_fillCell_final hd (by omega) hT) h
  refine ⟨T', ?_, hshows.congr fun a b ha hb => ?_⟩
  · rw [fillSpan, List.range_eq_range']
    exact hT'
  · rw [finalCells, finalCells]
    exact if_congr (by omega) rfl rfl

/-- The square is filled without leaving it, and shows the cells of the table in the end. -/
theorem exists_fillSquare (N : NormalForm) (w : Word) :
    ∃ T, N.fillSquare w = some T ∧ Shows w.length (N.tableCell w) T := by
  obtain ⟨T₀, hletters, hdiagonal⟩ := exists_foldlM (l := N.rules) (I := fun front => Shows w.length (diagonal front w))
    (fun front r _ T hT => exists_insertLetters w front r hT) (shows_diagonal_nil w)
  have hfirst : Shows w.length (finalCells N w 1 0) T₀ := hdiagonal.congr fun a b ha _ => diagonal_eq_finalCells ha
  -- The empty word has no spans, like a word of one letter.
  have hlen : w.length - 1 = max 1 w.length - 1 := by omega
  obtain ⟨T, hspans, hshows⟩ := exists_foldlM_range' (I := fun d => Shows w.length (finalCells N w d 0))
    (Nat.le_max_left 1 w.length) (fun d hd hdn T hT => exists_fillSpan hd (by omega) hT) hfirst
  refine ⟨T, ?_, hshows.congr fun a b _ hb => if_pos (by omega)⟩
  rw [fillSquare, hletters, Option.bind_some, hlen]
  exact hspans

/-- Filling the square never leaves it, and ends with the cells of the table.  A cell `(i, j)` below the diagonal is
empty, and any other holds exactly the nonterminals from which the letters from `i` to `j` are derived with the stored
productions alone. -/
theorem fillSquare_exactly (N : NormalForm) (w : Word) : ∃ T, N.fillSquare w = some T ∧
    (∀ i j, T.cell? i j = (N.table w).cell? i j) ∧
    (∀ r, r ∈ N.toGrammar.withoutEmptyBodies.productions ↔ ∃ q ∈ N.productions, q.toBody = r) ∧
    ∀ i j, i < w.length → j < w.length → ∃ cell, T.cell? i j = some cell ∧
      (j < i → cell = .empty) ∧
      (i ≤ j → ∀ A, A ∈ cell ↔ N.toGrammar.withoutEmptyBodies.Generates A ((w.drop i).take (j - i + 1))) := by
  obtain ⟨T, hfill, hshows⟩ := exists_fillSquare N w
  refine ⟨T, hfill, fun i j => ?_, fun r => mem_withoutEmptyBodies_toGrammar,
    fun i j hi hj => ⟨N.tableCell w i j, hshows.cell? hi hj, ?_, fun hij A => ?_⟩⟩
  · rw [hshows i j, cell?_eq]
  · exact tableCell_of_lt
  · obtain ⟨cell, htable, hholds⟩ := cell?_table (N := N) hij hj
    rw [cell?_eq, if_pos ⟨hi, hj⟩] at htable
    rw [Option.some.inj htable, hholds A, N.reading_toGrammar.covers_iff]

/-- Some letters `a` with as many letters `b` behind them. -/
def nested : NormalForm :=
  let S : Nonterminal := ⟨.ofChar 'S'⟩
  let A : Nonterminal := ⟨.ofChar 'A'⟩
  let B : Nonterminal := ⟨.ofChar 'B'⟩
  let C : Nonterminal := ⟨.ofChar 'C'⟩
  ⟨S, false, .ofList [⟨S, .pair A B⟩, ⟨S, .pair A C⟩, ⟨C, .pair S B⟩, ⟨A, .terminal ⟨.ofChar 'a'⟩⟩,
    ⟨B, .terminal ⟨.ofChar 'b'⟩⟩]⟩

example : (nested.fillSquare ("aabb".toList.map fun c => ⟨.ofChar c⟩)).bind (fun T => T.cell? 1 3) =
    some (.singleton ⟨.ofChar 'C'⟩) := by
  decide +kernel

end NormalForm

end NormalGrammar
