import Treewalk.Proofs.Tape.Simulation

/-!
# Enough fuel

Declarations are read to the end from any cursor, and how much fuel there is does not matter
if there is enough of it (`Parser.declarations_total`, `Parser.declarations_fuel`): readings by
position with yet more fuel end like both.
-/

namespace Treewalk

theorem Token.isEnd_iff {t : Token} : t.isEnd = true ↔ t.kind = .endOfFile := by
  unfold Token.isEnd
  split <;> simp_all

/-- The cursor is in front of its end of file, with no other before it. -/
structure Cursor.Closed (c : Cursor) : Prop where
  rest : ∀ t ∈ c.rest, t.isEnd = false
  last : c.last.isEnd = true

theorem Cursor.last_start (tokens : List Token) : (Cursor.start tokens).last =
    (tokens.find? Token.isEnd).getD (.endOfFile ((tokens.getLast?.map Token.line).getD 1)) := by
  unfold Cursor.start
  cases tokens.find? Token.isEnd <;> rfl

theorem Cursor.closed_start (tokens : List Token) : (Cursor.start tokens).Closed := by
  refine ⟨fun t ht => ?_, ?_⟩
  · have hall := List.all_eq_true.mp
      (List.all_takeWhile (p := fun t : Token => !t.isEnd) (l := tokens)) t ht
    simpa using hall
  · rw [Cursor.last_start]
    cases hfind : tokens.find? Token.isEnd with
    | some t => exact List.find?_some hfind
    | none => rfl

namespace Tape

variable {t : Tape} {c c' : Cursor}

/-- What a tape shows is determined. -/
theorem Shows.unique (h : t.Shows c) (h' : t.Shows c') : c = c' := by
  obtain ⟨rest, last, reports⟩ := c
  obtain ⟨rest', last', reports'⟩ := c'
  obtain rfl : rest = rest' := h.rest.symm.trans h'.rest
  obtain rfl : last = last' := Option.some.inj (h.last.symm.trans h'.last)
  obtain rfl : reports = reports' := h.reports.symm.trans h'.reports
  rfl

/-- A tape is at its start if the first end of file in it is that of the cursor. -/
theorem shows_of_start {tokens : List Token} (hrest : tokens.takeWhile (fun t => !t.isEnd) = c.rest)
    (hlast : tokens.find? Token.isEnd = some c.last) : Shows ⟨tokens, 0, [], c.reports⟩ c := by
  have hget : tokens[firstEnd tokens]? = some c.last := by
    rw [firstEnd, ← List.find?_eq_getElem?_findIdx, hlast]
  refine ⟨⟨(List.getElem?_eq_some_iff.mp hget).1, Nat.zero_le _, nofun, nofun, .nil⟩, ?_, hget, rfl⟩
  rw [List.drop_zero, ← hrest, List.takeWhile_eq_take_findIdx_not]
  simp only [Bool.not_not]
  rfl

theorem shows_of_closed (h : c.Closed) : Shows ⟨c.rest ++ [c.last], 0, [], c.reports⟩ c := by
  refine shows_of_start ?_ ?_
  · rw [List.takeWhile_append_of_pos (by simpa using h.rest)]
    simp [h.last]
  · rw [List.find?_append, List.find?_eq_none.mpr (by simpa using h.rest)]
    simp [h.last]

/-- An end of file that is supplied is the first one unless there is another. -/
theorem shows_start (tokens : List Token) : (start tokens).Shows (Cursor.start tokens) := by
  refine shows_of_start (c := Cursor.start tokens) ?_ ?_
  · show List.takeWhile _ (if _ then tokens else tokens ++ _) = tokens.takeWhile _
    split
    · rfl
    · rw [List.takeWhile_append]
      split
      · next hall =>
        rw [(List.takeWhile_prefix _).eq_of_length hall]
        exact List.append_nil tokens
      · rfl
  · rw [Cursor.last_start]
    show List.find? _ (if _ then tokens else tokens ++ _) = _
    split
    · next hlast =>
      have hsome : (tokens.find? Token.isEnd).isSome := by
        cases hlast' : tokens.getLast? with
        | none => simp [hlast'] at hlast
        | some t =>
          rw [hlast'] at hlast
          exact List.find?_isSome.mpr ⟨t, List.mem_of_getLast? hlast', hlast⟩
      obtain ⟨t, ht⟩ := Option.isSome_iff_exists.mp hsome
      rw [ht]
      rfl
    · rw [List.find?_append]
      cases tokens.find? Token.isEnd <;> rfl

end Tape

namespace Parser

variable {c : Cursor}

theorem atEnd_eq (c : Cursor) : atEnd c = .ok c.rest.isEmpty c := rfl

theorem rest_of_declarations {decl : Parser (Option Stmt)} {k : Nat} {found l : List Stmt}
    {c' : Cursor} (h : declarations atEnd decl k found c = .ok l c') : c'.rest = [] := by
  induction k generalizing found c with
  | zero => cases h
  | succ k ih =>
    rw [declarations_succ atEnd_eq] at h
    split at h
    · next hempty =>
      cases h
      exact List.isEmpty_iff.mp hempty
    · change EStateM.bind decl _ c = _ at h
      unfold EStateM.bind at h
      split at h
      · next o c₁ _ => cases o <;> exact ih h
      · cases h

/-- With enough fuel declarations are read up to the end. -/
theorem declarations_total {n k : Nat} (hn : 2 * c.rest.length + 4 ≤ n) (hk : c.rest.length < k)
    (found : List Stmt) : ∃ l c', declarations atEnd (declaration n) k found c = .ok l c' ∧
      c.Passes c' ∧ c'.rest = [] := by
  have hfault : ∀ c c' d, declaration n c ≠ .error (.fault d) c' := by
    obtain ⟨n, rfl⟩ : ∃ m, n = m + 1 := ⟨n - 1, by omega⟩
    rw [declaration_succ]
    exact recover_ne_fault _
  have hsound := sound_declarations atEnd_eq rfl ((sound_statements n).2 _ hn) found
    (Nat.le_refl _) hk c (Nat.le_refl _)
  have hne := declarations_ne_fault atEnd_eq hfault k found c
  have hrest : ∀ l c', declarations atEnd (declaration n) k found c = .ok l c' → c'.rest = [] :=
    fun l c' => rest_of_declarations
  revert hsound hne hrest
  generalize declarations atEnd (declaration n) k found c = r
  intro hsound hne hrest
  cases hsound with
  | ok hpass _ _ => exact ⟨_, _, rfl, hpass, hrest _ _ rfl⟩
  | fault _ _ => exact absurd rfl (hne _ _)

/-- All fuels that are enough lead to the same end. -/
theorem declarations_fuel (hc : c.Closed) {n k n' k' : Nat} (hn : 2 * c.rest.length + 4 ≤ n)
    (hk : c.rest.length < k) (hn' : 2 * c.rest.length + 4 ≤ n') (hk' : c.rest.length < k')
    (found : List Stmt) : declarations atEnd (declaration n) k found c =
      declarations atEnd (declaration n') k' found c := by
  have hshows := Tape.shows_of_closed hc
  -- the tape has at least as much fuel as either of the two
  have hfollows : ∀ {m j : Nat}, m ≤ max n n' → j ≤ max k k' →
      Tape.Follows False (c.rest ++ [c.last]) (declarations atEnd (declaration m) j found c)
        (Tape.declarations Tape.atEnd (Tape.declaration (max n n')) (max k k') found
          ⟨c.rest ++ [c.last], 0, [], c.reports⟩) := fun hm hj =>
    Tape.simulates_declarations Tape.simulates_atEnd
      (Tape.simulates_statements (absurd · (Nat.not_lt.mpr hm))).2
      (absurd · (Nat.not_lt.mpr hj)) found c _ hshows
  obtain ⟨l, c₁, hl, -⟩ := declarations_total hn hk found
  obtain ⟨l', c₁', hl', -⟩ := declarations_total hn' hk' found
  have h := hfollows (Nat.le_max_left n n') (Nat.le_max_left k k')
  have h' := hfollows (Nat.le_max_right n n') (Nat.le_max_right k k')
  rw [hl] at h ⊢
  rw [hl'] at h' ⊢
  revert h h'
  generalize Tape.declarations _ _ _ _ _ = r
  intro h h'
  cases h with
  | short hshort => exact hshort.elim
  | ok _ hshows₁ =>
    cases h' with
    | ok _ hshows₁' => rw [hshows₁.unique hshows₁']

end Parser

end Treewalk
