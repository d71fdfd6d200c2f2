import Treewalk.Proofs.Tape.Totality

/-!
# The parser stays in bounds

Whatever the tokens are, parsing by position ends. It looks at tokens up to the first end of
file only and never goes back, it stops there, and what it has read and reported by then is
what the parser reads and reports. A declaration begun in front of a token goes past it,
whether it is read or given up. What follows the first end of file does not matter.
-/

namespace Treewalk

open Treewalk.Parser

/-- Tokens without an end of file are in front of what follows, unless nothing does. -/
theorem Cursor.start_of_append {front others : List Token}
    (hfront : ∀ t ∈ front, t.isEnd = false) (hothers : others ≠ []) :
    Cursor.start (front ++ others) =
      ⟨front ++ (Cursor.start others).rest, (Cursor.start others).last, []⟩ := by
  have hnot : ∀ t ∈ front, (!t.isEnd) = true := fun t ht => by simp [hfront t ht]
  have hfind : (front ++ others).find? Token.isEnd = others.find? Token.isEnd := by
    rw [List.find?_append, List.find?_eq_none.mpr (by simpa using hfront), Option.none_or]
  have hlast : (front ++ others).getLast? = others.getLast? := by
    rw [List.getLast?_append, List.getLast?_eq_some_getLast hothers, Option.some_or]
  unfold Cursor.start
  rw [hfind, List.takeWhile_append_of_pos hnot, hlast]

theorem Cursor.start_append {rest others : List Token} {last : Token}
    (hrest : ∀ t ∈ rest, t.isEnd = false) (hlast : last.isEnd = true) :
    Cursor.start (rest ++ last :: others) = ⟨rest, last, []⟩ := by
  have hends : Cursor.start (last :: others) = ⟨[], last, []⟩ := by
    unfold Cursor.start
    rw [List.find?_cons_of_pos hlast, List.takeWhile_cons_of_neg (by simp [hlast])]
  rw [Cursor.start_of_append hrest (List.cons_ne_nil last others), hends, List.append_nil]

theorem Cursor.length_start_le (tokens : List Token) :
    (Cursor.start tokens).rest.length ≤ tokens.length :=
  (List.takeWhile_sublist _).length_le

/-- What is read depends on the tokens up to the first end of file alone. -/
theorem Program.ofTokens_congr {tokens tokens' : List Token}
    (h : Cursor.start tokens = Cursor.start tokens') :
    Program.ofTokens tokens = Program.ofTokens tokens' := by
  have hle := Cursor.length_start_le tokens
  have hle' := Cursor.length_start_le tokens'
  rw [← h] at hle'
  have hprogram : program (fuelFor tokens) (Cursor.start tokens) =
      program (fuelFor tokens') (Cursor.start tokens) := by
    apply declarations_fuel (Cursor.closed_start tokens) <;> unfold fuelFor <;> omega
  unfold Program.ofTokens
  rw [hprogram, h]

namespace Tape

variable {t : Tape}

theorem InBounds.exists_shows (h : t.InBounds) : ∃ c, t.Shows c :=
  ⟨⟨(t.tokens.take (firstEnd t.tokens)).drop t.current, t.tokens.get ⟨_, h.ends⟩, t.reports⟩,
    h, rfl, List.getElem?_eq_getElem h.ends, rfl⟩

/-- A declaration that is begun in front of a token goes past it. -/
theorem InBounds.declaration_passes (h : t.InBounds) (hcurrent : t.current < firstEnd t.tokens)
    {n : Nat} (hn : 2 * firstEnd t.tokens + 4 ≤ n) :
    ∃ o t', declaration n t = .ok o t' ∧ t'.tokens = t.tokens ∧ t'.InBounds ∧
      t.current < t'.current := by
  obtain ⟨c, hshows⟩ := h.exists_shows
  have hlen := hshows.length_rest
  have hne : c.rest ≠ [] := List.ne_nil_of_length_pos (by omega)
  obtain ⟨n, rfl⟩ : ∃ m, n = m + 1 := ⟨n - 1, by omega⟩
  have hsound := (sound_statements (n + 1)).2 c.rest.length (by omega) c hne (Nat.le_refl _)
  have hfault : ∀ c' d, Parser.declaration (n + 1) c ≠ .error (.fault d) c' := fun c' d => by
    rw [declaration_succ]
    exact recover_ne_fault _ c c' d
  have hfollows := (simulates_statements (Nat.lt_irrefl (n + 1))).2 c t hshows
  revert hsound hfault hfollows
  generalize Parser.declaration (n + 1) c = r
  generalize declaration (n + 1) t = r'
  intro hsound hfault hfollows
  cases hfollows with
  | ok htokens hshows' =>
    cases hsound with
    | ok _ hused _ =>
      have hlen' := hshows'.length_rest
      rw [htokens] at hlen'
      exact ⟨_, _, rfl, htokens, hshows'.inBounds, by omega⟩
  | fault _ _ => exact absurd rfl (hfault _ _)
  | exhausted => cases hsound
  | short hfalse => exact hfalse.elim

/-- A run with enough fuel ends at the first end of file. -/
theorem program_ends (tokens : List Token) {n : Nat} (hn : fuelFor tokens ≤ n) :
    ∃ p t, program n (start tokens) = .ok p t ∧ t.tokens = (start tokens).tokens ∧
      t.InBounds ∧ t.current = firstEnd t.tokens ∧
      Program.ofTokens tokens = (p, t.reports.reverse) := by
  have hle := Cursor.length_start_le tokens
  obtain ⟨p, c, hp, -, hrest⟩ := declarations_total (c := Cursor.start tokens)
    (n := fuelFor tokens) (k := fuelFor tokens) (by unfold fuelFor; omega)
    (by unfold fuelFor; omega) []
  change Parser.program (fuelFor tokens) (Cursor.start tokens) = .ok p c at hp
  have hfollows := simulates_program (Nat.not_lt.mpr hn) _ _ (shows_start tokens)
  rw [hp] at hfollows
  have hparsed : Program.ofTokens tokens = (p, c.reports.reverse) := by
    unfold Program.ofTokens
    rw [hp]
  revert hfollows
  generalize program n (start tokens) = r
  intro hfollows
  cases hfollows with
  | ok htokens hshows =>
    have hlen := hshows.length_rest
    have hcurrent := hshows.inBounds.current_le
    rw [hrest, List.length_nil] at hlen
    exact ⟨_, _, rfl, htokens, hshows.inBounds, by omega, by rw [hparsed, hshows.reports]⟩
  | short hfalse => exact hfalse.elim

theorem length_start_le (tokens : List Token) :
    (start tokens).tokens.length ≤ tokens.length + 1 := by
  unfold start
  dsimp only
  split <;> simp

/-- The tokens up to the first end of file are those of the cursor and its end. -/
theorem Shows.take_firstEnd {c : Cursor} (h : t.Shows c) (hcurrent : t.current = 0) :
    t.tokens.take (firstEnd t.tokens + 1) = c.rest ++ [c.last] := by
  have hrest := h.rest
  rw [hcurrent, List.drop_zero] at hrest
  rw [List.take_add_one, hrest, h.last, Option.toList_some]

end Tape

/-- The parser is total and stays in bounds. By position, where a look outside the tokens is a
failure, every list of tokens is parsed up to its first end of file and no further, without
going back, and the parser's result is what this gives. A declaration begun in front of a token
goes past it, and nothing behind the first end of file has any influence. -/
theorem parser_stays_in_bounds (tokens : List Token) :
    (∀ n, fuelFor tokens ≤ n → ∃ p t, Tape.program n (.start tokens) = .ok p t ∧
      t.tokens = (Tape.start tokens).tokens ∧ t.InBounds ∧
      t.current = Tape.firstEnd t.tokens ∧ Program.ofTokens tokens = (p, t.reports.reverse)) ∧
    (∀ (t : Tape) n, t.tokens = (Tape.start tokens).tokens → t.InBounds →
      t.current < Tape.firstEnd t.tokens → fuelFor tokens ≤ n →
      ∃ o t', Tape.declaration n t = .ok o t' ∧ t'.tokens = t.tokens ∧ t'.InBounds ∧
        t.current < t'.current) ∧
    ∀ others, Program.ofTokens
      ((Tape.start tokens).tokens.take (Tape.firstEnd (Tape.start tokens).tokens + 1) ++ others) =
        Program.ofTokens tokens := by
  refine ⟨fun n hn => Tape.program_ends tokens hn, fun t n htokens ht hcurrent hn => ?_,
    fun others => Program.ofTokens_congr ?_⟩
  · have hlen := Tape.length_start_le tokens
    have hends := ht.ends
    rw [← htokens] at hlen
    unfold fuelFor at hn
    exact ht.declaration_passes hcurrent (by omega)
  · have hclosed := Cursor.closed_start tokens
    rw [(Tape.shows_start tokens).take_firstEnd rfl, List.append_assoc, List.singleton_append,
      Cursor.start_append hclosed.rest hclosed.last]
    rfl

/-- `) print`, an end of file, and a `)` behind it. -/
def endInside : List Token :=
  [⟨.symbol .rightParen, ")", 1⟩, ⟨.symbol .printWord, "print", 1⟩, .endOfFile 1,
    ⟨.symbol .rightParen, ")", 2⟩]

theorem parser_stays_in_bounds_endInside :
    (fuelFor endInside ≤ 24 ∧ (Tape.start endInside).InBounds ∧
      (Tape.start endInside).current < Tape.firstEnd (Tape.start endInside).tokens) ∧
    (∃ p t, Tape.program 24 (.start endInside) = .ok p t ∧ t.InBounds ∧ t.current = 2) ∧
    ∃ o t', Tape.declaration 24 (.start endInside) = .ok o t' ∧ t'.InBounds ∧ 0 < t'.current := by
  have hfuel : fuelFor endInside ≤ 24 := by decide
  have hbounds := (Tape.shows_start endInside).inBounds
  have hcurrent : (Tape.start endInside).current <
      Tape.firstEnd (Tape.start endInside).tokens := by decide
  obtain ⟨hprogram, hdeclaration, -⟩ := parser_stays_in_bounds endInside
  obtain ⟨p, t, hp, htokens, ht, hend, -⟩ := hprogram 24 hfuel
  obtain ⟨o, t', ho, -, ht', hpassed⟩ := hdeclaration _ 24 rfl hbounds hcurrent hfuel
  refine ⟨⟨hfuel, hbounds, hcurrent⟩, ⟨p, t, hp, ht, ?_⟩, o, t', ho, ht', hpassed⟩
  rw [hend, htokens]
  decide

end Treewalk
