import Treewalk.Proofs.Bounds
import Treewalk.Proofs.Grammar.Complete

/-!
# A clean prefix is parsed on its own

Tokens that are read without a diagnostic are read alike in front of others, unless an `else`
comes next, which the last statement may take. The others are read as if they stood alone.
-/

namespace Treewalk

open Treewalk.Parser

namespace Parser

/-- What was found before is put in front of what is found. -/
theorem declarations_found {decl : Parser (Option Stmt)} {k : Nat} {found l : List Stmt}
    {c c' : Cursor} (h : declarations atEnd decl k found c = .ok l c') (before : List Stmt) :
    declarations atEnd decl k (found ++ before) c = .ok (before.reverse ++ l) c' := by
  induction k generalizing found c with
  | zero => cases h
  | succ k ih =>
    rw [declarations_succ atEnd_eq] at h ⊢
    by_cases hempty : c.rest.isEmpty = true
    · rw [if_pos hempty] at h ⊢
      cases h
      rw [List.reverse_append]
      rfl
    · rw [if_neg hempty] at h ⊢
      change EStateM.bind decl _ c = _ at h
      show EStateM.bind decl _ c = _
      unfold EStateM.bind at h ⊢
      cases hdecl : decl c with
      | ok o c₁ =>
        rw [hdecl] at h
        cases o with
        | some s => exact ih h
        | none => exact ih h
      | error e c₁ =>
        rw [hdecl] at h
        cases h

theorem length_le_of_reads {l : List Stmt} {ts : List Token} (h : Reads (.declarations l) ts) :
    l.length ≤ ts.length := by
  induction l generalizing ts with
  | nil => exact Nat.zero_le _
  | cons s l ih =>
    cases h with
    | declarations hs hl =>
      have hpos := hs.begins.length_pos
      have hle := ih hl
      simp only [List.length_cons, List.length_append]
      omega

/-- Declarations that can be read are found one by one, with one step each, before the rest. -/
theorem declarations_append {l : List Stmt} {ts rest : List Token}
    (h : Reads (.declarations l) ts) (hrest : NoElse rest) {n : Nat} (hn : 2 * ts.length + 5 ≤ n)
    (k : Nat) (found : List Stmt) (last : Token) (reports : List Diagnostic) :
    declarations atEnd (declaration n) (l.length + k) found ⟨ts ++ rest, last, reports⟩ =
      declarations atEnd (declaration n) k (l.reverse ++ found) ⟨rest, last, reports⟩ := by
  induction l generalizing ts found with
  | nil =>
    cases h
    rw [List.length_nil, Nat.zero_add]
    rfl
  | cons s l ih =>
    cases h with
    | @declarations d _ _ ts us hs hl =>
      rw [List.length_append] at hn
      obtain ⟨t, ts', rfl, -⟩ := hs.begins
      have hread := hs.complete n (us ++ rest) (by omega) (fun _ => hl.noElse hrest) last reports
      rw [List.length_cons, Nat.add_right_comm, declarations_succ atEnd_eq, List.append_assoc,
        if_neg (by simp)]
      show EStateM.bind (declaration n) _ _ = _
      simp only [EStateM.bind, hread]
      rw [ih hl (by omega), List.reverse_cons, List.append_assoc]
      rfl

end Parser

theorem Parser.noElse_start {tokens : List Token}
    (h : ∀ t ∈ tokens.head?, t.kind ≠ .symbol .elseWord) : NoElse (Cursor.start tokens).rest := by
  intro t ht
  cases tokens with
  | nil => cases ht
  | cons t' tokens =>
    unfold Cursor.start at ht
    rw [List.takeWhile_cons] at ht
    split at ht
    · exact h t ht
    · cases ht

/-- Tokens that are read without a diagnostic, and no `else` after them, are read alike whatever
follows, which is read as if it stood alone: its statements come after theirs, and the
diagnostics are its own. -/
theorem Program.ofTokens_clean_append {front others : List Token}
    (hfront : ∀ t ∈ front, t.kind ≠ .endOfFile) (hclean : (Program.ofTokens front).2 = [])
    (helse : ∀ t ∈ others.head?, t.kind ≠ .symbol .elseWord) :
    Program.ofTokens (front ++ others) =
      ((Program.ofTokens front).1 ++ (Program.ofTokens others).1, (Program.ofTokens others).2) := by
  by_cases hothers : others = []
  · subst hothers
    have hnone : Program.ofTokens [] = ([], []) := rfl
    rw [List.append_nil, hnone, List.append_nil]
    exact Prod.ext rfl hclean
  have hnot : ∀ t ∈ front, t.isEnd = false := fun t ht =>
    Bool.eq_false_iff.mpr fun hend => hfront t ht (Token.isEnd_iff.mp hend)
  obtain ⟨p, hp⟩ : ∃ p, Program.ofTokens front = (p, []) := ⟨_, Prod.ext rfl hclean⟩
  have hreads : Reads (.declarations p) front := by
    have htokens : Program.tokens front = front := by
      have h : (front ++ []).takeWhile (fun t => !t.isEnd) = front ++ [] :=
        List.takeWhile_append_of_pos fun t ht => by simp [hnot t ht]
      rwa [List.append_nil] at h
    exact htokens ▸ Program.reads_of_ofTokens hp
  -- the fuel for both is enough for either
  have hcount := length_le_of_reads hreads
  have hle := Cursor.length_start_le others
  have hfuel : fuelFor (front ++ others) = 4 * front.length + 4 * others.length + 8 := by
    rw [fuelFor, List.length_append]
    omega
  obtain ⟨k, hk⟩ : ∃ k, fuelFor (front ++ others) = p.length + k :=
    ⟨fuelFor (front ++ others) - p.length, by omega⟩
  obtain ⟨l, c, hl, -⟩ := declarations_total (c := Cursor.start others)
    (n := fuelFor (front ++ others)) (k := k) (by omega) (by omega) []
  have hboth : program (fuelFor (front ++ others)) (Cursor.start (front ++ others)) =
      .ok (p ++ l) c := by
    have hfound := declarations_found hl p.reverse
    rw [List.nil_append, List.reverse_reverse] at hfound
    have happend := declarations_append hreads (noElse_start helse)
      (n := fuelFor (front ++ others)) (by omega) k [] (Cursor.start others).last []
    rw [List.append_nil, ← hk] at happend
    rw [Cursor.start_of_append hnot hothers]
    exact happend.trans hfound
  have hsecond : program (fuelFor others) (Cursor.start others) = .ok l c := by
    rw [← hl]
    apply declarations_fuel (Cursor.closed_start others) <;> simp only [fuelFor] at * <;> omega
  rw [hp]
  unfold Program.ofTokens
  rw [hboth, hsecond]

/-- `if (x) y;`, which would take an `else`. -/
def danglingIf : List Token :=
  [⟨.symbol .ifWord, "if", 1⟩, ⟨.symbol .leftParen, "(", 1⟩, ⟨.identifier, "x", 1⟩,
    ⟨.symbol .rightParen, ")", 1⟩, ⟨.identifier, "y", 1⟩, ⟨.symbol .semicolon, ";", 1⟩]

/-- `+; z;`, of which the first is no statement. -/
def faultyStart : List Token :=
  [⟨.symbol .plus, "+", 2⟩, ⟨.symbol .semicolon, ";", 2⟩, ⟨.identifier, "z", 2⟩,
    ⟨.symbol .semicolon, ";", 2⟩]

theorem Program.ofTokens_clean_append_danglingIf :
    ((∀ t ∈ danglingIf, t.kind ≠ .endOfFile) ∧ (Program.ofTokens danglingIf).2 = [] ∧
      ∀ t ∈ faultyStart.head?, t.kind ≠ .symbol .elseWord) ∧
    Program.ofTokens (danglingIf ++ faultyStart) =
      ((Program.ofTokens danglingIf).1 ++ (Program.ofTokens faultyStart).1,
        (Program.ofTokens faultyStart).2) ∧
    (Program.ofTokens faultyStart).1.length = 1 ∧ (Program.ofTokens faultyStart).2.length = 1 := by
  have hfront : ∀ t ∈ danglingIf, t.kind ≠ .endOfFile := by decide
  have hclean : (Program.ofTokens danglingIf).2 = [] := rfl
  have helse : ∀ t ∈ faultyStart.head?, t.kind ≠ .symbol .elseWord := by decide
  exact ⟨⟨hfront, hclean, helse⟩, Program.ofTokens_clean_append hfront hclean helse, rfl, rfl⟩

end Treewalk
