import Treewalk.Proofs.Grammar.Reads

/-!
# The tokens of a program, read back from its tree

A tree keeps some of the tokens it was read from. The others, its punctuation and
keywords, are the same for every tree of a form, so a tree can be written out
again. What is written (`Expr.yield`, `Stmt.yield`) is the list of the tokens'
marks: their kinds, with the values of literals and the spellings of names. It has
neither lines nor the spellings of literals, which a tree does not keep.

A phrase without a `for` is the yield of its tree (`Reads.yields`): nothing of it
is lost, doubled or moved. A `for` statement is read as a loop inside blocks, so
its tree yields a loop.
-/

namespace Treewalk

/-- What a token says, wherever it stands: its kind, and its spelling if it is a
name. -/
structure Mark where
  kind : Kind
  name : Option String
  deriving DecidableEq, Repr

def Mark.symbol (s : Symbol) : Mark :=
  ⟨.symbol s, none⟩

/-- Lists one after the other, with commas between them. -/
def Mark.commas (entries : List (List Mark)) : List Mark :=
  [Mark.symbol .comma].intercalate entries

def Token.mark (t : Token) : Mark :=
  ⟨t.kind, if t.IsName then some t.lexeme else none⟩

theorem Token.is_iff_mark {t : Token} {s : Symbol} : t.Is s ↔ t.mark = .symbol s := by
  unfold Token.Is Token.mark Token.IsName Mark.symbol
  constructor
  · intro h
    simp [h]
  · intro h
    exact congrArg Mark.kind h

def Literal.mark : Literal → Mark
  | .nil => .symbol .nilWord
  | .bool true => .symbol .trueWord
  | .bool false => .symbol .falseWord
  | .number value => ⟨.number value, none⟩
  | .string value => ⟨.string value, none⟩

mutual

/-- An expression, written out. -/
def Expr.yield : Expr → List Mark
  | .literal v => [v.mark]
  | .unary op e => op.mark :: e.yield
  | .binary op a b | .logical op a b => a.yield ++ op.mark :: b.yield
  | .group e => .symbol .leftParen :: (e.yield ++ [.symbol .rightParen])
  | .var r => [r.name.mark]
  | .assign r v => r.name.mark :: .symbol .equal :: v.yield
  | .call callee p args =>
    callee.yield ++ .symbol .leftParen :: (Mark.commas (Expr.yields args) ++ [p.mark])
  | .get o n => o.yield ++ [.symbol .dot, n.mark]
  | .set o n v => o.yield ++ .symbol .dot :: n.mark :: .symbol .equal :: v.yield
  | .receiver k => [k.name.mark]
  | .inherited k m => [k.name.mark, .symbol .dot, m.mark]

def Expr.yields : List Expr → List (List Mark)
  | [] => []
  | e :: es => e.yield :: Expr.yields es

end

def Expr.yield? : Option Expr → List Mark
  | none => []
  | some e => e.yield

mutual

/-- A statement, written out. -/
def Stmt.yield : Stmt → List Mark
  | .expression e => e.yield ++ [.symbol .semicolon]
  | .print e => .symbol .printWord :: (e.yield ++ [.symbol .semicolon])
  | .declare n none => [.symbol .varWord, n.mark, .symbol .semicolon]
  | .declare n (some e) =>
    .symbol .varWord :: n.mark :: .symbol .equal :: (e.yield ++ [.symbol .semicolon])
  | .block b => .symbol .leftBrace :: (Stmt.yieldAll b ++ [.symbol .rightBrace])
  | .branch c s none =>
    .symbol .ifWord :: .symbol .leftParen :: (c.yield ++ .symbol .rightParen :: s.yield)
  | .branch c s (some a) =>
    .symbol .ifWord :: .symbol .leftParen ::
      (c.yield ++ .symbol .rightParen :: (s.yield ++ .symbol .elseWord :: a.yield))
  | .loop c s =>
    .symbol .whileWord :: .symbol .leftParen :: (c.yield ++ .symbol .rightParen :: s.yield)
  | .function r => .symbol .funWord :: Stmt.yieldRoutine r
  | .leave k e => k.mark :: (Expr.yield? e ++ [.symbol .semicolon])
  | .classDecl n none ms =>
    .symbol .classWord :: n.mark :: .symbol .leftBrace ::
      (Stmt.yieldMethods ms ++ [.symbol .rightBrace])
  | .classDecl n (some r) ms =>
    .symbol .classWord :: n.mark :: .symbol .less :: r.name.mark :: .symbol .leftBrace ::
      (Stmt.yieldMethods ms ++ [.symbol .rightBrace])

def Stmt.yieldAll : List Stmt → List Mark
  | [] => []
  | s :: rest => s.yield ++ Stmt.yieldAll rest

/-- A function or method from the name on, written out. -/
def Stmt.yieldRoutine : Routine Stmt → List Mark
  | ⟨name, params, body⟩ =>
    name.mark :: .symbol .leftParen :: (Mark.commas (params.map fun p => [p.mark]) ++
      .symbol .rightParen :: .symbol .leftBrace :: (Stmt.yieldAll body ++ [.symbol .rightBrace]))

def Stmt.yieldMethods : List (Routine Stmt) → List Mark
  | [] => []
  | r :: rest => Stmt.yieldRoutine r ++ Stmt.yieldMethods rest

end

namespace Parser

theorem yield_operation (i : Nat) (op : Token) (a b : Expr) :
    (operation i op a b).yield = a.yield ++ op.mark :: b.yield := by
  unfold operation
  split <;> rfl

theorem yield_atom {t : Token} {e : Expr} (h : atom? t = some e) : e.yield = [t.mark] := by
  unfold atom? at h
  split at h <;> cases h <;> simp [Expr.yield, Literal.mark, Token.mark, Token.IsName, Mark.symbol, *]

theorem commas_nil : Mark.commas [] = [] := rfl

theorem commas_singleton (ms : List Mark) : Mark.commas [ms] = ms :=
  List.append_nil ms

theorem commas_cons (ms : List Mark) {entries : List (List Mark)} (h : entries ≠ []) :
    Mark.commas (ms :: entries) = ms ++ .symbol .comma :: Mark.commas entries := by
  obtain ⟨_, _, rfl⟩ := List.exists_cons_of_ne_nil h
  simp [Mark.commas]

theorem yields_ne_nil {es : List Expr} (h : es ≠ []) : Expr.yields es ≠ [] := by
  obtain ⟨_, _, rfl⟩ := List.exists_cons_of_ne_nil h
  simp [Expr.yields]

/-- No token of the list begins a `for` statement. -/
def ForFree (ts : List Token) : Prop :=
  ∀ t ∈ ts, ¬ t.Is .forWord

theorem forFree_cons {t : Token} {ts : List Token} :
    ForFree (t :: ts) ↔ ¬ t.Is .forWord ∧ ForFree ts :=
  List.forall_mem_cons

theorem forFree_append {ts us : List Token} : ForFree (ts ++ us) ↔ ForFree ts ∧ ForFree us :=
  List.forall_mem_append

/-- The phrase `ms` is what its tree yields. Where a part of the tree was read
before the phrase, it comes first. -/
def Goal.Yields : Goal → List Mark → Prop
  | .expression e, ms | .operand _ e, ms | .unary e, ms | .primary e, ms => ms = e.yield
  | .chain _ a e, ms | .suffixes a e, ms => a.yield ++ ms = e.yield
  | .arguments es, ms => ms = Mark.commas (Expr.yields es)
  | .items es, ms => es ≠ [] ∧ ms = Mark.commas (Expr.yields es)
  | .clause e, ms => ms = Expr.yield? e
  | .parameters ps, ms => ms = Mark.commas (ps.map fun p => [p.mark])
  | .names ps, ms => ps ≠ [] ∧ ms = Mark.commas (ps.map fun p => [p.mark])
  | .binding s, ms => .symbol .varWord :: ms = s.yield
  -- there is none outside of a `for` statement
  | .initializer _, _ => True
  | .statement _ s, ms | .declaration _ s, ms => ms = s.yield
  | .declarations l, ms => ms = Stmt.yieldAll l
  | .routine r, ms => ms = Stmt.yieldRoutine r
  | .methods l, ms => ms = Stmt.yieldMethods l

theorem Reads.yields {g : Goal} {ts : List Token} (h : Reads g ts) (hfor : ForFree ts) :
    g.Yields (ts.map Token.mark) := by
  induction h with
  | atom h => exact (yield_atom h).symm
  | assign _ heq _ ih ihv =>
    simp only [forFree_cons, forFree_append] at hfor
    have ht := ih hfor.1
    have hv := ihv hfor.2.2
    simp only [Goal.Yields, Expr.yield] at ht hv ⊢
    simp [ht, hv, Token.is_iff_mark.1 heq]
  -- what was read so far is an operand of the tree that the rest of the chain goes on with
  | link _ _ _ _ ihb ihe =>
    simp only [forFree_cons, forFree_append] at hfor
    have hb := ihb hfor.2.1
    have he := ihe hfor.2.2
    simp only [Goal.Yields, yield_operation] at hb he ⊢
    simp [← he, hb]
  | apply hlp _ _ _ ihargs ihe =>
    simp only [forFree_cons, forFree_append] at hfor
    have hargs := ihargs hfor.2.1
    have he := ihe hfor.2.2.2
    simp only [Goal.Yields, Expr.yield] at hargs he ⊢
    simp [← he, hargs, Token.is_iff_mark.1 hlp]
  | property hdot _ _ ih =>
    simp only [forFree_cons] at hfor
    have he := ih hfor.2.2
    simp only [Goal.Yields, Expr.yield] at he ⊢
    simp [← he, Token.is_iff_mark.1 hdot]
  | items _ hcomma _ ih ihes =>
    simp only [forFree_cons, forFree_append] at hfor
    have he := ih hfor.1
    obtain ⟨hne, hes⟩ := ihes hfor.2.2
    simp only [Goal.Yields] at he
    simp [Goal.Yields, Expr.yields, commas_cons _ (yields_ne_nil hne), he, hes,
      Token.is_iff_mark.1 hcomma]
  | _ =>
    simp_all [Goal.Yields, forFree_cons, forFree_append, Token.is_iff_mark, Expr.yield, Expr.yields,
      Expr.yield?, Stmt.yield, Stmt.yieldAll, Stmt.yieldRoutine, Stmt.yieldMethods, commas_nil,
      commas_singleton, commas_cons]

end Parser

end Treewalk
