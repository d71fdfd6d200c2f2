import Treewalk.Proofs.Grammar.Sound
import Treewalk.Proofs.Grammar.Yield
import Treewalk.Token.Scan

/-!
# Operator precedence in the trees of a program

Every expression has a level: that of its outermost operator, or a tighter one if
it has none. In a layered tree (`Expr.Layered`) operators group to the left, and
an operand is never of a looser level than the operator it belongs to, so that no
parentheses are missing. An `else` in a layered tree (`Stmt.Layered`) belongs to
the nearest `if` before it that can have it.

Whatever is read is layered (`Reads.layered`), and if there is no `for` in it, it
is what its tree yields.
-/

namespace Treewalk

/-- How tightly an expression holds together, the loosest first. -/
inductive Level where
  | assignment | disjunction | conjunction | equality | comparison | term | factor
  | unary | call | primary
  deriving DecidableEq, Repr

namespace Level

def rank : Level → Nat
  | assignment => 0 | disjunction => 1 | conjunction => 2 | equality => 3 | comparison => 4
  | term => 5 | factor => 6 | unary => 7 | call => 8 | primary => 9

instance : LE Level := ⟨fun a b => a.rank ≤ b.rank⟩

instance : LT Level := ⟨fun a b => a.rank < b.rank⟩

instance (a b : Level) : Decidable (a ≤ b) := inferInstanceAs (Decidable (a.rank ≤ b.rank))

instance (a b : Level) : Decidable (a < b) := inferInstanceAs (Decidable (a.rank < b.rank))

theorem le_refl (a : Level) : a ≤ a := Nat.le_refl a.rank

theorem le_trans {a b c : Level} (hab : a ≤ b) (hbc : b ≤ c) : a ≤ c := Nat.le_trans hab hbc

theorem lt_of_lt_of_le {a b c : Level} (hab : a < b) (hbc : b ≤ c) : a < c :=
  Nat.lt_of_lt_of_le hab hbc

theorem call_le_primary : call ≤ primary := by decide

end Level

/-- The level of the expressions that a symbol joins. -/
def Symbol.level : Symbol → Level
  | .orWord => .disjunction
  | .andWord => .conjunction
  | .bangEqual | .equalEqual => .equality
  | .greater | .greaterEqual | .less | .lessEqual => .comparison
  | .minus | .plus => .term
  | .slash | .star => .factor
  -- joins nothing: no right operand is tighter than this
  | _ => .primary

def Token.level (t : Token) : Level :=
  match t.kind with
  | .symbol s => s.level
  | _ => .primary

theorem Token.level_of_is {t : Token} {s : Symbol} (h : t.Is s) : t.level = s.level := by
  have hk : t.kind = .symbol s := h
  simp only [Token.level, hk]

def Expr.level : Expr → Level
  | .assign _ _ | .set _ _ _ => .assignment
  | .binary op _ _ | .logical op _ _ => op.level
  | .unary _ _ => .unary
  | .call _ _ _ | .get _ _ => .call
  | .literal _ | .group _ | .var _ | .receiver _ | .inherited _ _ => .primary

/-- Every operand in the expression is of a level that its place allows. An
assignment, looser than all operators, is no operand: it stands where any expression
may stand, which is in parentheses, as an argument and as an assigned value. -/
inductive Expr.Layered : Expr → Prop
  | literal (v : Literal) : (Expr.literal v).Layered
  | var (r : Reference) : (Expr.var r).Layered
  | receiver (k : Reference) : (Expr.receiver k).Layered
  | inherited (k : Reference) (m : Token) : (Expr.inherited k m).Layered
  | group {e : Expr} : e.Layered → (Expr.group e).Layered
  | call {f : Expr} {p : Token} {args : List Expr} : f.Layered → .call ≤ f.level →
    (∀ a ∈ args, a.Layered) → (Expr.call f p args).Layered
  | get {o : Expr} {n : Token} : o.Layered → .call ≤ o.level → (Expr.get o n).Layered
  | unary {op : Token} {e : Expr} : op.Is .bang ∨ op.Is .minus → e.Layered → .unary ≤ e.level →
    (Expr.unary op e).Layered
  | binary {op : Token} {a b : Expr} : .equality ≤ op.level → a.Layered → op.level ≤ a.level →
    b.Layered → op.level < b.level → (Expr.binary op a b).Layered
  | logical {op : Token} {a b : Expr} : op.level ≤ .conjunction → a.Layered → op.level ≤ a.level →
    b.Layered → op.level < b.level → (Expr.logical op a b).Layered
  | assign {r : Reference} {v : Expr} : v.Layered → (Expr.assign r v).Layered
  | set {o v : Expr} {n : Token} : o.Layered → .call ≤ o.level → v.Layered →
    (Expr.set o n v).Layered

/-- The statement ends with an `if` that has no `else`. -/
def Stmt.dangles : Stmt → Bool
  | .branch _ _ none => true
  | .branch _ _ (some a) => a.dangles
  | .loop _ s => s.dangles
  | _ => false

/-- The expressions of the statement are layered, and no `else` follows a statement
that could have had it. -/
inductive Stmt.Layered : Stmt → Prop
  | expression {e : Expr} : e.Layered → (Stmt.expression e).Layered
  | print {e : Expr} : e.Layered → (Stmt.print e).Layered
  | declare {n : Token} {init : Option Expr} : (∀ e ∈ init, e.Layered) →
    (Stmt.declare n init).Layered
  | block {l : List Stmt} : (∀ s ∈ l, s.Layered) → (Stmt.block l).Layered
  | branch {c : Expr} {s : Stmt} : c.Layered → s.Layered → (Stmt.branch c s none).Layered
  | choice {c : Expr} {s a : Stmt} : c.Layered → s.Layered → s.dangles = false → a.Layered →
    (Stmt.branch c s (some a)).Layered
  | loop {c : Expr} {s : Stmt} : c.Layered → s.Layered → (Stmt.loop c s).Layered
  | function {r : Routine Stmt} : (∀ s ∈ r.body, s.Layered) → (Stmt.function r).Layered
  | leave {k : Token} {value : Option Expr} : (∀ e ∈ value, e.Layered) →
    (Stmt.leave k value).Layered
  | classDecl {n : Token} {superclass : Option Reference} {ms : List (Routine Stmt)} :
    (∀ r ∈ ms, ∀ s ∈ r.body, s.Layered) → (Stmt.classDecl n superclass ms).Layered

/-! ## A `for` statement, read as a loop -/

theorem Stmt.Layered.forLoop {init : Option Stmt} {c e : Option Expr} {s : Stmt}
    (hinit : ∀ x ∈ init, x.Layered) (hc : ∀ x ∈ c, x.Layered) (he : ∀ x ∈ e, x.Layered)
    (hs : s.Layered) : (Stmt.forLoop init c e s).Layered := by
  have hcond : (c.getD (.literal (.bool true))).Layered := by
    cases c with
    | none => exact .literal _
    | some x => exact hc x rfl
  have hloop : (Stmt.forLoop none c e s).Layered := by
    cases e with
    | none => exact .loop hcond hs
    | some x => exact .loop hcond (.block (by simpa using ⟨hs, .expression (he x rfl)⟩))
  cases init with
  | none => exact hloop
  | some x => exact .block (by simpa using ⟨hinit x rfl, hloop⟩)

theorem Stmt.dangles_of_forLoop {init : Option Stmt} {c e : Option Expr} {s : Stmt}
    (h : (Stmt.forLoop init c e s).dangles = true) : s.dangles = true := by
  cases init with
  | none =>
    cases e with
    | none => simpa only [Stmt.forLoop, Stmt.dangles] using h
    | some _ => simp [Stmt.forLoop, Stmt.dangles] at h
  | some _ => simp [Stmt.forLoop, Stmt.dangles] at h

namespace Parser

/-! ## The ladder of operators -/

/-- The loosest level of the operands above the operators with an index. -/
def operandLevel : Nat → Level
  | 0 => .unary | 1 => .factor | 2 => .term | 3 => .comparison | 4 => .equality
  | 5 => .conjunction | 6 => .disjunction | _ => .assignment

theorem lt_of_mem_operators {s : Symbol} : ∀ {i : Nat}, s ∈ operators i → i < 7
  | 0, h | _ + 7, h => nomatch h
  | 1, _ | 2, _ | 3, _ | 4, _ | 5, _ | 6, _ => by decide

/-- An operator stands one level below its right operand. Those looser than equality are the
`logical` ones. -/
theorem level_of_operators : ∀ i < 6, ∀ s ∈ operators (i + 1),
    s.level = operandLevel (i + 1) ∧ s.level < operandLevel i ∧
      if i + 1 ≤ 4 then .equality ≤ s.level else s.level ≤ .conjunction := by
  decide

theorem operandLevel_succ_le (i : Nat) : operandLevel (i + 1) ≤ operandLevel i := by
  match i with
  | 0 | 1 | 2 | 3 | 4 | 5 | 6 => decide
  | _ + 7 => exact Level.le_refl _

theorem level_operation (i : Nat) (op : Token) (a b : Expr) :
    (operation i op a b).level = op.level := by
  unfold operation
  split <;> rfl

/-- The expression is layered, and of the level or a tighter one. -/
def From (l : Level) (e : Expr) : Prop :=
  e.Layered ∧ l ≤ e.level

theorem From.mono {l l' : Level} {e : Expr} (h : From l e) (hl : l' ≤ l) : From l' e :=
  ⟨h.1, Level.le_trans hl h.2⟩

theorem from_operation {i : Nat} {op : Token} {s : Symbol} {a b : Expr} (hop : op.Is s)
    (hs : s ∈ operators (i + 1)) (ha : From (operandLevel (i + 1)) a) (hb : From (operandLevel i) b) :
    From (operandLevel (i + 1)) (operation (i + 1) op a b) := by
  have hi : i < 6 := Nat.lt_of_succ_lt_succ (lt_of_mem_operators hs)
  obtain ⟨hlevel, hlt, hnode⟩ := level_of_operators i hi s hs
  rw [← Token.level_of_is hop] at hlevel hlt hnode
  rw [← hlevel] at ha ⊢
  have hright : op.level < b.level := Level.lt_of_lt_of_le hlt hb.2
  refine ⟨?_, (level_operation ..).symm ▸ Level.le_refl _⟩
  unfold operation
  split
  · next h => exact .binary (by rwa [if_pos h] at hnode) ha.1 ha.2 hb.1 hright
  · next h => exact .logical (by rwa [if_neg h] at hnode) ha.1 ha.2 hb.1 hright

theorem from_atom {t : Token} {e : Expr} (h : atom? t = some e) : From .call e := by
  unfold atom? at h
  split at h <;> cases h <;> exact ⟨by constructor, Level.call_le_primary⟩

/-! ## What is read is layered -/

def Goal.Layered : Goal → Prop
  | .expression e => e.Layered
  | .operand i e => From (operandLevel i) e
  | .chain i a e => From (operandLevel i) a → From (operandLevel i) e
  | .unary e => From .unary e
  | .primary e => From .call e
  | .suffixes a e => From .call a → From .call e
  | .arguments es | .items es => ∀ e ∈ es, e.Layered
  | .clause e => ∀ x ∈ e, x.Layered
  | .parameters _ | .names _ => True
  | .binding s | .declaration _ s => s.Layered
  | .initializer s => ∀ x ∈ s, x.Layered
  | .statement d s => s.Layered ∧ (s.dangles = true → d = true)
  | .declarations l => ∀ s ∈ l, s.Layered
  | .routine r => ∀ s ∈ r.body, s.Layered
  | .methods ms => ∀ r ∈ ms, ∀ s ∈ r.body, s.Layered

theorem Reads.layered {g : Goal} {ts : List Token} (h : Reads g ts) : g.Layered := by
  induction h with
  | plain _ ih => exact ih.1
  | assign _ _ _ _ ihv => exact .assign ihv
  | set _ _ _ ih ihv =>
    cases ih.1 with
    | get ho hcall => exact .set ho hcall ihv
  | bottom _ ih => exact ih
  | level _ _ iha ihe => exact ihe (iha.mono (operandLevel_succ_le _))
  | endOfChain | endOfSuffixes => exact id
  | link hop hs _ _ ihb ihe => exact fun ha => ihe (from_operation hop hs ha ihb)
  | @sign _ op s _ hop hs _ ih =>
    have hsign : op.Is .bang ∨ op.Is .minus := by
      simp only [List.mem_cons, List.not_mem_nil, or_false] at hs
      rcases hs with rfl | rfl
      · exact .inl hop
      · exact .inr hop
    exact ⟨.unary hsign ih.1 ih.2, Level.le_refl _⟩
  | call _ _ iha ihe => exact (ihe iha).mono (by decide)
  | apply _ _ _ _ ihargs ihe => exact fun ha => ihe ⟨.call ha.1 ha.2 ihargs, Level.le_refl _⟩
  | property _ _ _ ih => exact fun ha => ih ⟨.get ha.1 ha.2, Level.le_refl _⟩
  | noArguments => exact List.forall_mem_nil _
  | arguments _ _ ih => exact ih
  | item _ ih => exact List.forall_mem_singleton.2 ih
  | items _ _ _ ih ihes => exact List.forall_mem_cons.2 ⟨ih, ihes⟩
  | atom h => exact from_atom h
  | inherited => exact ⟨.inherited _ _, Level.call_le_primary⟩
  | group _ _ _ ih => exact ⟨.group ih, Level.call_le_primary⟩
  | noClause | noInitializer => exact fun _ h => nomatch h
  | clause _ ih => exact fun _ h => Option.some.inj h ▸ ih
  | expressionStatement _ _ ih => exact ⟨.expression ih, nofun⟩
  | print _ _ _ ih => exact ⟨.print ih, nofun⟩
  | leave _ _ _ ih => exact ⟨.leave ih, nofun⟩
  | block _ _ _ ih => exact ⟨.block ih, nofun⟩
  | loop _ _ _ _ _ ihc ihs => exact ⟨.loop ihc ihs.1, fun h => ihs.2 (by simpa [Stmt.dangles] using h)⟩
  | branch _ _ _ _ _ ihc ihs => exact ⟨.branch ihc ihs.1, fun _ => rfl⟩
  | choice _ _ _ _ _ _ _ ihc ihs iha =>
    -- the statement in front of the `else` is not marked, so it cannot have the `else`
    have hs := Bool.eq_false_iff.2 fun h => Bool.noConfusion (ihs.2 h)
    exact ⟨.choice ihc ihs.1 hs iha.1, fun h => iha.2 (by simpa [Stmt.dangles] using h)⟩
  | forLoop _ _ _ _ _ _ _ _ ihi ihc ihe ihs =>
    exact ⟨.forLoop ihi ihc ihe ihs.1, fun h => ihs.2 (Stmt.dangles_of_forLoop h)⟩
  | declareFirst _ _ ih => exact fun _ h => Option.some.inj h ▸ ih
  | expressionFirst _ _ ih => exact fun _ h => Option.some.inj h ▸ .expression ih
  | noParameters | parameters | name | names => trivial
  | uninitialized => exact .declare fun _ h => nomatch h
  | initialized _ _ _ _ ih => exact .declare fun _ h => Option.some.inj h ▸ ih
  | statement _ ih => exact ih.1
  | binding _ _ ih => exact ih
  | function _ _ ih => exact .function ih
  | base _ _ _ _ _ ih => exact .classDecl ih
  | derived _ _ _ _ _ _ _ ih => exact .classDecl ih
  | noDeclarations | noMethods => exact List.forall_mem_nil _
  | declarations _ _ ih ihl => exact List.forall_mem_cons.2 ⟨ih, ihl⟩
  | routine _ _ _ _ _ _ _ _ ih => exact ih
  | methods _ _ ih ihms => exact List.forall_mem_cons.2 ⟨ih, ihms⟩

end Parser

/-- The tree of an accepted program is the right one. Written out it is the program
itself, token for token, unless a `for` was read as a loop, and it is layered. -/
theorem Program.yield_and_layered_of_ofTokens {tokens : List Token} {p : Program}
    (h : Program.ofTokens tokens = (p, [])) :
    ((∀ t ∈ tokens, ¬ t.Is .forWord) →
      Stmt.yieldAll p = (Program.tokens tokens).map Token.mark) ∧ ∀ s ∈ p, s.Layered := by
  have hreads := Program.reads_of_ofTokens h
  refine ⟨fun hfor => ?_, hreads.layered⟩
  have hfree : Parser.ForFree (Program.tokens tokens) := fun t ht => hfor t (List.takeWhile_subset _ ht)
  exact (hreads.yields hfree).symm

/-- Operators of several levels, assignments to a property and to a variable, and
an `else` between two `if`s. -/
theorem Program.yield_and_layered_of_ofTokens_chained :
    let tokens := (scan ("a.b = c = -d * e - f - g or h and !i == j.k(l, m = n)(o);" ++
      "if (p) while (q) if (r) s; else t;")).1
    ((Program.ofTokens tokens).2 = [] ∧ (Program.ofTokens tokens).1.length = 2 ∧
      ∀ t ∈ tokens, ¬ t.Is .forWord) ∧
      Stmt.yieldAll (Program.ofTokens tokens).1 = (Program.tokens tokens).map Token.mark ∧
      ∀ s ∈ (Program.ofTokens tokens).1, s.Layered := by
  intro tokens
  have hread : (Program.ofTokens tokens).2 = [] ∧ (Program.ofTokens tokens).1.length = 2 ∧
      ∀ t ∈ tokens, ¬ t.Is .forWord := by decide +kernel
  clear_value tokens
  have hright := Program.yield_and_layered_of_ofTokens (Prod.ext rfl hread.1)
  exact ⟨hread, hright.1 hread.2.2, hright.2⟩

end Treewalk
