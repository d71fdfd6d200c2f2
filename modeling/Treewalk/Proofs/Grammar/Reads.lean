import Treewalk.Grammar.Statement

/-!
# What a token list is read as

`Reads goal ts` says that the tokens `ts` are read as `goal`, a phrase of the
language together with its tree. The rules are those of the grammar, brought into
the form in which the tokens are read: operators of one level are a chain after
the first operand, calls and property accesses are suffixes, an assignment is told
by its target. No token list is read in two ways. In particular a statement is
marked as `dangling` if a following `else` would still belong to it, and a
statement in front of an `else` must not be.

The productions of the parser are compared with `Reads` in both directions, and
what the parser builds is known by induction on `Reads`.
-/

namespace Treewalk

/-- The token is this symbol. -/
def Token.Is (t : Token) (s : Symbol) : Prop :=
  t.kind = .symbol s

def Token.IsName (t : Token) : Prop :=
  t.kind = .identifier

instance (t : Token) (s : Symbol) : Decidable (t.Is s) :=
  inferInstanceAs (Decidable (t.kind = .symbol s))

instance (t : Token) : Decidable t.IsName :=
  inferInstanceAs (Decidable (t.kind = .identifier))

namespace Parser

/-- The operators of a level, level 1 binding most tightly. -/
def operators : Nat → List Symbol
  | 1 => [.slash, .star]
  | 2 => [.minus, .plus]
  | 3 => [.greater, .greaterEqual, .less, .lessEqual]
  | 4 => [.bangEqual, .equalEqual]
  | 5 => [.andWord]
  | 6 => [.orWord]
  | _ => []

/-- The tree of an operator of a level. -/
def operation (level : Nat) : Token → Expr → Expr → Expr :=
  if level ≤ 4 then .binary else .logical

/-- The production for operands above a level, over that for unary expressions. -/
def ladder (unary : Parser Expr) (n : Nat) : Nat → Parser Expr
  | 0 => unary
  | i + 1 => leftAssoc (operation (i + 1)) (operators (i + 1)) (ladder unary n i) n

theorem disjunction_eq (unary : Parser Expr) (n : Nat) : disjunction unary n = ladder unary n 6 :=
  rfl

/-- Phrases with their trees. -/
inductive Goal where
  | expression (e : Expr)
  /-- An operand of the operators above a level; at level 0 a unary expression. -/
  | operand (level : Nat) (e : Expr)
  /-- Operators of a level with their right operands, after `left`. -/
  | chain (level : Nat) (left e : Expr)
  | unary (e : Expr)
  | primary (e : Expr)
  /-- Calls and property accesses, after `left`. -/
  | suffixes (left e : Expr)
  | arguments (es : List Expr)
  /-- Expressions between commas, at least one. -/
  | items (es : List Expr)
  /-- An expression that may be left out. -/
  | clause (e : Option Expr)
  | parameters (ps : List Token)
  /-- Names between commas, at least one. -/
  | names (ps : List Token)
  /-- A variable declaration from the name on. -/
  | binding (s : Stmt)
  /-- The first clause of a `for` statement. -/
  | initializer (s : Option Stmt)
  | statement (dangling : Bool) (s : Stmt)
  | declaration (dangling : Bool) (s : Stmt)
  | declarations (l : List Stmt)
  /-- A function or method from the name on. -/
  | routine (r : Routine Stmt)
  | methods (ms : List (Routine Stmt))

inductive Reads : Goal → List Token → Prop
  -- expressions
  | plain {e : Expr} {ts : List Token} :
    Reads (.operand 6 e) ts → Reads (.expression e) ts
  | assign {r : Reference} {v : Expr} {eq : Token} {ts us : List Token} :
    Reads (.operand 6 (.var r)) ts → eq.Is .equal → Reads (.expression v) us →
    Reads (.expression (.assign r v)) (ts ++ eq :: us)
  | set {o v : Expr} {n eq : Token} {ts us : List Token} :
    Reads (.operand 6 (.get o n)) ts → eq.Is .equal → Reads (.expression v) us →
    Reads (.expression (.set o n v)) (ts ++ eq :: us)
  | bottom {e : Expr} {ts : List Token} : Reads (.unary e) ts → Reads (.operand 0 e) ts
  | level {i : Nat} {a e : Expr} {ts us : List Token} : Reads (.operand i a) ts →
    Reads (.chain (i + 1) a e) us → Reads (.operand (i + 1) e) (ts ++ us)
  | endOfChain {i : Nat} {e : Expr} : Reads (.chain i e e) []
  | link {i : Nat} {a b e : Expr} {op : Token} {s : Symbol} {ts us : List Token} :
    op.Is s → s ∈ operators (i + 1) → Reads (.operand i b) ts →
    Reads (.chain (i + 1) (operation (i + 1) op a b) e) us →
    Reads (.chain (i + 1) a e) (op :: (ts ++ us))
  | sign {e : Expr} {op : Token} {s : Symbol} {ts : List Token} :
    op.Is s → s ∈ [.bang, .minus] → Reads (.unary e) ts → Reads (.unary (.unary op e)) (op :: ts)
  | call {a e : Expr} {ts us : List Token} :
    Reads (.primary a) ts → Reads (.suffixes a e) us → Reads (.unary e) (ts ++ us)
  | endOfSuffixes {e : Expr} : Reads (.suffixes e e) []
  | apply {a e : Expr} {es : List Expr} {lp rp : Token} {ts us : List Token} :
    lp.Is .leftParen → Reads (.arguments es) ts → rp.Is .rightParen →
    Reads (.suffixes (.call a rp es) e) us → Reads (.suffixes a e) (lp :: (ts ++ rp :: us))
  | property {a e : Expr} {dot n : Token} {us : List Token} : dot.Is .dot → n.IsName →
    Reads (.suffixes (.get a n) e) us → Reads (.suffixes a e) (dot :: n :: us)
  | noArguments : Reads (.arguments []) []
  | arguments {es : List Expr} {ts : List Token} :
    Reads (.items es) ts → es.length ≤ maxArity → Reads (.arguments es) ts
  | item {e : Expr} {ts : List Token} : Reads (.expression e) ts → Reads (.items [e]) ts
  | items {e : Expr} {es : List Expr} {comma : Token} {ts us : List Token} :
    Reads (.expression e) ts → comma.Is .comma → Reads (.items es) us →
    Reads (.items (e :: es)) (ts ++ comma :: us)
  | atom {t : Token} {e : Expr} : atom? t = some e → Reads (.primary e) [t]
  | inherited {k dot n : Token} : k.Is .superWord → dot.Is .dot → n.IsName →
    Reads (.primary (.inherited ⟨k, none⟩ n)) [k, dot, n]
  | group {e : Expr} {lp rp : Token} {ts : List Token} : lp.Is .leftParen →
    Reads (.expression e) ts → rp.Is .rightParen → Reads (.primary (.group e)) (lp :: (ts ++ [rp]))
  | noClause : Reads (.clause none) []
  | clause {e : Expr} {ts : List Token} : Reads (.expression e) ts → Reads (.clause (some e)) ts
  -- statements
  | expressionStatement {e : Expr} {semi : Token} {ts : List Token} : Reads (.expression e) ts →
    semi.Is .semicolon → Reads (.statement false (.expression e)) (ts ++ [semi])
  | print {e : Expr} {k semi : Token} {ts : List Token} : k.Is .printWord →
    Reads (.expression e) ts → semi.Is .semicolon →
    Reads (.statement false (.print e)) (k :: (ts ++ [semi]))
  | leave {e : Option Expr} {k semi : Token} {ts : List Token} : k.Is .returnWord →
    Reads (.clause e) ts → semi.Is .semicolon →
    Reads (.statement false (.leave k e)) (k :: (ts ++ [semi]))
  | block {l : List Stmt} {lb rb : Token} {ts : List Token} : lb.Is .leftBrace →
    Reads (.declarations l) ts → rb.Is .rightBrace →
    Reads (.statement false (.block l)) (lb :: (ts ++ [rb]))
  | loop {c : Expr} {d : Bool} {s : Stmt} {k lp rp : Token} {ts us : List Token} :
    k.Is .whileWord → lp.Is .leftParen → Reads (.expression c) ts → rp.Is .rightParen →
    Reads (.statement d s) us → Reads (.statement d (.loop c s)) (k :: lp :: (ts ++ rp :: us))
  | branch {c : Expr} {d : Bool} {s : Stmt} {k lp rp : Token} {ts us : List Token} :
    k.Is .ifWord → lp.Is .leftParen → Reads (.expression c) ts → rp.Is .rightParen →
    Reads (.statement d s) us →
    Reads (.statement true (.branch c s none)) (k :: lp :: (ts ++ rp :: us))
  | choice {c : Expr} {d : Bool} {s a : Stmt} {k lp rp other : Token} {ts us vs : List Token} :
    k.Is .ifWord → lp.Is .leftParen → Reads (.expression c) ts → rp.Is .rightParen →
    Reads (.statement false s) us → other.Is .elseWord → Reads (.statement d a) vs →
    Reads (.statement d (.branch c s (some a))) (k :: lp :: (ts ++ rp :: (us ++ other :: vs)))
  | forLoop {init : Option Stmt} {c e : Option Expr} {d : Bool} {s : Stmt} {k lp semi rp : Token}
      {ts us vs ws : List Token} :
    k.Is .forWord → lp.Is .leftParen → Reads (.initializer init) ts → Reads (.clause c) us →
    semi.Is .semicolon → Reads (.clause e) vs → rp.Is .rightParen → Reads (.statement d s) ws →
    Reads (.statement d (.forLoop init c e s))
      (k :: lp :: (ts ++ (us ++ semi :: (vs ++ rp :: ws))))
  | noInitializer {semi : Token} : semi.Is .semicolon → Reads (.initializer none) [semi]
  | declareFirst {s : Stmt} {k : Token} {ts : List Token} :
    k.Is .varWord → Reads (.binding s) ts → Reads (.initializer (some s)) (k :: ts)
  | expressionFirst {e : Expr} {semi : Token} {ts : List Token} : Reads (.expression e) ts →
    semi.Is .semicolon → Reads (.initializer (some (.expression e))) (ts ++ [semi])
  -- declarations
  | noParameters : Reads (.parameters []) []
  | parameters {ps : List Token} {ts : List Token} :
    Reads (.names ps) ts → ps.length ≤ maxArity → Reads (.parameters ps) ts
  | name {p : Token} : p.IsName → Reads (.names [p]) [p]
  | names {p comma : Token} {ps ts : List Token} : p.IsName → comma.Is .comma →
    Reads (.names ps) ts → Reads (.names (p :: ps)) (p :: comma :: ts)
  | uninitialized {n semi : Token} : n.IsName → semi.Is .semicolon →
    Reads (.binding (.declare n none)) [n, semi]
  | initialized {n eq semi : Token} {e : Expr} {ts : List Token} : n.IsName → eq.Is .equal →
    Reads (.expression e) ts → semi.Is .semicolon →
    Reads (.binding (.declare n (some e))) (n :: eq :: (ts ++ [semi]))
  | statement {d : Bool} {s : Stmt} {ts : List Token} :
    Reads (.statement d s) ts → Reads (.declaration d s) ts
  | binding {s : Stmt} {k : Token} {ts : List Token} :
    k.Is .varWord → Reads (.binding s) ts → Reads (.declaration false s) (k :: ts)
  | function {r : Routine Stmt} {k : Token} {ts : List Token} :
    k.Is .funWord → Reads (.routine r) ts → Reads (.declaration false (.function r)) (k :: ts)
  | base {ms : List (Routine Stmt)} {k n lb rb : Token} {ts : List Token} : k.Is .classWord →
    n.IsName → lb.Is .leftBrace → Reads (.methods ms) ts → rb.Is .rightBrace →
    Reads (.declaration false (.classDecl n none ms)) (k :: n :: lb :: (ts ++ [rb]))
  | derived {ms : List (Routine Stmt)} {k n lt p lb rb : Token} {ts : List Token} :
    k.Is .classWord → n.IsName → lt.Is .less → p.IsName → lb.Is .leftBrace →
    Reads (.methods ms) ts → rb.Is .rightBrace →
    Reads (.declaration false (.classDecl n (some ⟨p, none⟩) ms))
      (k :: n :: lt :: p :: lb :: (ts ++ [rb]))
  | noDeclarations : Reads (.declarations []) []
  | declarations {d : Bool} {s : Stmt} {l : List Stmt} {ts us : List Token} :
    Reads (.declaration d s) ts → Reads (.declarations l) us →
    Reads (.declarations (s :: l)) (ts ++ us)
  | routine {n lp rp lb rb : Token} {ps : List Token} {l : List Stmt} {ts us : List Token} :
    n.IsName → lp.Is .leftParen → Reads (.parameters ps) ts → rp.Is .rightParen →
    lb.Is .leftBrace → Reads (.declarations l) us → rb.Is .rightBrace →
    Reads (.routine ⟨n, ps, l⟩) (n :: lp :: (ts ++ rp :: lb :: (us ++ [rb])))
  | noMethods : Reads (.methods []) []
  | methods {r : Routine Stmt} {ms : List (Routine Stmt)} {ts us : List Token} :
    Reads (.routine r) ts → Reads (.methods ms) us → Reads (.methods (r :: ms)) (ts ++ us)

end Parser

end Treewalk
