import Mathlib.Data.List.Perm.Subperm
import Treewalk.Proofs.Grammar.Accepted
import Treewalk.Proofs.Tokens

/-!
# Reading relabelled tokens

How tokens are read depends on their kinds alone: if each token is replaced by one
of the same kind, the tree is the same with its tokens replaced (`Reads.map`), and all
tokens of the same kinds can be read (`Reads.of_kinds`). A tree keeps a token at most as often as the text has it (`Reads.count_le`), though
not in the order of the text, since the increment of a `for` statement moves behind
its body.
-/

namespace Treewalk.Parser

/-- The phrase with its tokens replaced. -/
def Goal.map (f : Token → Token) : Goal → Goal
  | .expression e => .expression (e.map f)
  | .operand i e => .operand i (e.map f)
  | .chain i a e => .chain i (a.map f) (e.map f)
  | .unary e => .unary (e.map f)
  | .primary e => .primary (e.map f)
  | .suffixes a e => .suffixes (a.map f) (e.map f)
  | .arguments es => .arguments (es.map (Expr.map f))
  | .items es => .items (es.map (Expr.map f))
  | .clause e => .clause (e.map (Expr.map f))
  | .parameters ps => .parameters (ps.map f)
  | .names ps => .names (ps.map f)
  | .binding s => .binding (s.map f)
  | .initializer s => .initializer (s.map (Stmt.map f))
  | .statement d s => .statement d (s.map f)
  | .declaration d s => .declaration d (s.map f)
  | .declarations l => .declarations (l.map (Stmt.map f))
  | .routine r => .routine (Stmt.mapRoutine f r)
  | .methods ms => .methods (ms.map (Stmt.mapRoutine f))

section

variable {f : Token → Token} (hf : ∀ t, (f t).kind = t.kind)

include hf

theorem atom?_map {t : Token} {e : Expr} (h : atom? t = some e) :
    atom? (f t) = some (e.map f) := by
  unfold atom? at h ⊢
  rw [hf]
  split at h <;> cases h <;> rfl

theorem Reads.map {g : Goal} {ts : List Token} (h : Reads g ts) : Reads (g.map f) (ts.map f) := by
  have is : ∀ {t s}, Token.Is t s → (f t).Is s := fun h => (hf _).trans h
  have isName : ∀ {t}, Token.IsName t → (f t).IsName := fun h => (hf _).trans h
  have hop : ∀ i op a b, (operation i op a b).map f = operation i (f op) (a.map f) (b.map f) := by
    intro i op a b
    unfold operation
    split <;> rfl
  induction h with
  | plain _ ih => exact .plain ih
  | assign _ heq _ ih₁ ih₂ => simpa [Goal.map, Expr.map] using Reads.assign ih₁ (is heq) ih₂
  | set _ heq _ ih₁ ih₂ => simpa [Goal.map, Expr.map] using Reads.set ih₁ (is heq) ih₂
  | bottom _ ih => exact .bottom ih
  | level _ _ ih₁ ih₂ => simpa [Goal.map] using Reads.level ih₁ ih₂
  | endOfChain => exact .endOfChain
  | link h hs _ _ ih₁ ih₂ =>
    simp only [Goal.map, hop] at ih₂
    simpa [Goal.map] using Reads.link (is h) hs ih₁ ih₂
  | sign h hs _ ih => exact .sign (is h) hs ih
  | call _ _ ih₁ ih₂ => simpa [Goal.map] using Reads.call ih₁ ih₂
  | endOfSuffixes => exact .endOfSuffixes
  | apply hlp _ hrp _ ih₁ ih₂ =>
    simp only [Goal.map, Expr.map, Expr.mapAll_eq] at ih₂
    simpa [Goal.map] using Reads.apply (is hlp) ih₁ (is hrp) ih₂
  | property hdot hn _ ih => exact .property (is hdot) (isName hn) ih
  | noArguments => exact .noArguments
  | arguments _ hlen ih => exact .arguments ih (by simpa using hlen)
  | item _ ih => exact .item ih
  | items _ hc _ ih₁ ih₂ => simpa [Goal.map] using Reads.items ih₁ (is hc) ih₂
  | atom h => exact .atom (atom?_map hf h)
  | inherited hk hdot hn => exact .inherited (is hk) (is hdot) (isName hn)
  | group hlp _ hrp ih => simpa [Goal.map, Expr.map] using Reads.group (is hlp) ih (is hrp)
  | noClause => exact .noClause
  | clause _ ih => exact .clause ih
  | expressionStatement _ hsemi ih =>
    simpa [Goal.map, Stmt.map] using Reads.expressionStatement ih (is hsemi)
  | print hk _ hsemi ih => simpa [Goal.map, Stmt.map] using Reads.print (is hk) ih (is hsemi)
  | leave hk _ hsemi ih => simpa [Goal.map, Stmt.map] using Reads.leave (is hk) ih (is hsemi)
  | block hlb _ hrb ih => simpa [Goal.map, Stmt.map] using Reads.block (is hlb) ih (is hrb)
  | loop hk hlp _ hrp _ ih₁ ih₂ =>
    simpa [Goal.map, Stmt.map] using Reads.loop (is hk) (is hlp) ih₁ (is hrp) ih₂
  | branch hk hlp _ hrp _ ih₁ ih₂ =>
    simpa [Goal.map, Stmt.map] using Reads.branch (is hk) (is hlp) ih₁ (is hrp) ih₂
  | choice hk hlp _ hrp _ hother _ ih₁ ih₂ ih₃ =>
    simpa [Goal.map, Stmt.map] using
      Reads.choice (is hk) (is hlp) ih₁ (is hrp) ih₂ (is hother) ih₃
  | forLoop hk hlp _ _ hsemi _ hrp _ ih₁ ih₂ ih₃ ih₄ =>
    simpa [Goal.map, Stmt.map_forLoop] using
      Reads.forLoop (is hk) (is hlp) ih₁ ih₂ (is hsemi) ih₃ (is hrp) ih₄
  | noInitializer hsemi => exact .noInitializer (is hsemi)
  | declareFirst hk _ ih => exact .declareFirst (is hk) ih
  | expressionFirst _ hsemi ih =>
    simpa [Goal.map, Stmt.map] using Reads.expressionFirst ih (is hsemi)
  | noParameters => exact .noParameters
  | parameters _ hlen ih => exact .parameters ih (by simpa using hlen)
  | name hp => exact .name (isName hp)
  | names hp hc _ ih => exact .names (isName hp) (is hc) ih
  | uninitialized hn hsemi => exact .uninitialized (isName hn) (is hsemi)
  | initialized hn heq _ hsemi ih =>
    simpa [Goal.map, Stmt.map] using Reads.initialized (isName hn) (is heq) ih (is hsemi)
  | statement _ ih => exact .statement ih
  | binding hk _ ih => exact .binding (is hk) ih
  | function hk _ ih => exact .function (is hk) ih
  | base hk hn hlb _ hrb ih =>
    simpa [Goal.map, Stmt.map] using Reads.base (is hk) (isName hn) (is hlb) ih (is hrb)
  | derived hk hn hlt hp hlb _ hrb ih =>
    simpa [Goal.map, Stmt.map, Reference.map] using
      Reads.derived (is hk) (isName hn) (is hlt) (isName hp) (is hlb) ih (is hrb)
  | noDeclarations => exact .noDeclarations
  | declarations _ _ ih₁ ih₂ => simpa [Goal.map] using Reads.declarations ih₁ ih₂
  | routine hn hlp _ hrp hlb _ hrb ih₁ ih₂ =>
    simpa [Goal.map, Stmt.mapRoutine] using
      Reads.routine (isName hn) (is hlp) ih₁ (is hrp) (is hlb) ih₂ (is hrb)
  | noMethods => exact .noMethods
  | methods _ _ ih₁ ih₂ => simpa [Goal.map] using Reads.methods ih₁ ih₂

end

/-- If tokens can be read as a program, so can others of the same kinds. -/
theorem Reads.of_kinds {p : Program} {ts us : List Token} (h : Reads (.declarations p) ts)
    (hk : us.map Token.kind = ts.map Token.kind) : ∃ q : Program, Reads (.declarations q) us := by
  have hderives : Ebnf.Derives (· ≤ maxArity) (.star (.rule .declaration)) ts :=
    h.derives fun _ hle => hle
  exact read_declarations ((hderives.of_kinds hk).means read_of_means)

/-- Programs are read one after the other. -/
theorem Reads.append {l l' : List Stmt} {ts us : List Token} (h : Reads (.declarations l) ts)
    (h' : Reads (.declarations l') us) : Reads (.declarations (l ++ l')) (ts ++ us) := by
  induction l generalizing ts with
  | nil => cases h; exact h'
  | cons s l ih =>
    cases h with
    | declarations hs hl =>
      rw [List.append_assoc]
      exact .declarations hs (ih hl)

/-! ## Where the tokens of a tree come from -/

/-- The tokens that the tree of a phrase keeps. -/
def Goal.tokens : Goal → List Token
  | .expression e | .operand _ e | .chain _ _ e | .unary e | .primary e | .suffixes _ e => e.tokens
  | .arguments es | .items es => Expr.tokensAll es
  | .clause e => Expr.tokens? e
  | .parameters ps | .names ps => ps
  | .binding s | .initializer (some s) | .statement _ s | .declaration _ s => s.tokens
  | .initializer none => []
  | .declarations l => Stmt.tokensAll l
  | .routine r => Stmt.tokensRoutine r
  | .methods ms => Stmt.tokensMethods ms

/-- The tokens of what was read before the phrase and belongs to its tree. -/
def Goal.given : Goal → List Token
  | .chain _ a _ | .suffixes a _ => a.tokens
  | _ => []

theorem tokens_atom {t : Token} {e : Expr} (h : atom? t = some e) : e.tokens = [] ∨ e.tokens = [t] := by
  unfold atom? at h
  split at h <;> cases h <;> simp [Expr.tokens]

theorem tokens_operation (i : Nat) (op : Token) (a b : Expr) :
    (operation i op a b).tokens = op :: (a.tokens ++ b.tokens) := by
  unfold operation
  split <;> rfl

theorem count_forLoop (t : Token) (init : Option Stmt) (c e : Option Expr) (s : Stmt) :
    (Stmt.forLoop init c e s).tokens.count t =
      (Goal.initializer init).tokens.count t + (Expr.tokens? c).count t + (Expr.tokens? e).count t +
        s.tokens.count t := by
  cases init <;> cases c <;> cases e <;>
    simp [Stmt.forLoop, Stmt.tokens, Stmt.tokensAll, Goal.tokens, Expr.tokens, Expr.tokens?] <;> omega

theorem Reads.count_le {g : Goal} {ts : List Token} (h : Reads g ts) (t : Token) :
    g.tokens.count t ≤ g.given.count t + ts.count t := by
  induction h with
  | atom h =>
    rcases tokens_atom h with h | h <;> simp [Goal.tokens, h]
  | link _ _ _ _ ih₁ ih₂ =>
    simp only [Goal.tokens, Goal.given, tokens_operation, List.count_cons, List.count_append,
      List.count_nil] at *
    omega
  | forLoop =>
    simp only [Goal.tokens, Goal.given, count_forLoop, List.count_cons, List.count_append,
      List.count_nil] at *
    omega
  | _ =>
    simp only [Goal.tokens, Goal.given, Expr.tokens, Expr.tokensAll, Expr.tokens?, Stmt.tokens,
      Stmt.tokensAll, Stmt.tokensRoutine, Stmt.tokensMethods, List.count_cons, List.count_append,
      List.count_nil] at *
    omega

/-- The tokens of a program are tokens of the text, each at most as often. -/
theorem Reads.tokens_subperm {p : Program} {ts : List Token} (h : Reads (.declarations p) ts) :
    (Stmt.tokensAll p).Subperm ts := by
  refine List.subperm_ext_iff.mpr fun t _ => ?_
  have hle : (Stmt.tokensAll p).count t ≤ 0 + ts.count t := h.count_le t
  rwa [Nat.zero_add] at hle

end Treewalk.Parser
