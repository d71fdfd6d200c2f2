import Treewalk.Proofs.Lockstep.Images
import Treewalk.Proofs.Lockstep.Sessions
import Treewalk.Proofs.Sequence

/-!
# One unit or two

Two units run one after the other in a session, or joined by a line break in one unit:
if the first completes and the second is accepted, both give the same outcome, output
and flags, and the same diagnostics and machine up to the lines of tokens of the second
unit (`Session.run_join`).

The joined text has the tokens of both units, it is read and resolved as both programs
(`Accepts.join`), and the machine that the first leaves behind is the one from which
the second goes on (`Eval.interpret_append`). From there a program and its copy on other
lines run in step (`Seam.runs`). Code that was in the machine before stays where it is, code
of the second unit has moved.

Equal tokens may stand in code of both kinds. So that none is taken for another, the lines
of both kinds of code are marked (`Origin.mark`): from a run with marks the lines of both other
runs are read off.
-/

namespace Treewalk

/-! ## The joined unit -/

@[simp] theorem Token.kind_down (k : Nat) (t : Token) : (t.down k).kind = t.kind := rfl

@[simp] theorem Token.lexeme_down (k : Nat) (t : Token) : (t.down k).lexeme = t.lexeme := rfl

theorem Accepts.join {a b : String} {read read' resolved resolved' : Program}
    (ha : Accepts a read resolved) (hb : Accepts b read' resolved') :
    Accepts (a ++ "\n" ++ b) (read ++ read'.map (Stmt.map (Token.down (linesOf a))))
      (resolved ++ resolved'.map (Stmt.map (Token.down (linesOf a)))) := by
  obtain ⟨hla, hra, hsa⟩ := accepts_iff.mp ha
  obtain ⟨hlb, hrb, hsb⟩ := accepts_iff.mp hb
  refine accepts_iff.mpr ⟨scan_join_snd hla hlb, ?_, ?_⟩
  · rw [tokensIn_join hla]
    exact hra.append (hrb.map (Token.kind_down _))
  · have hmoved := Stmt.ScopedAll.map (Token.lexeme_down (linesOf a)) hsb
    rw [Stmt.mapAll_eq, Stmt.mapAll_eq] at hmoved
    exact Stmt.ScopedAll.append hsa hmoved

/-! ## Code on other lines -/

/-- The token on another line. -/
def Token.reline (f : Nat → Nat) (t : Token) : Token :=
  { t with line := f t.line }

def Program.reline (f : Nat → Nat) (p : Program) : Program :=
  p.map (Stmt.map (Token.reline f))

/-- All code that the machine keeps on other lines. -/
def Machine.reline (f : Nat → Nat) (m : Machine) : Machine :=
  m.mapRoutines (Stmt.mapRoutine (Token.reline f))

def Diagnostic.reline (f : Nat → Nat) : Diagnostic → Diagnostic
  | .runtime t fault => .runtime (t.reline f) fault
  | d => d

/-- What becomes of a run, with all tokens on other lines. -/
def Eval.reline (f : Nat → Nat) :
    EStateM.Result Stop Machine Unit → EStateM.Result Stop Machine Unit :=
  Eval.image (Machine.reline f) (Diagnostic.reline f)

@[simp] theorem Token.reline_id : Token.reline id = id := rfl

@[simp] theorem Program.reline_id (p : Program) : p.reline id = p := by
  rw [Program.reline, Token.reline_id, ← Stmt.mapAll_eq, Stmt.mapAll_id]

@[simp] theorem Machine.reline_id (m : Machine) : m.reline id = m := by
  have hroutine : Stmt.mapRoutine id = id := funext Stmt.mapRoutine_id
  rw [Machine.reline, Token.reline_id, hroutine, Machine.mapRoutines_id]

/-! ## Code that moved and code that did not -/

/-- Where code is from: it was in the machine before, or the second unit has it. -/
inductive Origin where
  | earlier
  | added
  deriving DecidableEq

namespace Origin

/-- Code of the second unit moves down by `k` lines. -/
def shift (k : Nat) : Origin → Nat → Nat
  | .earlier => id
  | .added => (· + k)

/-- A line that tells where its code is from, even or odd. -/
def mark : Origin → Nat → Nat
  | .earlier, n => 2 * n
  | .added, n => 2 * n + 1

/-- A marked line as it was. -/
def unmark (n : Nat) : Nat :=
  n / 2

/-- A marked line, further down if it is marked as one of the second unit. -/
def settle (k n : Nat) : Nat :=
  if n % 2 = 0 then n / 2 else n / 2 + k

theorem unmark_mark (o : Origin) (n : Nat) : unmark (o.mark n) = n := by
  cases o <;> simp only [unmark, mark] <;> omega

theorem settle_mark (k : Nat) (o : Origin) (n : Nat) : settle k (o.mark n) = o.shift k n := by
  cases o with
  | earlier =>
    rw [settle, mark, if_pos (by omega), Nat.mul_div_cancel_left n (by decide)]
    rfl
  | added =>
    rw [settle, mark, if_neg (by omega), show (2 * n + 1) / 2 = n by omega]
    rfl

end Origin

/-- A place between two units: how far the second moves down, the tokens of the code
before it and the tokens of the second unit. -/
structure Seam where
  lines : Nat
  earlier : Token → Prop
  added : Token → Prop

namespace Seam

variable (S : Seam)

def has : Origin → Token → Prop
  | .earlier => S.earlier
  | .added => S.added

def move : Origin → Token → Token
  | .earlier => id
  | .added => Token.down S.lines

/-- A token of code, or the name `this` on the line of one, which stands for the result
of an initializer. -/
def From (o : Origin) (t : Token) : Prop :=
  ∃ u, S.has o u ∧ (t = u ∨ t = .named "this" u.line)

/-- The same diagnostic, at a token that moved if the second unit has it. -/
inductive Faults : Diagnostic → Diagnostic → Prop
  | runtime (o : Origin) {t : Token} (f : RuntimeFault) :
    S.From o t → Faults (.runtime t f) (.runtime (S.move o t) f)
  | channel (f : ChannelFault) : Faults (.channel f) (.channel f)

/-- The same routine, moved if the second unit has it. -/
def Routines (o : Origin) (r r' : Routine Stmt) : Prop :=
  r' = Stmt.mapRoutine (S.move o) r ∧ ∀ t ∈ Stmt.tokensRoutine r, S.has o t

structure Closures (f f' : Closure) : Prop where
  routine : ∃ o, S.Routines o f.routine f'.routine
  scope : f'.scope = f.scope
  role : f'.role = f.role

structure Classes (c c' : ClassInfo) : Prop where
  name : c'.name = c.name
  superclass : c'.superclass = c.superclass
  methods : List.Forall₂ (fun m m' => m'.1 = m.1 ∧ S.Closures m.2 m'.2)
    c.methods.entries c'.methods.entries

/-- Machines that differ in the lines of code of the second unit at most: the same
scopes, so the same globals, and the same objects and output. -/
structure Machines (m m' : Machine) : Prop where
  scopes : m'.store.scopes = m.store.scopes
  functions : ∀ id : FunctionId, Option.Rel S.Closures m.store.functions[id]? m'.store.functions[id]?
  natives : m'.store.natives = m.store.natives
  classes : ∀ id : ClassId, Option.Rel S.Classes m.store.classes[id]? m'.store.classes[id]?
  instances : m'.store.instances = m.store.instances
  scope : m'.scope = m.scope
  depth : m'.depth = m.depth
  out : m'.out = m.out
  clock : m'.clock = m.clock
  ticks : m'.ticks = m.ticks

theorem move_eq (o : Origin) : S.move o = Token.reline (o.shift S.lines) := by
  cases o <;> rfl

/-! ## Both runs in step

In one run code of each origin is on the lines that `f` gives, in the other on those of `g`. -/

variable (f g : Origin → Nat → Nat)

/-- Tokens of code with this origin, in both runs. -/
def Tokens (o : Origin) (t t' : Token) : Prop :=
  ∃ u, S.has o u ∧ t = u.reline (f o) ∧ t' = u.reline (g o)

/-- Names of variables in code with this origin, in both runs. -/
def Names (o : Origin) (t t' : Token) : Prop :=
  ∃ u, S.From o u ∧ t = u.reline (f o) ∧ t' = u.reline (g o)

/-- The same diagnostic, at a token of code with some origin. -/
inductive Reports : Diagnostic → Diagnostic → Prop
  | runtime (o : Origin) {t t' : Token} (fault : RuntimeFault) :
    S.Names f g o t t' → Reports (.runtime t fault) (.runtime t' fault)
  | channel (fault : ChannelFault) : Reports (.channel fault) (.channel fault)

/-- Code on its lines in both runs. The surroundings are where it is from. -/
def likeness : Likeness where
  Ctx := Origin
  token := S.Tokens f g
  names o _ := S.Names f g o
  expr o e e' := ∃ e₀ : Expr, (∀ t ∈ e₀.tokens, S.has o t) ∧ e = e₀.map (.reline (f o)) ∧
    e' = e₀.map (.reline (g o))
  stmt o s s' o' := o' = o ∧ ∃ s₀ : Stmt, (∀ t ∈ s₀.tokens, S.has o t) ∧
    s = s₀.map (.reline (f o)) ∧ s' = s₀.map (.reline (g o))
  declares o n n' o' := o' = o ∧ S.Tokens f g o n n'
  opens o o' := o' = o
  enters o ps ps' o' := o' = o ∧ ∃ ps₀ : List Token, (∀ t ∈ ps₀, S.has o t) ∧
    ps = ps₀.map (Token.reline (f o)) ∧ ps' = ps₀.map (Token.reline (g o))
  receives := id
  inherits := id

variable {S f g} {o : Origin}

theorem tokens_of_has {t : Token} (h : S.has o t) :
    S.Tokens f g o (t.reline (f o)) (t.reline (g o)) :=
  ⟨t, h, rfl, rfl⟩

theorem Tokens.names {t t' : Token} (h : S.Tokens f g o t t') : S.Names f g o t t' := by
  obtain ⟨u, hu, ht, ht'⟩ := h
  exact ⟨u, ⟨u, hu, .inl rfl⟩, ht, ht'⟩

theorem Tokens.names_this {t t' : Token} (h : S.Tokens f g o t t') :
    S.Names f g o (.named "this" t.line) (.named "this" t'.line) := by
  obtain ⟨u, hu, rfl, rfl⟩ := h
  exact ⟨.named "this" u.line, ⟨u, hu, .inr rfl⟩, rfl, rfl⟩

theorem ref_likeness {r : Reference} (h : S.has o r.name) :
    (S.likeness f g).Ref o (r.map (.reline (f o))) (r.map (.reline (g o))) :=
  ⟨rfl, (tokens_of_has h).names⟩

theorem exprs_likeness {es : List Expr} (h : ∀ t ∈ Expr.tokensAll es, S.has o t) :
    List.Forall₂ ((S.likeness f g).expr o) (es.map (Expr.map (.reline (f o))))
      (es.map (Expr.map (.reline (g o)))) := by
  rw [List.forall₂_map_left_iff, List.forall₂_map_right_iff, List.forall₂_same]
  exact fun e he => ⟨e, fun t ht => h t (Expr.mem_tokensAll.mpr ⟨e, he, ht⟩), rfl, rfl⟩

theorem expr?_likeness {e : Option Expr} (h : ∀ t ∈ Expr.tokens? e, S.has o t) :
    Option.Rel ((S.likeness f g).expr o) (e.map (Expr.map (.reline (f o))))
      (e.map (Expr.map (.reline (g o)))) := by
  cases e with
  | none => exact .none
  | some e => exact .some ⟨e, h, rfl, rfl⟩

theorem exprParts_likeness {e : Expr} (h : ∀ t ∈ e.tokens, S.has o t) :
    (S.likeness f g).ExprParts o (e.map (.reline (f o))) (e.map (.reline (g o))) := by
  cases e with
  | literal v => exact .literal v
  | group e => exact .group ⟨e, h, rfl, rfl⟩
  | unary op e =>
    obtain ⟨hop, he⟩ := List.forall_mem_cons.mp h
    exact .unary (tokens_of_has hop) ⟨e, he, rfl, rfl⟩
  | binary op a b =>
    simp only [Expr.tokens, List.forall_mem_cons, List.forall_mem_append] at h
    exact .binary (tokens_of_has h.1) ⟨a, h.2.1, rfl, rfl⟩ ⟨b, h.2.2, rfl, rfl⟩
  | logical op a b =>
    simp only [Expr.tokens, List.forall_mem_cons, List.forall_mem_append] at h
    exact .logical (tokens_of_has h.1) ⟨a, h.2.1, rfl, rfl⟩ ⟨b, h.2.2, rfl, rfl⟩
  | var r => exact .var (ref_likeness (h _ (List.mem_singleton_self _)))
  | assign r v =>
    obtain ⟨hr, hv⟩ := List.forall_mem_cons.mp h
    exact .assign (ref_likeness hr) ⟨v, hv, rfl, rfl⟩
  | call callee p args =>
    simp only [Expr.tokens, List.forall_mem_cons, List.forall_mem_append] at h
    rw [Expr.map, Expr.map, Expr.mapAll_eq, Expr.mapAll_eq]
    exact .call ⟨callee, h.2.1, rfl, rfl⟩ (tokens_of_has h.1) (exprs_likeness h.2.2)
  | get e n =>
    obtain ⟨hn, he⟩ := List.forall_mem_cons.mp h
    exact .get ⟨e, he, rfl, rfl⟩ (tokens_of_has hn)
  | set e n v =>
    simp only [Expr.tokens, List.forall_mem_cons, List.forall_mem_append] at h
    exact .set ⟨e, h.2.1, rfl, rfl⟩ (tokens_of_has h.1) ⟨v, h.2.2, rfl, rfl⟩
  | receiver k => exact .receiver (ref_likeness (h _ (List.mem_singleton_self _)))
  | inherited k m =>
    simp only [Expr.tokens, List.forall_mem_cons] at h
    have hk : S.Tokens f g o _ _ := tokens_of_has h.1
    exact .inherited (ref_likeness h.1) hk (fun _ _ => hk.names_this) (tokens_of_has h.2.1)

theorem stmts_likeness {l : List Stmt} (h : ∀ t ∈ Stmt.tokensAll l, S.has o t) :
    (S.likeness f g).Stmts o (l.map (Stmt.map (.reline (f o)))) (l.map (Stmt.map (.reline (g o)))) := by
  induction l with
  | nil => exact .nil
  | cons s l ih =>
    simp only [Stmt.tokensAll, List.forall_mem_append] at h
    exact .cons ⟨rfl, s, h.1, rfl, rfl⟩ (ih h.2)

theorem routines_likeness {r : Routine Stmt} (h : ∀ t ∈ Stmt.tokensRoutine r, S.has o t) :
    (S.likeness f g).Routines o (Stmt.mapRoutine (.reline (f o)) r)
      (Stmt.mapRoutine (.reline (g o)) r) := by
  obtain ⟨name, params, body⟩ := r
  simp only [Stmt.tokensRoutine, List.forall_mem_cons, List.forall_mem_append] at h
  refine ⟨tokens_of_has h.1, o, ⟨rfl, params, h.2.1, rfl, rfl⟩, ?_⟩
  simp only [Stmt.mapRoutine, Stmt.mapAll_eq]
  exact stmts_likeness h.2.2

theorem methods_likeness {ms : List (Routine Stmt)} (h : ∀ t ∈ Stmt.tokensMethods ms, S.has o t) :
    List.Forall₂ ((S.likeness f g).Routines o) (ms.map (Stmt.mapRoutine (.reline (f o))))
      (ms.map (Stmt.mapRoutine (.reline (g o)))) := by
  rw [List.forall₂_map_left_iff, List.forall₂_map_right_iff, List.forall₂_same]
  exact fun r hr => routines_likeness fun t ht => h t (Stmt.mem_tokensMethods.mpr ⟨r, hr, ht⟩)

theorem stmtParts_likeness {s : Stmt} (h : ∀ t ∈ s.tokens, S.has o t) :
    (S.likeness f g).StmtParts o (s.map (.reline (f o))) (s.map (.reline (g o))) o := by
  match s with
  | .expression e => exact .expression ⟨e, h, rfl, rfl⟩
  | .print e => exact .print ⟨e, h, rfl, rfl⟩
  | .declare n e =>
    obtain ⟨hn, he⟩ := List.forall_mem_cons.mp h
    exact .declare (expr?_likeness he) ⟨rfl, tokens_of_has hn⟩
  | .block b =>
    rw [Stmt.map, Stmt.map, Stmt.mapAll_eq, Stmt.mapAll_eq]
    exact .block rfl (stmts_likeness h)
  | .branch c s none =>
    simp only [Stmt.tokens, List.forall_mem_append] at h
    exact .branch ⟨c, h.1, rfl, rfl⟩ ⟨rfl, s, h.2, rfl, rfl⟩ .none
  | .branch c s (some a) =>
    simp only [Stmt.tokens, List.forall_mem_append] at h
    exact .branch ⟨c, h.1, rfl, rfl⟩ ⟨rfl, s, h.2.1, rfl, rfl⟩ (.some ⟨rfl, a, h.2.2, rfl, rfl⟩)
  | .loop c s =>
    simp only [Stmt.tokens, List.forall_mem_append] at h
    exact .loop ⟨c, h.1, rfl, rfl⟩ ⟨rfl, s, h.2, rfl, rfl⟩
  | .function r =>
    have hr := routines_likeness (f := f) (g := g) (r := r) h
    exact .function ⟨rfl, hr.name⟩ hr
  | .leave k e =>
    obtain ⟨_, he⟩ := List.forall_mem_cons.mp h
    exact .leave (expr?_likeness he)
  | .classDecl n none ms =>
    obtain ⟨hn, hms⟩ := List.forall_mem_cons.mp h
    rw [Stmt.map, Stmt.map, Stmt.mapMethods_eq, Stmt.mapMethods_eq]
    exact .base (tokens_of_has hn) ⟨rfl, tokens_of_has hn⟩ (methods_likeness hms)
  | .classDecl n (some r) ms =>
    simp only [Stmt.tokens, List.forall_mem_cons] at h
    rw [Stmt.map, Stmt.map, Stmt.mapMethods_eq, Stmt.mapMethods_eq]
    exact .derived (tokens_of_has h.1) (ref_likeness h.2.1) ⟨rfl, tokens_of_has h.1⟩
      (methods_likeness h.2.2)

theorem kind_of_tokens {t t' : Token} (h : S.Tokens f g o t t') : t.kind = t'.kind := by
  obtain ⟨u, _, rfl, rfl⟩ := h
  rfl

theorem lexeme_of_names {t t' : Token} (h : S.Names f g o t t') : t.lexeme = t'.lexeme := by
  obtain ⟨u, _, rfl, rfl⟩ := h
  rfl

theorem reports_undefined {t t' : Token} (h : S.Names f g o t t') :
    S.Reports f g (Scopes.undefined t) (Scopes.undefined t') := by
  rw [Scopes.undefined, Scopes.undefined, ← lexeme_of_names h]
  exact .runtime o _ h

/-- Which lines parameters are on makes no difference to what is bound to them. -/
theorem bindAll_reline (k : Nat → Nat) (σ : Scopes) (s : ScopeId) (ps : List Token)
    (args : List Value) :
    σ.bindAll s ((ps.map (Token.reline k)).zip args) = σ.bindAll s (ps.zip args) := by
  induction ps generalizing σ args with
  | nil => rfl
  | cons p ps ih =>
    cases args with
    | nil => rfl
    | cons v args =>
      simp only [List.map_cons, List.zip_cons_cons, Scopes.bindAll]
      exact ih _ _

theorem parts_of_likeness {e e' : Expr} (h : (S.likeness f g).expr o e e') :
    (S.likeness f g).ExprParts o e e' := by
  obtain ⟨e₀, h, rfl, rfl⟩ := h
  exact exprParts_likeness h

variable (S f g) in
/-- Runs that differ in the lines of code. Scopes are the same. -/
def runs : Correspondence where
  toLikeness := S.likeness f g
  World := Unit
  le _ _ := True
  le_refl _ := trivial
  le_trans _ _ := trivial
  fault := S.Reports f g
  stands _ _ _ := True
  scopes _ σ σ' := σ = σ'
  kind_eq := kind_of_tokens
  lexeme_eq h := lexeme_of_names h.names
  fault_token _ h := .runtime _ _ h.names
  fault_unary := by
    rintro o _ op op' e e' v fault h rfl _
    exact .runtime o _ (parts_of_likeness h).unary_token.names
  fault_binary := by
    rintro o _ op op' a a' b b' u v fault h rfl _
    exact .runtime o _ (parts_of_likeness h).binary_token.names
  fault_channel := .channel
  fault_superclass h := .runtime _ _ h
  names_this _ h := h.names_this
  expr_parts := parts_of_likeness
  stmt_parts := by
    rintro o _ _ _ ⟨rfl, s, h, rfl, rfl⟩
    exact stmtParts_likeness h
  length_eq := by
    rintro o _ _ _ ⟨rfl, ps, _, rfl, rfl⟩
    rw [List.length_map, List.length_map]
  stands_mono _ _ := trivial
  next_eq h := congrArg Scopes.next h
  find := by
    rintro _ σ _ o s d t t' rfl _ h
    rw [Scopes.find_eq, Scopes.find_eq, ← lexeme_of_names h]
    exact .valueOf (by rw [lexeme_of_names h]) (reports_undefined h)
  inherited := by
    rintro _ σ σ' o s _ k k' m m' _ _ h rfl
    exact .inl (.runtime o _ (parts_of_likeness h).inherited_token.names)
  assign := by
    rintro _ σ _ o s _ r r' e e' v rfl _ h rfl
    obtain ⟨hd, hn⟩ := (parts_of_likeness h).assign_ref
    rw [← hd, ← lexeme_of_names hn]
    cases σ.target? s r.depth r.name.lexeme with
    | none => exact .inr ⟨rfl, rfl, reports_undefined hn⟩
    | some id => exact .inl ⟨id, id, (), rfl, rfl, trivial, rfl⟩
  define := by
    rintro _ σ _ o _ s n n' v rfl _ ⟨rfl, h⟩
    exact ⟨(), trivial, by rw [lexeme_of_names h.names], trivial⟩
  block := by
    rintro _ σ _ o _ s rfl _ rfl
    exact ⟨(), trivial, rfl, trivial⟩
  call := by
    rintro _ σ _ o _ s _ _ args rfl _ ⟨rfl, ps, _, rfl, rfl⟩ _
    exact ⟨(), trivial, by rw [bindAll_reline, bindAll_reline], trivial⟩
  attach := by
    rintro _ σ _ o s id rfl _
    exact ⟨(), trivial, rfl, trivial⟩
  derive := by
    rintro _ σ _ o _ s n n' c v rfl _ ⟨rfl, h⟩
    exact ⟨(), trivial, by rw [lexeme_of_names h.names], trivial, trivial⟩

/-! ## Machines at the seam and after it -/

theorem stmts_eq {o : (S.runs f g).Ctx} {l l' : List Stmt} (h : (S.runs f g).Stmts o l l') :
    ∃ l₀ : List Stmt, (∀ t ∈ Stmt.tokensAll l₀, S.has o t) ∧
      l = l₀.map (Stmt.map (.reline (f o))) ∧ l' = l₀.map (Stmt.map (.reline (g o))) := by
  induction h with
  | nil => exact ⟨[], nofun, rfl, rfl⟩
  | cons hs _ ih =>
    obtain ⟨rfl, s, ht, rfl, rfl⟩ := hs
    obtain ⟨l, hts, rfl, rfl⟩ := ih
    exact ⟨s :: l, List.forall_mem_append.mpr ⟨ht, hts⟩, rfl, rfl⟩

theorem routines_eq {o : (S.runs f g).Ctx} {r r' : Routine Stmt}
    (h : (S.runs f g).Routines o r r') : ∃ r₀, (∀ t ∈ Stmt.tokensRoutine r₀, S.has o t) ∧
      r = Stmt.mapRoutine (.reline (f o)) r₀ ∧ r' = Stmt.mapRoutine (.reline (g o)) r₀ := by
  obtain ⟨name, params, body⟩ := r
  obtain ⟨name', params', body'⟩ := r'
  obtain ⟨⟨n, hn, rfl, rfl⟩, _, ⟨rfl, ps, hps, rfl, rfl⟩, hb⟩ := h
  obtain ⟨b, hbody, rfl, rfl⟩ := stmts_eq hb
  refine ⟨⟨n, ps, b⟩, ?_, ?_, ?_⟩
  · rw [Stmt.tokensRoutine, List.forall_mem_cons, List.forall_mem_append]
    exact ⟨hn, hps, hbody⟩
  · rw [Stmt.mapRoutine, Stmt.mapAll_eq]
  · rw [Stmt.mapRoutine, Stmt.mapAll_eq]

/-- If the one run's lines tell the other's, then the other run is the one on other lines. -/
theorem image_of_lines {k : Nat → Nat} (hk : ∀ o n, k (f o n) = g o n) :
    (S.runs f g).Image (Stmt.mapRoutine (.reline k)) (.reline k) where
  routine_eq {o r r'} h := by
    obtain ⟨r₀, _, rfl, rfl⟩ := routines_eq h
    have hreline : Token.reline k ∘ Token.reline (f o) = Token.reline (g o) :=
      funext fun t => congrArg (fun n => { t with line := n }) (hk o t.line)
    rw [Stmt.mapRoutine_mapRoutine, hreline]
  fault_eq h := by
    cases h with
    | channel => rfl
    | runtime o fault h =>
      obtain ⟨u, _, rfl, rfl⟩ := h
      simp only [Diagnostic.reline, Token.reline, hk]
  scopes_eq h := h

theorem routines_moved {o : Origin} {r r' : Routine Stmt}
    (h : (S.runs (fun _ => id) (Origin.shift S.lines)).Routines o r r') : S.Routines o r r' := by
  obtain ⟨r₀, ht, rfl, rfl⟩ := routines_eq h
  rw [Token.reline_id, Stmt.mapRoutine_id]
  exact ⟨by rw [move_eq], ht⟩

theorem machines_of_runs {w : Unit} {s : ScopeId} {m m' : Machine}
    (h : (S.runs (fun _ => id) (Origin.shift S.lines)).Machines w s m m') : S.Machines m m' where
  scopes := Eq.symm h.store.scopes
  functions id := by
    refine optionRel_imp (fun f f' hf => ?_) (h.store.functions id)
    obtain ⟨hscope, hrole, o, _, hr, _⟩ := hf
    exact ⟨⟨o, routines_moved hr⟩, hscope.symm, hrole.symm⟩
  natives := h.store.natives.symm
  classes id := by
    refine optionRel_imp (fun c c' hc => ⟨hc.name.symm, hc.superclass.symm, ?_⟩) (h.store.classes id)
    refine List.Forall₂.imp (fun m m' hm => ⟨hm.1.symm, ?_⟩) hc.methods
    obtain ⟨hscope, hrole, o, _, hr⟩ := hm.2
    exact ⟨⟨o, routines_moved hr⟩, hscope.symm, hrole.symm⟩
  instances := h.store.instances.symm
  scope := h.scope'.trans h.scope.symm
  depth := h.depth.symm
  out := h.out.symm
  clock := h.clock.symm
  ticks := h.ticks.symm

theorem faults_of_reports {d d' : Diagnostic}
    (h : S.Reports (fun _ => id) (Origin.shift S.lines) d d') : S.Faults d d' := by
  cases h with
  | channel fault => exact .channel fault
  | runtime o fault h =>
    obtain ⟨u, hu, rfl, rfl⟩ := h
    rw [← move_eq]
    exact .runtime o fault hu

end Seam

/-- The token stands in code that the store keeps. -/
def Store.HasToken (st : Store) (t : Token) : Prop :=
  (∃ id : FunctionId, ∃ f ∈ st.functions[id]?, t ∈ Stmt.tokensRoutine f.routine) ∨
    ∃ id : ClassId, ∃ c ∈ st.classes[id]?, ∃ m ∈ c.methods.entries, t ∈ Stmt.tokensRoutine m.2.routine

namespace Seam

variable {S : Seam} {f g : Origin → Nat → Nat}

/-- Before the second unit runs, all code is earlier code. -/
theorem machines_reline {m : Machine} (h : ∀ t, m.store.HasToken t → S.earlier t) :
    (S.runs f g).Machines () m.scope (m.reline (f .earlier)) (m.reline (g .earlier)) := by
  refine ⟨⟨rfl, ?_, fun id => ?_, rfl, ?_, fun id => ?_, rfl⟩, rfl, rfl, rfl, rfl, rfl, rfl⟩
  · exact (Array.size_map ..).trans (Array.size_map ..).symm
  · show Option.Rel _ (m.store.functions.map _)[id]? (m.store.functions.map _)[id]?
    rw [Array.getElem?_map, Array.getElem?_map]
    cases hf : m.store.functions[id]? with
    | none => exact .none
    | some c =>
      have hr := routines_likeness (S := S) (f := f) (g := g) (o := .earlier) (r := c.routine)
        fun t ht => h t (.inl ⟨id, c, hf, ht⟩)
      exact .some ⟨rfl, rfl, Origin.earlier, trivial, hr, fun _ => hr.name.names_this⟩
  · exact (Array.size_map ..).trans (Array.size_map ..).symm
  · show Option.Rel _ (m.store.classes.map _)[id]? (m.store.classes.map _)[id]?
    rw [Array.getElem?_map, Array.getElem?_map]
    cases hc : m.store.classes[id]? with
    | none => exact .none
    | some c =>
      refine .some ⟨rfl, rfl, ?_⟩
      show List.Forall₂ _ (c.methods.entries.map _) (c.methods.entries.map _)
      rw [List.forall₂_map_left_iff, List.forall₂_map_right_iff, List.forall₂_same]
      exact fun p hp => ⟨rfl, rfl, rfl, Origin.earlier, trivial,
        routines_likeness fun t ht => h t (.inr ⟨id, c, hc, p, hp, ht⟩)⟩

/-- The second unit on its lines in both runs, from the machine in between. -/
theorem interpret_reline {m : Machine} (hm : ∀ t, m.store.HasToken t → S.earlier t) {p : Program}
    (hp : ∀ t ∈ Stmt.tokensAll p, S.added t) (fuel : Nat) :
    (S.runs f g).Ends () m.scope (S.runs f g).Same
      (Eval.interpret fuel (p.reline (f .added)) (m.reline (f .earlier)))
      (Eval.interpret fuel (p.reline (g .added)) (m.reline (g .earlier))) :=
  Correspondence.interpret_sim (κ := Origin.added) rfl trivial (stmts_likeness hp) fuel _ _
    (machines_reline hm)

end Seam

/-! ## Sessions -/

/-- Sessions that differ in the lines of tokens of the second unit at most, after
reports that were made from `start` on. -/
structure Seam.Sessions (S : Seam) (start s s' : Session) : Prop where
  machine : S.Machines s.machine s'.machine
  hadError : s'.hadError = s.hadError
  hadRuntimeError : s'.hadRuntimeError = s.hadRuntimeError
  diagnostics : ∃ ds ds', List.Forall₂ S.Faults ds ds' ∧
    s.diagnostics = (start.reportAll ds).diagnostics ∧
    s'.diagnostics = (start.reportAll ds').diagnostics

theorem Seam.sessions_of_runs {S : Seam} {scope : ScopeId} {start s s' : Session}
    (h : (S.runs (fun _ => id) (Origin.shift S.lines)).Sessions scope start s s') :
    S.Sessions start s s' := by
  obtain ⟨⟨w, hm⟩, herror, hruntime, ds, ds', hds, hreports⟩ := h
  exact ⟨machines_of_runs hm, herror, hruntime, ds, ds',
    hds.imp fun _ _ => Seam.faults_of_reports, hreports⟩

theorem Seam.Reports.isStatic_eq {S : Seam} {f g : Origin → Nat → Nat} {d d' : Diagnostic}
    (h : S.Reports f g d d') : d'.isStatic = d.isStatic := by
  cases h <;> rfl

/-- What a run failed with. -/
def Eval.fault? : EStateM.Result Stop Machine Unit → Option Diagnostic
  | .error (.fault d) _ => some d
  | .error .exhausted _ | .ok _ _ => none

namespace Session

theorem conclude_completed {s s' : Session} {r : EStateM.Result Stop Machine Unit}
    (h : s.conclude r = (.completed, s')) :
    r = .ok () s'.machine ∧ s' = { s with machine := s'.machine } := by
  unfold conclude at h
  split at h <;> cases h
  exact ⟨rfl, rfl⟩

theorem conclude_machine (s : Session) (m : Machine) (r : EStateM.Result Stop Machine Unit) :
    conclude { s with machine := m } r = s.conclude r := by
  unfold conclude
  split <;> rfl

/-- Two units, or both in one. If the first completes and the second is accepted, then
running the second after it and running both in one unit have the same outcome, and the
sessions are the same up to the lines of tokens of the second unit: these are further
down by the number of lines of the first. Which tokens these are is told by the run of the
second unit with the lines of its code marked as added and the lines of all earlier code as
earlier: without the marks it is the run in a unit of its own, and with the lines
marked as added further down it is the run in the joined unit. -/
theorem run_join {s after : Session} {fuel : Nat} {a b : String} {read resolved : Program}
    (ha : s.run fuel a = (.completed, after)) (hb : Accepts b read resolved) :
    let marked := Eval.interpret fuel (resolved.reline Origin.added.mark)
      (after.machine.reline Origin.earlier.mark)
    (s.run fuel (a ++ "\n" ++ b)).1 = (after.run fuel b).1 ∧
      Seam.Sessions ⟨linesOf a, after.machine.store.HasToken, (· ∈ tokensIn b)⟩ s
        (after.run fuel b).2 (s.run fuel (a ++ "\n" ++ b)).2 ∧
      after.run fuel b = s.conclude (Eval.reline Origin.unmark marked) ∧
      s.run fuel (a ++ "\n" ++ b) = s.conclude (Eval.reline (Origin.settle (linesOf a)) marked) := by
  intro marked
  have hne : (s.run fuel a).1 ≠ .rejected := by simp [ha]
  obtain ⟨hs, readA, resolvedA, hA⟩ := accepts_of_run hne
  rw [run_of_accepts hs hA, execute_eq] at ha
  obtain ⟨hrun, hafter⟩ := conclude_completed ha
  have hsA : after.hadError = false := by rw [hafter]; exact hs
  have hconclude : ∀ r, after.conclude r = s.conclude r := fun r => by
    rw [hafter, conclude_machine]
  rw [run_of_accepts hs (hA.join hb), run_of_accepts hsA hb, execute_eq, execute_eq,
    Eval.interpret_append fuel (accepts_iff.mp hA).2.2 _ hrun, hconclude]
  -- the second program on two choices of lines, from the machine in between
  let S : Seam := ⟨linesOf a, after.machine.store.HasToken, (· ∈ tokensIn b)⟩
  have hends := fun f g => Seam.interpret_reline (S := S) (f := f) (g := g) (m := after.machine)
    (fun _ ht => ht) hb.mem_tokensIn fuel
  have hmoved := hends (fun _ => id) (Origin.shift S.lines)
  have hunmarked := (Seam.image_of_lines Origin.unmark_mark).ends_eq (hends Origin.mark fun _ => id)
  have hsettled := (Seam.image_of_lines (Origin.settle_mark S.lines)).ends_eq
    (hends Origin.mark (Origin.shift S.lines))
  have hdown : Program.reline (Origin.shift S.lines .added) resolved =
      resolved.map (Stmt.map (Token.down (linesOf a))) := rfl
  have hstay : after.machine.reline (Origin.shift S.lines .earlier) = after.machine :=
    Machine.reline_id _
  rw [Program.reline_id, Machine.reline_id] at hmoved hunmarked
  rw [hdown, hstay] at hmoved hsettled
  obtain ⟨houtcome, hsessions⟩ := conclude_ends Seam.Reports.isStatic_eq hmoved
  exact ⟨houtcome, Seam.sessions_of_runs hsessions, congrArg s.conclude hunmarked.symm,
    congrArg s.conclude hsettled.symm⟩

/-- `fun f() { print x; }`, and then `fun g() { print x; } f();`, where equal tokens are in both
units. The run fails at the one of the first unit, which is on line 1 in both runs. -/
theorem run_join_equal_tokens :
    let x : Token := ⟨.identifier, "x", 1⟩
    let f : Token := ⟨.identifier, "f", 1⟩
    let g : Token := ⟨.identifier, "g", 1⟩
    let first : Program := [.function ⟨f, [], [.print (.var ⟨x, none⟩)]⟩]
    let second : Program := [.function ⟨g, [], [.print (.var ⟨x, none⟩)]⟩,
      .expression (.call (.var ⟨f, none⟩) ⟨.symbol .rightParen, ")", 1⟩ [])]
    let s : Session := .start .unlimited .unlimited fun _ => 0
    let after : Session := (s.execute 9 first).2
    let a := "fun f() \x7b print x; \x7d"
    let b := "fun g() \x7b print x; \x7d f();"
    let marked := Eval.interpret 9 (Program.reline Origin.added.mark second)
      (after.machine.reline Origin.earlier.mark)
    after.machine.store.HasToken x ∧ x ∈ tokensIn b ∧
      ((s.run 9 (a ++ "\n" ++ b)).1 = (after.run 9 b).1 ∧
        Seam.Sessions ⟨linesOf a, after.machine.store.HasToken, (· ∈ tokensIn b)⟩ s
          (after.run 9 b).2 (s.run 9 (a ++ "\n" ++ b)).2 ∧
        after.run 9 b = s.conclude (Eval.reline Origin.unmark marked) ∧
        s.run 9 (a ++ "\n" ++ b) =
          s.conclude (Eval.reline (Origin.settle (linesOf a)) marked)) ∧
      Eval.fault? (Eval.reline (Origin.settle (linesOf a)) marked) =
        some (.runtime x (.undefinedVariable "x")) := by
  intro x f g first second s after a b marked
  have hscan : scan a = ([⟨.symbol .funWord, "fun", 1⟩, f, ⟨.symbol .leftParen, "(", 1⟩,
      ⟨.symbol .rightParen, ")", 1⟩, ⟨.symbol .leftBrace, "\x7b", 1⟩,
      ⟨.symbol .printWord, "print", 1⟩, x, ⟨.symbol .semicolon, ";", 1⟩,
      ⟨.symbol .rightBrace, "\x7d", 1⟩, .endOfFile 1], []) := by
    decide +kernel
  have ha : Accepts a first first := .of_tokens hscan (by cbv) rfl
  have hscan : scan b = ([⟨.symbol .funWord, "fun", 1⟩, g, ⟨.symbol .leftParen, "(", 1⟩,
      ⟨.symbol .rightParen, ")", 1⟩, ⟨.symbol .leftBrace, "\x7b", 1⟩,
      ⟨.symbol .printWord, "print", 1⟩, x, ⟨.symbol .semicolon, ";", 1⟩,
      ⟨.symbol .rightBrace, "\x7d", 1⟩, f, ⟨.symbol .leftParen, "(", 1⟩,
      ⟨.symbol .rightParen, ")", 1⟩, ⟨.symbol .semicolon, ";", 1⟩, .endOfFile 1], []) := by
    decide +kernel
  have hb : Accepts b second second := .of_tokens hscan (by cbv) rfl
  have hfirst : s.run 9 a = (.completed, after) := by
    rw [run_of_accepts rfl ha]
    rfl
  have hx : x ∈ tokensIn b := by
    refine hb.mem_tokensIn x ?_
    simp [second, Stmt.tokensAll, Stmt.tokens, Stmt.tokensRoutine, Expr.tokens]
  have hfault : Eval.fault? (Eval.reline (Origin.settle (linesOf a)) marked) =
      some (.runtime x (.undefinedVariable "x")) := by
    decide +kernel
  refine ⟨.inl ⟨0, ⟨⟨f, [], [.print (.var ⟨x, none⟩)]⟩, 0, .plain⟩, rfl, ?_⟩, hx,
    run_join hfirst hb, hfault⟩
  simp [Stmt.tokensRoutine, Stmt.tokensAll, Stmt.tokens, Expr.tokens]

end Session

end Treewalk
