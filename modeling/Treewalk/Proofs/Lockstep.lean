import Mathlib.Data.List.Forall2
import Treewalk.Proofs.Watch

/-!
# Two runs in step

Two programs whose trees correspond, run from machines that correspond, stay in
step: they make the same objects, compute the same values and end in the same
way. What corresponds to what is left open. A `Likeness` says which trees do, one
level at a time and within lexical surroundings; a `Correspondence` adds which
tables of scopes do, and how each thing a program can do to the scopes (open a
block, enter a call, bind `this` or `super`, define, assign, look up) keeps it.

`Correspondence.evaluators` and `Correspondence.interpret_sim` go through the rules
of evaluation once, for all correspondences. Since objects are named by the order in
which they are made, corresponding runs use the same names, and values need no
relation of their own.

The code of the first run may carry more than the rules need; a likeness says how it is
read (`Likeness.reading`).
-/

namespace Treewalk

/-- Tables of the same names, in the same order, with values that `R` relates. -/
def Bindings.Rel {α β : Type} (R : α → β → Prop) (b : Bindings α) (b' : Bindings β) : Prop :=
  List.Forall₂ (fun p q => p.1 = q.1 ∧ R p.2 q.2) b.entries b'.entries

theorem Bindings.Rel.forall_right {α β : Type} {R : α → β → Prop} {b : Bindings α}
    {b' : Bindings β} (h : b.Rel R b') {P : β → Prop} (hP : ∀ x y, R x y → P y) :
    ∀ p ∈ b'.entries, P p.2 := by
  unfold Rel at h
  generalize b.entries = l at h
  generalize b'.entries = l' at h
  induction h with
  | nil => exact nofun
  | cons hxy _ ih => exact List.forall_mem_cons.mpr ⟨hP _ _ hxy.2, ih⟩

/-- The look-up of a variable at a recorded distance, or among the globals. -/
def Scopes.find (σ : Scopes) (s : ScopeId) : Option Nat → Token → Except Diagnostic Value
  | some d, name => σ.getAt s d name
  | none, name => σ.get Machine.globals name

/-- The scope that an assignment changes. -/
def Scopes.target? (σ : Scopes) (s : ScopeId) : Option Nat → String → Option ScopeId
  | some d, name => σ.ownerAt? s d name
  | none, name => σ.owner? Machine.globals name

/-- Binds parameters to arguments in one scope. -/
def Scopes.bindAll (σ : Scopes) (s : ScopeId) : List (Token × Value) → Scopes
  | [] => σ
  | (param, arg) :: rest => (σ.define s param.lexeme arg).bindAll s rest

/-- What counts as alike in two trees. The surroundings `Ctx` of a node are what
a pass over the tree knows about the scopes around it. -/
structure Likeness where
  Ctx : Type
  /-- How the code of the first run is read. -/
  reading : CodeReading := .plain
  /-- Operators, names of functions, classes and properties, places of faults. -/
  token : Ctx → Token → Token → Prop
  /-- Names of one variable, at a recorded distance or among the globals. -/
  names : Ctx → Option Nat → Token → Token → Prop
  expr : Ctx → Expr → Expr → Prop
  /-- Statements, with the surroundings of what follows them. -/
  stmt : Ctx → Stmt → Stmt → Ctx → Prop
  /-- Names declared in the innermost scope, with the surroundings from then on. -/
  declares : Ctx → Token → Token → Ctx → Prop
  /-- The surroundings at the start of a block. -/
  opens : Ctx → Ctx → Prop
  /-- The surroundings at the start of a body, inside its parameters. -/
  enters : Ctx → List Token → List Token → Ctx → Prop
  /-- Inside the scope of `this`. -/
  receives : Ctx → Ctx
  /-- Inside the scope of `super`. -/
  inherits : Ctx → Ctx

namespace Likeness

variable (L : Likeness)

def Ref (κ : L.Ctx) (r r' : Reference) : Prop :=
  r.depth = r'.depth ∧ L.names κ r.depth r.name r'.name

/-- Statements one after the other. -/
inductive Stmts : L.Ctx → List Stmt → List Stmt → Prop
  | nil {κ : L.Ctx} : Stmts κ [] []
  | cons {κ κ' : L.Ctx} {s s' : Stmt} {rest rest' : List Stmt} :
    L.stmt κ s s' κ' → Stmts κ' rest rest' → Stmts κ (s :: rest) (s' :: rest')

/-- Routines that are made in surroundings `κ`. -/
structure Routines (κ : L.Ctx) (r r' : Routine Stmt) : Prop where
  name : L.token κ r.name r'.name
  body : ∃ κ₀, L.enters κ r.params r'.params κ₀ ∧ L.Stmts κ₀ r.body r'.body

/-- Expressions of one form whose parts are alike. -/
inductive ExprParts (κ : L.Ctx) : Expr → Expr → Prop
  | literal (v : Literal) : ExprParts κ (.literal v) (.literal v)
  | group {e e' : Expr} : L.expr κ e e' → ExprParts κ (.group e) (.group e')
  | unary {op op' : Token} {e e' : Expr} :
    L.token κ op op' → L.expr κ e e' → ExprParts κ (.unary op e) (.unary op' e')
  | binary {op op' : Token} {a a' b b' : Expr} : L.token κ op op' → L.expr κ a a' → L.expr κ b b' →
    ExprParts κ (.binary op a b) (.binary op' a' b')
  | logical {op op' : Token} {a a' b b' : Expr} : L.token κ op op' → L.expr κ a a' → L.expr κ b b' →
    ExprParts κ (.logical op a b) (.logical op' a' b')
  | var {r r' : Reference} : L.Ref κ r r' → ExprParts κ (.var r) (.var r')
  | assign {r r' : Reference} {e e' : Expr} :
    L.Ref κ r r' → L.expr κ e e' → ExprParts κ (.assign r e) (.assign r' e')
  | call {f f' : Expr} {p p' : Token} {args args' : List Expr} : L.expr κ f f' → L.token κ p p' →
    List.Forall₂ (L.expr κ) args args' → ExprParts κ (.call f p args) (.call f' p' args')
  | get {o o' : Expr} {n n' : Token} :
    L.expr κ o o' → L.token κ n n' → ExprParts κ (.get o n) (.get o' n')
  | set {o o' v v' : Expr} {n n' : Token} : L.expr κ o o' → L.token κ n n' → L.expr κ v v' →
    ExprParts κ (.set o n v) (.set o' n' v')
  | receiver {k k' : Reference} : L.Ref κ k k' → ExprParts κ (.receiver k) (.receiver k')
  | inherited {k k' : Reference} {m m' : Token} : L.Ref κ k k' → L.token κ k.name k'.name →
    (∀ d, k.depth = some (d + 1) →
      L.names κ (some d) (.named "this" k.name.line) (.named "this" k'.name.line)) →
    L.token κ m m' → ExprParts κ (.inherited k m) (.inherited k' m')

/-- Statements of one form whose parts are alike. What stands under a condition
declares nothing. -/
inductive StmtParts (κ : L.Ctx) : Stmt → Stmt → L.Ctx → Prop
  | expression {e e' : Expr} : L.expr κ e e' → StmtParts κ (.expression e) (.expression e') κ
  | print {e e' : Expr} : L.expr κ e e' → StmtParts κ (.print e) (.print e') κ
  | declare {n n' : Token} {e e' : Option Expr} {κ' : L.Ctx} : Option.Rel (L.expr κ) e e' →
    L.declares κ n n' κ' → StmtParts κ (.declare n e) (.declare n' e') κ'
  | block {b b' : List Stmt} {κ₀ : L.Ctx} :
    L.opens κ κ₀ → L.Stmts κ₀ b b' → StmtParts κ (.block b) (.block b') κ
  | branch {c c' : Expr} {s s' : Stmt} {a a' : Option Stmt} : L.expr κ c c' → L.stmt κ s s' κ →
    Option.Rel (fun t t' => L.stmt κ t t' κ) a a' → StmtParts κ (.branch c s a) (.branch c' s' a') κ
  | loop {c c' : Expr} {s s' : Stmt} :
    L.expr κ c c' → L.stmt κ s s' κ → StmtParts κ (.loop c s) (.loop c' s') κ
  | function {r r' : Routine Stmt} {κ' : L.Ctx} : L.declares κ r.name r'.name κ' →
    L.Routines κ' r r' → StmtParts κ (.function r) (.function r') κ'
  | leave {k k' : Token} {e e' : Option Expr} :
    Option.Rel (L.expr κ) e e' → StmtParts κ (.leave k e) (.leave k' e') κ
  | base {n n' : Token} {ms ms' : List (Routine Stmt)} {κ' : L.Ctx} : L.token κ n n' →
    L.declares κ n n' κ' → List.Forall₂ (L.Routines (L.receives κ')) ms ms' →
    StmtParts κ (.classDecl n none ms) (.classDecl n' none ms') κ'
  | derived {n n' : Token} {r r' : Reference} {ms ms' : List (Routine Stmt)} {κ' : L.Ctx} :
    L.token κ n n' → L.Ref κ r r' → L.declares κ n n' κ' →
    List.Forall₂ (L.Routines (L.receives (L.inherits κ'))) ms ms' →
    StmtParts κ (.classDecl n (some r) ms) (.classDecl n' (some r') ms') κ'

variable {L} {κ : L.Ctx}

theorem ExprParts.unary_token {op op' : Token} {e e' : Expr}
    (h : L.ExprParts κ (.unary op e) (.unary op' e')) : L.token κ op op' := by
  cases h with | unary hop _ => exact hop

theorem ExprParts.binary_token {op op' : Token} {a a' b b' : Expr}
    (h : L.ExprParts κ (.binary op a b) (.binary op' a' b')) : L.token κ op op' := by
  cases h with | binary hop _ _ => exact hop

theorem ExprParts.inherited_token {k k' : Reference} {m m' : Token}
    (h : L.ExprParts κ (.inherited k m) (.inherited k' m')) : L.token κ k.name k'.name := by
  cases h with | inherited _ hk _ _ => exact hk

theorem ExprParts.assign_ref {r r' : Reference} {e e' : Expr}
    (h : L.ExprParts κ (.assign r e) (.assign r' e')) : L.Ref κ r r' := by
  cases h with | assign hr _ => exact hr

end Likeness

/-- Faults that turn on the form of the tree: a name without a variable, an operator that
is none, a `super` that no class is around. -/
def RuntimeFault.ofForm : RuntimeFault → Bool
  | undefinedVariable _ | invalidUnary | invalidBinary | superOutsideClass => true
  | undefinedProperty _ | operandNotNumber | operandsNotNumbers | operandsNotAddable | notCallable
  | arity _ _ | stackOverflow | noProperties | noFields | superclassNotClass | native _ => false

/-- Two look-ups with the same answer, or with faults that correspond. -/
inductive Answers (fault : Diagnostic → Diagnostic → Prop) :
    Except Diagnostic Value → Except Diagnostic Value → Prop
  | ok (v : Value) : Answers fault (.ok v) (.ok v)
  | error {d d' : Diagnostic} : fault d d' → Answers fault (.error d) (.error d')

theorem Answers.eq_ok {fault : Diagnostic → Diagnostic → Prop} {v : Value}
    {x : Except Diagnostic Value} (h : Answers fault (.ok v) x) : x = .ok v := by
  cases h with | ok => rfl

theorem Answers.of_ok {fault : Diagnostic → Diagnostic → Prop} {x : Except Diagnostic Value}
    (h : ∀ d, x = .error d → fault d d) : Answers fault x x := by
  cases x with
  | ok v => exact .ok v
  | error d => exact .error (h d rfl)

theorem Scopes.find_eq (σ : Scopes) (s : ScopeId) (d : Option Nat) (t : Token) :
    σ.find s d t = σ.valueOf (σ.target? s d t.lexeme) t := by
  cases d <;> rfl

theorem Answers.valueOf {fault : Diagnostic → Diagnostic → Prop} {σ σ' : Scopes}
    {owner owner' : Option ScopeId} {t t' : Token}
    (h : (owner.bind fun id => σ.value? id t.lexeme) = owner'.bind fun id => σ'.value? id t'.lexeme)
    (hfault : fault (Scopes.undefined t) (Scopes.undefined t')) :
    Answers fault (σ.valueOf owner t) (σ'.valueOf owner' t') := by
  unfold Scopes.valueOf
  rw [← h]
  split
  · exact .ok _
  · exact .error hfault

/-- A likeness of trees together with one of scopes. A `World` is what is known of
the scopes made so far; `le` says that nothing of it is forgotten. Faults that turn on the
form of the tree correspond as far as they can occur. -/
structure Correspondence extends Likeness where
  World : Type
  le : World → World → Prop
  le_refl (w : World) : le w w
  le_trans {u v w : World} : le u v → le v w → le u w
  fault : Diagnostic → Diagnostic → Prop
  /-- The surroundings of what runs in a scope. -/
  stands : World → Ctx → ScopeId → Prop
  scopes : World → Scopes → Scopes → Prop
  kind_eq {κ : Ctx} {t t' : Token} : token κ t t' → t.kind = t'.kind
  lexeme_eq {κ : Ctx} {t t' : Token} : token κ t t' → t.lexeme = t'.lexeme
  fault_token {κ : Ctx} {t t' : Token} {f : RuntimeFault} : f.ofForm = false → token κ t t' →
    fault (.runtime t f) (.runtime t' f)
  fault_channel (f : ChannelFault) : fault (.channel f) (.channel f)
  fault_superclass {κ : Ctx} {d : Option Nat} {t t' : Token} : names κ d t t' →
    fault (.runtime t .superclassNotClass) (.runtime t' .superclassNotClass)
  fault_unary {κ : Ctx} {x : Expr} {op op' : Token} {e e' : Expr} {v : Value} {f : RuntimeFault} :
    expr κ x (.unary op' e') → reading.expr x = .unary op e → Value.unary op.kind v = .error f →
    fault (.runtime op f) (.runtime op' f)
  fault_binary {κ : Ctx} {x : Expr} {op op' : Token} {a a' b b' : Expr} {u v : Value}
    {f : RuntimeFault} : expr κ x (.binary op' a' b') → reading.expr x = .binary op a b →
    Value.binary op.kind u v = .error f → fault (.runtime op f) (.runtime op' f)
  names_this {t t' : Token} (κ : Ctx) : token (receives κ) t t' →
    names (receives κ) (some 0) (.named "this" t.line) (.named "this" t'.line)
  expr_parts {κ : Ctx} {e e' : Expr} : expr κ e e' → toLikeness.ExprParts κ (reading.expr e) e'
  stmt_parts {κ κ' : Ctx} {s s' : Stmt} : stmt κ s s' κ' →
    toLikeness.StmtParts κ (reading.stmt s) s' κ'
  length_eq {κ κ₀ : Ctx} {ps ps' : List Token} : enters κ ps ps' κ₀ → ps.length = ps'.length
  stands_mono {w w' : World} {κ : Ctx} {s : ScopeId} : le w w' → stands w κ s → stands w' κ s
  next_eq {w : World} {σ σ' : Scopes} : scopes w σ σ' → σ.next = σ'.next
  find {w : World} {σ σ' : Scopes} {κ : Ctx} {s : ScopeId} {d : Option Nat} {t t' : Token} :
    scopes w σ σ' → stands w κ s → names κ d t t' → Answers fault (σ.find s d t) (σ'.find s d t')
  /-- `super` is misplaced in both runs, or it is bound to a class and the `this` of one
  scope further in to an instance. -/
  inherited {w : World} {σ σ' : Scopes} {κ : Ctx} {s : ScopeId} {x : Expr} {k k' : Reference}
    {m m' : Token} : scopes w σ σ' → stands w κ s → expr κ x (.inherited k' m') →
    reading.expr x = .inherited k m →
    fault (.runtime k.name .superOutsideClass) (.runtime k'.name .superOutsideClass) ∨
    ∃ d c o, k.depth = some (d + 1) ∧ σ.getAt s (d + 1) k.name = .ok (.cls c) ∧
      σ.getAt s d (.named "this" k.name.line) = .ok (.object o)
  assign {w : World} {σ σ' : Scopes} {κ : Ctx} {s : ScopeId} {x : Expr} {r r' : Reference}
    {e e' : Expr} (v : Value) : scopes w σ σ' → stands w κ s → expr κ x (.assign r' e') →
    reading.expr x = .assign r e →
    (∃ id id' w', σ.target? s r.depth r.name.lexeme = some id ∧
      σ'.target? s r'.depth r'.name.lexeme = some id' ∧ le w w' ∧
      scopes w' (σ.define id r.name.lexeme v) (σ'.define id' r'.name.lexeme v)) ∨
    (σ.target? s r.depth r.name.lexeme = none ∧ σ'.target? s r'.depth r'.name.lexeme = none ∧
      fault (Scopes.undefined r.name) (Scopes.undefined r'.name))
  define {w : World} {σ σ' : Scopes} {κ κ' : Ctx} {s : ScopeId} {n n' : Token} (v : Value) :
    scopes w σ σ' → stands w κ s → declares κ n n' κ' →
    ∃ w', le w w' ∧ scopes w' (σ.define s n.lexeme v) (σ'.define s n'.lexeme v) ∧ stands w' κ' s
  block {w : World} {σ σ' : Scopes} {κ κ₀ : Ctx} {s : ScopeId} :
    scopes w σ σ' → stands w κ s → opens κ κ₀ →
    ∃ w', le w w' ∧ scopes w' (σ.push (some s)) (σ'.push (some s)) ∧ stands w' κ₀ σ.next
  call {w : World} {σ σ' : Scopes} {κ κ₀ : Ctx} {s : ScopeId} {ps ps' : List Token}
    {args : List Value} : scopes w σ σ' → stands w κ s → enters κ ps ps' κ₀ →
    args.length = ps.length →
    ∃ w', le w w' ∧ scopes w' ((σ.push (some s)).bindAll σ.next (ps.zip args))
      ((σ'.push (some s)).bindAll σ'.next (ps'.zip args)) ∧ stands w' κ₀ σ.next
  attach {w : World} {σ σ' : Scopes} {κ : Ctx} {s : ScopeId} (o : InstanceId) :
    scopes w σ σ' → stands w κ s →
    ∃ w', le w w' ∧ scopes w' ((σ.push (some s)).define σ.next "this" (.object o))
      ((σ'.push (some s)).define σ'.next "this" (.object o)) ∧ stands w' (receives κ) σ.next
  derive {w : World} {σ σ' : Scopes} {κ κ' : Ctx} {s : ScopeId} {n n' : Token} (c : ClassId)
    (v : Value) : scopes w σ σ' → stands w κ s → declares κ n n' κ' →
    ∃ w', le w w' ∧
      scopes w' (((σ.push (some s)).define σ.next "super" (.cls c)).define s n.lexeme v)
        (((σ'.push (some s)).define σ'.next "super" (.cls c)).define s n'.lexeme v) ∧
      stands w' κ' s ∧ stands w' (inherits κ') σ.next

namespace Correspondence

variable (C : Correspondence)

/-! ## Machines that correspond -/

/-- Functions: made in one scope, of routines that are alike in its surroundings. -/
structure Functions (w : C.World) (f f' : Closure) : Prop where
  scope : f.scope = f'.scope
  role : f.role = f'.role
  routine : ∃ κ, C.stands w κ f.scope ∧ C.Routines κ f.routine f'.routine ∧
    (f.role = .initializer → C.names κ (some 0) (.named "this" f.routine.name.line)
      (.named "this" f'.routine.name.line))

/-- Methods that are not bound yet: the scope of `this` is still missing. -/
structure Methods (w : C.World) (f f' : Closure) : Prop where
  scope : f.scope = f'.scope
  role : f.role = f'.role
  routine : ∃ κ, C.stands w κ f.scope ∧ C.Routines (C.receives κ) f.routine f'.routine

structure Classes (w : C.World) (c c' : ClassInfo) : Prop where
  name : c.name = c'.name
  superclass : c.superclass = c'.superclass
  methods : c.methods.Rel (C.Methods w) c'.methods

structure Stores (w : C.World) (st st' : Store) : Prop where
  scopes : C.scopes w st.scopes st'.scopes
  functionCount : st.functions.size = st'.functions.size
  functions : ∀ id : FunctionId, Option.Rel (C.Functions w) st.functions[id]? st'.functions[id]?
  natives : st.natives = st'.natives
  classCount : st.classes.size = st'.classes.size
  classes : ∀ id : ClassId, Option.Rel (C.Classes w) st.classes[id]? st'.classes[id]?
  instances : st.instances = st'.instances

/-- Machines at the same point of corresponding runs, in scope `s`. -/
structure Machines (w : C.World) (s : ScopeId) (m m' : Machine) : Prop where
  store : C.Stores w m.store m'.store
  scope : m.scope = s
  scope' : m'.scope = s
  depth : m.depth = m'.depth
  out : m.out = m'.out
  clock : m.clock = m'.clock
  ticks : m.ticks = m'.ticks

inductive Stops : Stop → Stop → Prop
  | fault {d d' : Diagnostic} : C.fault d d' → Stops (.fault d) (.fault d')
  | exhausted : Stops .exhausted .exhausted

/-- Two actions that end in the same way from machines that know `w`. -/
inductive Ends {α β : Type} (w : C.World) (s : ScopeId) (Q : C.World → α → β → Prop) :
    EStateM.Result Stop Machine α → EStateM.Result Stop Machine β → Prop
  | ok {w' : C.World} {m m' : Machine} {a : α} {b : β} :
    C.le w w' → C.Machines w' s m m' → Q w' a b → Ends w s Q (.ok a m) (.ok b m')
  | error {w' : C.World} {m m' : Machine} {e e' : Stop} :
    C.le w w' → C.Machines w' s m m' → C.Stops e e' → Ends w s Q (.error e m) (.error e' m')

/-- Two actions in step: from corresponding machines they end in the same way,
with results that `Q` relates. -/
def Sim {α β : Type} (w : C.World) (s : ScopeId) (Q : C.World → α → β → Prop)
    (x : Eval α) (y : Eval β) : Prop :=
  ∀ m m', C.Machines w s m m' → C.Ends w s Q (x m) (y m')

/-- The same result in both runs. -/
def Same {α : Type} (_ : C.World) (a b : α) : Prop :=
  a = b

end Correspondence

end Treewalk
