import Treewalk.Proofs.Grammar.Sound
import Treewalk.Proofs.Numbering
import Treewalk.Proofs.Scoping

/-!
# The nodes a pass comes to

`Program.visits` lists the nodes of a program in the order in which the resolver
comes to them, each with its distances recorded and with the scopes that are open
at that moment. It follows the resolver step by step and uses its own actions for
the state in between. There are as many visits as nodes, so the numbers of the nodes
are their places in the list (`Stmt.ScopedAll.length_visits`).

Programs are resolved as they are read: no distance is recorded yet, and nothing
is declared directly under a condition (`Stmt.Bare`); variables are named by names,
`this` and `super` by their words, and operators are operators. In such a program only
declarations change the open scopes, and a declaration marks its own name.
-/

namespace Treewalk

open Resolver

namespace Resolver

/-- From a function declaration to the start of its body. -/
def enterFunction (name : Token) (params : List Token) : Resolver Unit := do
  declare name
  define name
  openScope .empty
  parameters params

/-- From a class declaration to its first method. -/
def enterClass (name : Token) (parent : Option Reference) : Resolver Unit := do
  declare name
  define name
  let _ ← superclass name parent
  openScope thisScope

/-- From one method to the start of its body. -/
def enterMethod (params : List Token) : Resolver Unit := do
  openScope .empty
  parameters params

/-- Over the body of a method and out of it. -/
def leaveMethod (body : ClassBody) (b : List Stmt) : Resolver Unit := do
  let _ ← Stmt.resolveAll ⟨true, body⟩ 1 b
  closeScope

theorem enterFunction_eq {κ κ' : List (Bindings Bool)} {name : Token} {params : List Token}
    (hf : Fresh κ name) (hps : Params (.empty :: bound κ name) params κ') (fs : List Diagnostic) :
    enterFunction name params ⟨κ, fs⟩ = ((), ⟨κ', fs⟩) := by
  rw [enterFunction, run_bind, declare_eq hf, run_bind, define_mark_eq, run_bind, openScope_eq,
    hps.parameters_eq]

theorem enterClass_none_eq {κ : List (Bindings Bool)} {name : Token} (hf : Fresh κ name)
    (fs : List Diagnostic) :
    enterClass name none ⟨κ, fs⟩ = ((), ⟨thisScope :: bound κ name, fs⟩) := by
  rw [enterClass, run_bind, declare_eq hf, run_bind, define_mark_eq]
  rfl

theorem enterClass_some_eq {κ : List (Bindings Bool)} {name : Token} {r : Reference}
    (hf : Fresh κ name) (hne : r.name.lexeme ≠ name.lexeme) (fs : List Diagnostic) :
    enterClass name (some r) ⟨κ, fs⟩ = ((), ⟨thisScope :: superScope :: bound κ name, fs⟩) := by
  rw [enterClass, run_bind, declare_eq hf, run_bind, define_mark_eq, run_bind, superclass_eq hne]
  rfl

theorem enterMethod_eq {κ κ' : List (Bindings Bool)} {params : List Token}
    (hps : Params (.empty :: κ) params κ') (fs : List Diagnostic) :
    enterMethod params ⟨κ, fs⟩ = ((), ⟨κ', fs⟩) := by
  rw [enterMethod, run_bind, openScope_eq, hps.parameters_eq]

theorem leaveMethod_eq {body : ClassBody} {κ κ' : List (Bindings Bool)} {top : Bindings Bool}
    {b b' : List Stmt} (hb : Stmt.ScopedAll ⟨true, body⟩ κ b b' (top :: κ'))
    (fs : List Diagnostic) : leaveMethod body b ⟨κ, fs⟩ = ((), ⟨κ', fs⟩) := by
  rw [leaveMethod, run_bind, hb.resolveAll_eq, closeScope_eq]

end Resolver

/-- A node, and the scopes that are open when the resolver comes to it. -/
structure Visit where
  node : Node
  scopes : List (Bindings Bool)

mutual

def Expr.visits (body : ClassBody) (s : Scoping) (e : Expr) : List Visit :=
  ⟨.expr (e.resolve body 1 s).1, s.scopes⟩ :: match e with
    | .literal _ | .var _ | .receiver _ | .inherited _ _ => []
    | .group e | .unary _ e | .assign _ e | .get e _ => e.visits body s
    | .binary _ a b | .logical _ a b => a.visits body s ++ b.visits body (a.resolve body 1 s).2
    | .set o _ v => v.visits body s ++ o.visits body (v.resolve body 1 s).2
    | .call f _ args => f.visits body s ++ Expr.visitsAll body (f.resolve body 1 s).2 args

def Expr.visitsAll (body : ClassBody) (s : Scoping) : List Expr → List Visit
  | [] => []
  | e :: es => e.visits body s ++ Expr.visitsAll body (e.resolve body 1 s).2 es

end

def Expr.visits? (body : ClassBody) (s : Scoping) : Option Expr → List Visit
  | none => []
  | some e => e.visits body s

mutual

def Stmt.visits (place : Place) (s : Scoping) (t : Stmt) : List Visit :=
  ⟨.stmt (t.resolve place 1 s).1, s.scopes⟩ :: match t with
    | .expression e | .print e => e.visits place.classBody s
    | .declare name e => Expr.visits? place.classBody (Resolver.declare name s).2 e
    | .block b => Stmt.visitsAll place (openScope .empty s).2 b
    | .branch c t none =>
      c.visits place.classBody s ++ t.visits place (c.resolve place.classBody 1 s).2
    | .branch c t (some a) =>
      c.visits place.classBody s ++ t.visits place (c.resolve place.classBody 1 s).2 ++
        a.visits place (t.resolve place 1 (c.resolve place.classBody 1 s).2).2
    | .loop c t =>
      c.visits place.classBody s ++ t.visits place (c.resolve place.classBody 1 s).2
    | .function ⟨name, params, b⟩ =>
      Stmt.visitsAll ⟨true, place.classBody⟩ (enterFunction name params s).2 b
    | .leave keyword e =>
      let check : Resolver Unit := unless place.inRoutine do fault keyword .returnAtTopLevel
      Expr.visits? place.classBody (check s).2 e
    | .classDecl name none ms => Stmt.visitsMethods .base (enterClass name none s).2 ms
    | .classDecl name (some r) ms =>
      Stmt.visitsMethods .derived (enterClass name (some r) s).2 ms

def Stmt.visitsAll (place : Place) (s : Scoping) : List Stmt → List Visit
  | [] => []
  | t :: rest => t.visits place s ++ Stmt.visitsAll place (t.resolve place 1 s).2 rest

def Stmt.visitsMethods (body : ClassBody) (s : Scoping) : List (Routine Stmt) → List Visit
  | [] => []
  | ⟨_, params, b⟩ :: rest =>
    Stmt.visitsAll ⟨true, body⟩ (enterMethod params s).2 b ++
      Stmt.visitsMethods body (leaveMethod body b (enterMethod params s).2).2 rest

end

/-- What the resolver comes to in a program, from the state it starts in. -/
def Program.visits (p : Program) : List Visit :=
  Stmt.visitsAll ⟨false, .none⟩ ⟨[], []⟩ p

/-! ## Visits by number -/

/-- The nodes of several programs in the order in which the resolver comes to them. The latest
program is the first in the list. -/
def visitsOf : List Program → List Visit
  | [] => []
  | p :: earlier => visitsOf earlier ++ p.visits

section

variable {U : Nat → Visit → Prop} {k : Nat}

/-- The first visit of an expression is its own. -/
theorem Expr.Scoped.of_held {body : ClassBody} {κ : List (Bindings Bool)} {e e' : Expr}
    (h : Expr.Scoped body κ e e') (hU : Held U k (e.visits body ⟨κ, []⟩)) :
    U k ⟨.expr e', κ⟩ := by
  rw [Expr.visits.eq_def, h.resolve_eq, held_cons] at hU
  exact hU.1

theorem Stmt.Scoped.of_held {place : Place} {κ κ' : List (Bindings Bool)} {s s' : Stmt}
    (h : Stmt.Scoped place κ s s' κ') (hU : Held U k (s.visits place ⟨κ, []⟩)) :
    U k ⟨.stmt s', κ⟩ := by
  rw [Stmt.visits.eq_def, h.resolve_eq, held_cons] at hU
  exact hU.1

end

mutual

theorem Expr.Scoped.length_visits {body : ClassBody} {κ : List (Bindings Bool)} :
    ∀ {e e' : Expr}, Expr.Scoped body κ e e' → (e.visits body ⟨κ, []⟩).length = e'.size
  | _, _, .literal _ | _, _, .var _ | _, _, .receiver _ | _, _, .inherited _ => by
    simp only [Expr.visits, Expr.size, List.length_cons, List.length_nil]
  | _, _, .group h | _, _, .unary h | _, _, .assign h | _, _, .get h => by
    simp only [Expr.visits, Expr.size, List.length_cons, h.length_visits]
  | _, _, .binary h h' | _, _, .logical h h' => by
    simp only [Expr.visits, Expr.size, List.length_cons, List.length_append, h.resolve_eq,
      h.length_visits, h'.length_visits]
  | _, _, .set h h' => by
    simp only [Expr.visits, Expr.size, List.length_cons, List.length_append, h'.resolve_eq,
      h.length_visits, h'.length_visits]
  | _, _, .call h h' => by
    simp only [Expr.visits, Expr.size, List.length_cons, List.length_append, h.resolve_eq,
      h.length_visits, h'.length_visits]

theorem Expr.ScopedAll.length_visits {body : ClassBody} {κ : List (Bindings Bool)} :
    ∀ {es es' : List Expr}, Expr.ScopedAll body κ es es' →
      (Expr.visitsAll body ⟨κ, []⟩ es).length = Expr.sizeAll es'
  | _, _, .nil => by rw [Expr.visitsAll, Expr.sizeAll, List.length_nil]
  | _, _, .cons h h' => by
    rw [Expr.visitsAll, Expr.sizeAll, List.length_append, h.resolve_eq, h.length_visits,
      h'.length_visits]

end

theorem Expr.length_visits? {body : ClassBody} {κ : List (Bindings Bool)} {e e' : Option Expr}
    (h : Option.Rel (Expr.Scoped body κ) e e') :
    (Expr.visits? body ⟨κ, []⟩ e).length = Expr.size? e' := by
  cases h with
  | none => rfl
  | some h => exact h.length_visits

mutual

theorem Stmt.Scoped.length_visits : ∀ {place : Place} {κ κ' : List (Bindings Bool)} {s s' : Stmt},
    Stmt.Scoped place κ s s' κ' → (s.visits place ⟨κ, []⟩).length = s'.size
  | _, _, _, _, _, .expression h | _, _, _, _, _, .print h => by
    simp only [Stmt.visits, Stmt.size, List.length_cons, h.length_visits]
  | _, _, _, _, _, .declare hf h => by
    simp only [Stmt.visits, Stmt.size, List.length_cons, declare_eq hf, Expr.length_visits? h]
  | _, _, _, _, _, .block h => by
    simp only [Stmt.visits, Stmt.size, List.length_cons, openScope_eq, h.length_visits]
  | _, _, _, _, _, .branch h h' | _, _, _, _, _, .loop h h' => by
    simp only [Stmt.visits, Stmt.size, List.length_cons, List.length_append, h.resolve_eq,
      h.length_visits, h'.length_visits]
  | _, _, _, _, _, .choice h h' h'' => by
    simp only [Stmt.visits, Stmt.size, List.length_cons, List.length_append, h.resolve_eq,
      h'.resolve_eq, h.length_visits, h'.length_visits, h''.length_visits]
  | _, _, _, _, _, .function hf hps h => by
    simp only [Stmt.visits, Stmt.size, List.length_cons, enterFunction_eq hf hps, h.length_visits]
  | _, _, _, _, _, .leave hin h => by
    simp only [Stmt.visits, Stmt.size, List.length_cons, hin, ↓reduceIte]
    exact congrArg (· + 1) (Expr.length_visits? h)
  | _, _, _, _, _, .base hf h => by
    simp only [Stmt.visits, Stmt.size, List.length_cons, enterClass_none_eq hf, h.length_visits]
  | _, _, _, _, _, .derived hf hne h => by
    simp only [Stmt.visits, Stmt.size, List.length_cons, enterClass_some_eq hf hne,
      h.length_visits]

theorem Stmt.ScopedAll.length_visits :
    ∀ {place : Place} {κ κ' : List (Bindings Bool)} {b b' : List Stmt},
      Stmt.ScopedAll place κ b b' κ' → (Stmt.visitsAll place ⟨κ, []⟩ b).length = Stmt.sizeAll b'
  | _, _, _, _, _, .nil => by rw [Stmt.visitsAll, Stmt.sizeAll, List.length_nil]
  | _, _, _, _, _, .cons h h' => by
    rw [Stmt.visitsAll, Stmt.sizeAll, List.length_append, h.resolve_eq, h.length_visits,
      h'.length_visits]

theorem Stmt.ScopedMethods.length_visits :
    ∀ {body : ClassBody} {κ : List (Bindings Bool)} {ms ms' : List (Routine Stmt)},
      Stmt.ScopedMethods body κ ms ms' →
        (Stmt.visitsMethods body ⟨κ, []⟩ ms).length = Stmt.sizeMethods ms'
  | _, _, _, _, .nil => by rw [Stmt.visitsMethods, Stmt.sizeMethods, List.length_nil]
  | _, _, _, _, .cons hps h h' => by
    rw [Stmt.visitsMethods, Stmt.sizeMethods, List.length_append, enterMethod_eq hps,
      leaveMethod_eq h, h.length_visits, h'.length_visits]

end

/-! ## Programs as they are read -/

/-- An operator with one operand. -/
def Token.IsSign (t : Token) : Prop :=
  ∃ s ∈ [Symbol.bang, .minus], t.Is s

/-- An operator with two operands that are both evaluated. -/
def Token.IsOperator (t : Token) : Prop :=
  ∃ level ≤ 4, ∃ s ∈ Parser.operators level, t.Is s

theorem Token.Is.not_isName {t : Token} {s : Symbol} (h : t.Is s) : ¬ t.IsName := by
  intro hname
  rw [Token.IsName, show t.kind = _ from h] at hname
  cases hname

inductive Expr.Bare : Expr → Prop
  | literal (v : Literal) : Expr.Bare (.literal v)
  | group {e : Expr} : e.Bare → Expr.Bare (.group e)
  | unary {op : Token} {e : Expr} : op.IsSign → e.Bare → Expr.Bare (.unary op e)
  | binary {op : Token} {a b : Expr} : op.IsOperator → a.Bare → b.Bare → Expr.Bare (.binary op a b)
  | logical {op : Token} {a b : Expr} : a.Bare → b.Bare → Expr.Bare (.logical op a b)
  | var {t : Token} : t.IsName → Expr.Bare (.var ⟨t, none⟩)
  | assign {t : Token} {e : Expr} : t.IsName → e.Bare → Expr.Bare (.assign ⟨t, none⟩ e)
  | call {f : Expr} {p : Token} {args : List Expr} :
    f.Bare → (∀ a ∈ args, a.Bare) → Expr.Bare (.call f p args)
  | get {o : Expr} {n : Token} : o.Bare → Expr.Bare (.get o n)
  | set {o v : Expr} {n : Token} : o.Bare → v.Bare → Expr.Bare (.set o n v)
  | receiver {t : Token} : t.Is .thisWord → Expr.Bare (.receiver ⟨t, none⟩)
  | inherited {t : Token} (m : Token) : t.Is .superWord → Expr.Bare (.inherited ⟨t, none⟩ m)

/-- A statement that declares nothing in the scope it stands in. -/
def Stmt.Quiet : Stmt → Prop
  | .declare _ _ | .function _ | .classDecl _ _ _ => False
  | .expression _ | .print _ | .block _ | .branch _ _ _ | .loop _ _ | .leave _ _ => True

inductive Stmt.Bare : Stmt → Prop
  | expression {e : Expr} : e.Bare → Stmt.Bare (.expression e)
  | print {e : Expr} : e.Bare → Stmt.Bare (.print e)
  | declare {n : Token} {e : Option Expr} : n.IsName → (∀ x ∈ e, x.Bare) →
    Stmt.Bare (.declare n e)
  | block {b : List Stmt} : (∀ s ∈ b, s.Bare) → Stmt.Bare (.block b)
  | branch {c : Expr} {s : Stmt} {a : Option Stmt} : c.Bare → s.Bare → s.Quiet →
    (∀ t ∈ a, t.Bare) → (∀ t ∈ a, t.Quiet) → Stmt.Bare (.branch c s a)
  | loop {c : Expr} {s : Stmt} : c.Bare → s.Bare → s.Quiet → Stmt.Bare (.loop c s)
  | function {r : Routine Stmt} : r.name.IsName → (∀ p ∈ r.params, p.IsName) →
    (∀ s ∈ r.body, s.Bare) → Stmt.Bare (.function r)
  | leave {k : Token} {e : Option Expr} : (∀ x ∈ e, x.Bare) → Stmt.Bare (.leave k e)
  | classDecl {n : Token} {r : Option Reference} {ms : List (Routine Stmt)} :
    n.IsName → (∀ x ∈ r, x.depth = none ∧ x.name.IsName) →
    (∀ m ∈ ms, ∀ p ∈ m.params, p.IsName) → (∀ m ∈ ms, ∀ s ∈ m.body, s.Bare) →
    Stmt.Bare (.classDecl n r ms)

/-- What is known of the trees of a phrase. -/
def Parser.Goal.Bare : Parser.Goal → Prop
  | .expression e | .operand _ e | .unary e | .primary e => e.Bare
  | .chain _ left e | .suffixes left e => left.Bare → e.Bare
  | .arguments es | .items es => ∀ e ∈ es, e.Bare
  | .clause e => ∀ x ∈ e, x.Bare
  | .parameters ps | .names ps => ∀ p ∈ ps, p.IsName
  | .initializer s => ∀ t ∈ s, t.Bare
  | .statement _ s => s.Bare ∧ s.Quiet
  | .binding s | .declaration _ s => s.Bare
  | .declarations l => ∀ s ∈ l, s.Bare
  | .routine r => r.name.IsName ∧ (∀ p ∈ r.params, p.IsName) ∧ ∀ s ∈ r.body, s.Bare
  | .methods ms => (∀ m ∈ ms, ∀ p ∈ m.params, p.IsName) ∧ ∀ m ∈ ms, ∀ s ∈ m.body, s.Bare

theorem Parser.bare_of_atom? {t : Token} {e : Expr} (h : Parser.atom? t = some e) : e.Bare := by
  unfold Parser.atom? at h
  split at h
  case h_6 hkind =>
    obtain rfl := Option.some.inj h
    exact .receiver hkind
  case h_7 hkind =>
    obtain rfl := Option.some.inj h
    exact .var hkind
  all_goals first
    | (obtain rfl := Option.some.inj h; constructor)
    | cases h

theorem Stmt.bare_forLoop {init : Option Stmt} {c e : Option Expr} {s : Stmt}
    (hi : ∀ t ∈ init, t.Bare) (hc : ∀ x ∈ c, x.Bare) (he : ∀ x ∈ e, x.Bare) (hs : s.Bare)
    (hq : s.Quiet) : (Stmt.forLoop init c e s).Bare ∧ (Stmt.forLoop init c e s).Quiet := by
  have hcond : (c.getD (.literal (.bool true))).Bare := by
    cases c with
    | none => exact .literal _
    | some c => exact hc c rfl
  have hloop : ∀ body : Stmt, body.Bare → body.Quiet →
      (Stmt.forLoop init c none body).Bare ∧ (Stmt.forLoop init c none body).Quiet := by
    intro body hb hq
    cases init with
    | none => exact ⟨.loop hcond hb hq, trivial⟩
    | some t =>
      refine ⟨.block fun s hs => ?_, trivial⟩
      rcases List.mem_cons.mp hs with rfl | hs
      · exact hi _ rfl
      · obtain rfl := List.mem_singleton.mp hs
        exact .loop hcond hb hq
  cases e with
  | none => exact hloop s hs hq
  | some e =>
    refine hloop (.block [s, .expression e]) (.block fun t ht => ?_) trivial
    rcases List.mem_cons.mp ht with rfl | ht
    · exact hs
    · obtain rfl := List.mem_singleton.mp ht
      exact .expression (he e rfl)

theorem Parser.Reads.bare {goal : Parser.Goal} {ts : List Token} (h : Parser.Reads goal ts) :
    goal.Bare := by
  induction h with
  | plain _ ih => exact ih
  | assign _ _ _ iht ihv =>
    cases iht with | var ht => exact .assign ht ihv
  | set _ _ _ iht ihv =>
    cases iht with | get ho => exact .set ho ihv
  | bottom _ ih => exact ih
  | level _ _ iha ihe => exact ihe iha
  | endOfChain => exact id
  | @link i a b e op s ts us hop hs _ _ ihb ihe =>
    intro ha
    refine ihe ?_
    unfold Parser.operation
    split
    · rename_i hlevel
      exact .binary ⟨i + 1, hlevel, s, hs, hop⟩ ha ihb
    · exact .logical ha ihb
  | sign hop hs _ ih => exact .unary ⟨_, hs, hop⟩ ih
  | call _ _ iha ihe => exact ihe iha
  | endOfSuffixes => exact id
  | apply _ _ _ _ ihargs ihe => exact fun ha => ihe (.call ha ihargs)
  | property _ _ _ ihe => exact fun ha => ihe (.get ha)
  | noArguments => exact fun _ h => by cases h
  | arguments _ _ ih => exact ih
  | item _ ih => exact fun _ h => List.mem_singleton.mp h ▸ ih
  | items _ _ _ ihe ihes => exact List.forall_mem_cons.mpr ⟨ihe, ihes⟩
  | atom h => exact Parser.bare_of_atom? h
  | inherited hk _ _ => exact .inherited _ hk
  | group _ _ _ ih => exact .group ih
  | noClause => exact fun _ h => by cases h
  | clause _ ih => exact fun _ h => Option.some.inj h ▸ ih
  | expressionStatement _ _ ih => exact ⟨.expression ih, trivial⟩
  | print _ _ _ ih => exact ⟨.print ih, trivial⟩
  | leave _ _ _ ih => exact ⟨.leave ih, trivial⟩
  | block _ _ _ ih => exact ⟨.block ih, trivial⟩
  | loop _ _ _ _ _ ihc ihs => exact ⟨.loop ihc ihs.1 ihs.2, trivial⟩
  | branch _ _ _ _ _ ihc ihs =>
    exact ⟨.branch ihc ihs.1 ihs.2 (fun _ h => by cases h) (fun _ h => by cases h), trivial⟩
  | choice _ _ _ _ _ _ _ ihc ihs iha =>
    exact ⟨.branch ihc ihs.1 ihs.2 (fun _ h => Option.some.inj h ▸ iha.1)
      (fun _ h => Option.some.inj h ▸ iha.2), trivial⟩
  | forLoop _ _ _ _ _ _ _ _ ihi ihc ihe ihs => exact Stmt.bare_forLoop ihi ihc ihe ihs.1 ihs.2
  | noInitializer _ => exact fun _ h => by cases h
  | declareFirst _ _ ih => exact fun _ h => Option.some.inj h ▸ ih
  | expressionFirst _ _ ih => exact fun _ h => Option.some.inj h ▸ .expression ih
  | noParameters => exact fun _ h => by cases h
  | parameters _ _ ih => exact ih
  | name hp => exact fun _ h => List.mem_singleton.mp h ▸ hp
  | names hp _ _ ih => exact List.forall_mem_cons.mpr ⟨hp, ih⟩
  | uninitialized hn _ => exact .declare hn fun _ h => by cases h
  | initialized hn _ _ _ ih => exact .declare hn fun _ h => Option.some.inj h ▸ ih
  | statement _ ih => exact ih.1
  | binding _ _ ih => exact ih
  | function _ _ ih => exact .function ih.1 ih.2.1 ih.2.2
  | base _ hn _ _ _ ih => exact .classDecl hn (fun _ h => by cases h) ih.1 ih.2
  | derived _ hn _ hp _ _ _ ih =>
    exact .classDecl hn (fun _ h => Option.some.inj h ▸ ⟨rfl, hp⟩) ih.1 ih.2
  | noDeclarations => exact fun _ h => by cases h
  | declarations _ _ ihs ihl => exact List.forall_mem_cons.mpr ⟨ihs, ihl⟩
  | routine hn _ _ _ _ _ _ ihps ih => exact ⟨hn, ihps, ih⟩
  | noMethods => exact ⟨nofun, nofun⟩
  | methods _ _ ihr ihms =>
    exact ⟨List.forall_mem_cons.mpr ⟨ihr.2.1, ihms.1⟩, List.forall_mem_cons.mpr ⟨ihr.2.2, ihms.2⟩⟩

theorem Program.bare_of_ofTokens {tokens : List Token} {p : Program}
    (h : Program.ofTokens tokens = (p, [])) : ∀ s ∈ p, s.Bare :=
  (Program.reads_of_ofTokens h).bare

/-- A statement that declares nothing leaves the open scopes as they were. -/
theorem Stmt.Scoped.eq_of_quiet : ∀ {place : Place} {κ κ' : List (Bindings Bool)} {s s' : Stmt},
    Stmt.Scoped place κ s s' κ' → s.Bare → s.Quiet → κ' = κ
  | _, _, _, _, _, .expression _ | _, _, _, _, _, .print _ | _, _, _, _, _, .block _
  | _, _, _, _, _, .leave _ _ => fun _ _ => rfl
  | _, _, _, _, _, .declare _ _ | _, _, _, _, _, .function _ _ _ | _, _, _, _, _, .base _ _
  | _, _, _, _, _, .derived _ _ _ => fun _ hq => hq.elim
  | _, _, _, _, _, .branch _ h => fun hb _ => by
    cases hb with
    | branch _ hb hq _ _ => exact h.eq_of_quiet hb hq
  | _, _, _, _, _, .loop _ h => fun hb _ => by
    cases hb with
    | loop _ hb hq => exact h.eq_of_quiet hb hq
  | _, _, _, _, _, .choice _ h h' => fun hb _ => by
    cases hb with
    | branch _ hb hq hb' hq' =>
      exact (h'.eq_of_quiet (hb' _ rfl) (hq' _ rfl)).trans (h.eq_of_quiet hb hq)

/-! ## Marks -/

namespace Resolver

/-- All declarations in a scope are complete. -/
def Complete (names : Bindings Bool) : Prop :=
  ∀ name, names.get? name ≠ some false

/-- All declarations in open scopes are complete. -/
def Settled (κ : List (Bindings Bool)) : Prop :=
  ∀ names ∈ κ, Complete names

theorem Complete.insert {names : Bindings Bool} (h : Complete names) (name : String) :
    Complete (names.insert name true) := by
  intro key
  rw [Bindings.get?_insert]
  split
  · simp
  · exact h key

theorem complete_empty : Complete .empty := by
  simp [Complete]

/-- Scopes that differ at most in a name that is marked at last. -/
theorem get?_bound (scope : Bindings Bool) (name key : String) :
    ((scope.insert name false).insert name true).get? key =
      (scope.insert name true).get? key := by
  simp only [Bindings.get?_insert]
  split <;> rfl

theorem Settled.cons {names : Bindings Bool} {κ : List (Bindings Bool)} (hn : Complete names)
    (h : Settled κ) : Settled (names :: κ) :=
  List.forall_mem_cons.mpr ⟨hn, h⟩

theorem Settled.tail {names : Bindings Bool} {κ : List (Bindings Bool)}
    (h : Settled (names :: κ)) : Settled κ :=
  (List.forall_mem_cons.mp h).2

theorem Settled.bound {κ : List (Bindings Bool)} (h : Settled κ) (name : Token) :
    Settled (bound κ name) := by
  cases κ with
  | nil => exact h
  | cons scope rest =>
    obtain ⟨hs, hrest⟩ := List.forall_mem_cons.mp h
    refine Settled.cons (fun key => ?_) hrest
    rw [get?_bound]
    exact hs.insert _ key

theorem Settled.params {κ κ' : List (Bindings Bool)} {ps : List Token} (h : Settled κ)
    (hps : Params κ ps κ') : Settled κ' := by
  induction hps with
  | nil => exact h
  | cons _ _ ih => exact ih (h.bound _)

theorem complete_thisScope : Complete thisScope :=
  complete_empty.insert "this"

theorem complete_superScope : Complete superScope :=
  complete_empty.insert "super"

end Resolver

theorem Stmt.Scoped.settled : ∀ {place : Place} {κ κ' : List (Bindings Bool)} {s s' : Stmt},
    Stmt.Scoped place κ s s' κ' → Settled κ → Settled κ'
  | _, _, _, _, _, .expression _, h | _, _, _, _, _, .print _, h
  | _, _, _, _, _, .block _, h | _, _, _, _, _, .leave _ _, h => h
  | _, _, _, _, _, .declare _ _, h | _, _, _, _, _, .function _ _ _, h
  | _, _, _, _, _, .base _ _, h | _, _, _, _, _, .derived _ _ _, h => h.bound _
  | _, _, _, _, _, .branch _ hs, h | _, _, _, _, _, .loop _ hs, h => hs.settled h
  | _, _, _, _, _, .choice _ hs hs', h => hs'.settled (hs.settled h)

end Treewalk
