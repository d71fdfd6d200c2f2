import Treewalk.Machine

/-!
# Evaluation

Expressions evaluate to values and statements are executed for their effect.
Each rule is stated over the evaluators of what it contains (`evalOver`,
`execOver`); `eval` and `exec` tie the knot with a fuel that bounds how deeply
rules nest and how often a loop runs. A run that ends does so with any larger
fuel, and in the same way.
-/

namespace Treewalk

namespace Eval

/-! ## Functions, classes and instances -/

/-- A method bound to an instance: a copy whose scope binds `this`. -/
def attach (method : Closure) (receiver : InstanceId) : Eval Closure := do
  let scope ← newScope method.scope
  modifyStore fun s => s.define scope "this" (.object receiver)
  pure { method with scope }

/-- A method as a function value of its own. -/
def boundMethod (method : Closure) (receiver : InstanceId) : Eval Value := do
  newFunction (← attach method receiver)

/-- Binds parameters to arguments, in order. -/
def defineAll (scope : ScopeId) : List (Token × Value) → Eval Unit
  | [] => pure ()
  | (param, arg) :: rest => do
    modifyStore fun s => s.define scope param.lexeme arg
    defineAll scope rest

/-- The instance that a bound method belongs to. -/
def receiverOf (f : Closure) : Eval Value := fun m =>
  lift (m.store.scopes.getAt f.scope 0 (.named "this" f.routine.name.line)) m

/-- Runs a body in a new scope inside the function's own, not the caller's. -/
def callFunction (run : List Stmt → Eval Flow) (f : Closure) (args : List Value) : Eval Value := do
  let scope ← newScope f.scope
  defineAll scope (f.routine.params.zip args)
  let flow ← within scope (run f.routine.body)
  match f.role, flow with
  | .initializer, _ => receiverOf f
  | _, .returned v => pure v
  | _, .normal => pure .nil

/-- Makes an instance and runs the initializer on it, if there is one. -/
def instantiate (run : List Stmt → Eval Flow) (cls : ClassId) (args : List Value) : Eval Value := do
  let id ← newInstance cls
  match ← inspect fun s => s.method? cls initializerName with
  | none => pure (.object id)
  | some init =>
    let _ ← callFunction run (← attach init id) args
    pure (.object id)

def callNative (f : Native) (paren : Token) (args : List Value) : Eval Value := do
  match f with
  | .clock => readClock
  | .host _ run =>
    let shown ← inspect fun s => args.map fun v => (v, s.text v)
    liftAt paren ((run shown).mapError RuntimeFault.native)

/-- Calls a value whose arguments were counted. -/
def apply (run : List Stmt → Eval Flow) (callee : Value) (paren : Token) (args : List Value) :
    Eval Value := do
  match callee with
  | .function id =>
    match ← inspect fun s => s.functions[id]? with
    | some f => callFunction run f args
    | none => fail paren .notCallable
  | .native id =>
    match ← inspect fun s => s.natives[id]? with
    | some f => callNative f paren args
    | none => fail paren .notCallable
  | .cls id => instantiate run id args
  | _ => fail paren .notCallable

/-- Calls a value: it has to be callable and take this many arguments. -/
def call (run : List Stmt → Eval Flow) (callee : Value) (paren : Token) (args : List Value) :
    Eval Value := do
  match ← inspect fun s => s.arity? callee with
  | none => fail paren .notCallable
  | some arity =>
    if args.length ≠ arity then fail paren (.arity arity args.length)
    else nested paren (apply run callee paren args)

/-- A property of an instance: a field, or else a method bound to it. -/
def property (id : InstanceId) (name : Token) : Eval Value := do
  match ← inspect fun s => s.field? id name.lexeme with
  | some v => pure v
  | none =>
    let method ← inspect fun s =>
      s.instances[id]?.bind fun o => s.method? o.cls name.lexeme
    match method with
    | some method => boundMethod method id
    | none => fail name (.undefinedProperty name.lexeme)

/-- `super.method`: the method of the class that `super` is bound to, bound to
the `this` of one scope further in. -/
def superMethod (keyword : Reference) (method : Token) : Eval Value := do
  let misplaced {α : Type} : Eval α := fail keyword.name .superOutsideClass
  match keyword.depth with
  | none => misplaced
  | some distance =>
    let scope ← currentScope
    match ← lift (← inspect fun s => s.scopes.getAt scope distance keyword.name) with
    | .cls superclass =>
      match distance with
      | 0 => misplaced
      | inner + 1 =>
        let this := Token.named "this" keyword.name.line
        match ← lift (← inspect fun s => s.scopes.getAt scope inner this) with
        | .object receiver =>
          match ← inspect fun s => s.method? superclass method.lexeme with
          | some found => boundMethod found receiver
          | none => fail method (.undefinedProperty method.lexeme)
        | _ => misplaced
    | _ => misplaced

/-! ## Expressions -/

/-- Evaluates arguments from left to right. -/
def evalAll (eval : Expr → Eval Value) : List Expr → Eval (List Value)
  | [] => pure []
  | e :: rest => do
    let v ← eval e
    pure (v :: (← evalAll eval rest))

/-- Whether the left operand of a logical operator is its result. -/
def decides (operator : Kind) (left : Value) : Bool :=
  match operator with
  | .symbol .orWord => left.truthy
  | _ => !left.truthy

/-- Evaluates an expression, given how to evaluate what it contains and how to
run the body of a function. -/
def evalOver (eval : Expr → Eval Value) (run : List Stmt → Eval Flow) : Expr → Eval Value
  | .literal value => pure value.value
  | .group inner => eval inner
  | .unary operator operand => do
    liftAt operator (Value.unary operator.kind (← eval operand))
  | .binary operator left right => do
    let left ← eval left
    let right ← eval right
    liftAt operator (Value.binary operator.kind left right)
  | .logical operator left right => do
    let left ← eval left
    if decides operator.kind left then pure left else eval right
  | .var ref => lookUp ref
  | .assign target value => do
    let v ← eval value
    assign target v
    pure v
  | .call callee paren args => do
    let callee ← eval callee
    let args ← evalAll eval args
    call run callee paren args
  | .get object name => do
    match ← eval object with
    | .object id => property id name
    | _ => fail name .noProperties
  | .set object name value => do
    match ← eval object with
    | .object id =>
      let v ← eval value
      modifyStore fun s => s.setField id name.lexeme v
      pure v
    | _ => fail name .noFields
  | .receiver keyword => lookUp keyword
  | .inherited keyword method => superMethod keyword method

/-! ## Statements -/

/-- Executes statements up to the first that returns. -/
def runAll (exec : Stmt → Eval Flow) : List Stmt → Eval Flow
  | [] => pure .normal
  | s :: rest => do
    match ← exec s with
    | .normal => runAll exec rest
    | .returned v => pure (.returned v)

/-- Repeats a body as long as a condition holds and the body does not return. -/
def whileTrue (condition : Eval Value) (body : Eval Flow) : Nat → Eval Flow
  | 0 => exhausted
  | n + 1 => do
    if (← condition).truthy then
      match ← body with
      | .normal => whileTrue condition body n
      | .returned v => pure (.returned v)
    else pure .normal

def evalOption (eval : Expr → Eval Value) : Option Expr → Eval Value
  | none => pure .nil
  | some e => eval e

/-- The class that a superclass clause names. -/
def superclassOf : Option Reference → Eval (Option ClassId)
  | none => pure none
  | some ref => do
    match ← lookUp ref with
    | .cls id => pure (some id)
    | _ => fail ref.name .superclassNotClass

/-- The scope that methods are made in: with a superclass, a new one that binds
`super`. -/
def methodScope : Option ClassId → Eval ScopeId
  | none => currentScope
  | some superclass => do
    let scope ← newScope (← currentScope)
    modifyStore fun s => s.define scope "super" (.cls superclass)
    pure scope

/-- The method table of a class; of two methods with one name the later counts. -/
def methodTable (scope : ScopeId) (methods : List (Routine Stmt)) : Bindings Closure :=
  methods.foldl
    (fun table r =>
      let role := if r.name.lexeme = initializerName then Role.initializer else Role.method
      table.insert r.name.lexeme ⟨r, scope, role⟩)
    .empty

def declareClass (name : Token) (superclass : Option Reference) (methods : List (Routine Stmt)) :
    Eval Unit := do
  let superclass ← superclassOf superclass
  let scope ← methodScope superclass
  let cls ← newClass ⟨name.lexeme, superclass, methodTable scope methods⟩
  define name.lexeme cls

/-- Executes a statement, given how to evaluate and execute what it contains. -/
def execOver (eval : Expr → Eval Value) (exec : Stmt → Eval Flow) (n : Nat) : Stmt → Eval Flow
  | .expression e => do
    let _ ← eval e
    pure .normal
  | .print e => do
    let v ← eval e
    printLine (← inspect fun s => s.text v)
    pure .normal
  | .declare name init => do
    define name.lexeme (← evalOption eval init)
    pure .normal
  | .block body => do
    within (← newScope (← currentScope)) (runAll exec body)
  | .branch condition consequent alternative => do
    if (← eval condition).truthy then exec consequent
    else
      match alternative with
      | some s => exec s
      | none => pure .normal
  | .loop condition body => whileTrue (eval condition) (exec body) n
  | .function routine => do
    let f ← newFunction ⟨routine, ← currentScope, .plain⟩
    define routine.name.lexeme f
    pure .normal
  | .leave _ value => do
    pure (.returned (← evalOption eval value))
  | .classDecl name superclass methods => do
    declareClass name superclass methods
    pure .normal

mutual

def eval : Nat → Expr → Eval Value
  | 0, _ => exhausted
  | n + 1, e => fun m => descend n fun _ => evalOver (eval n) (runAll (exec n)) e m

def exec : Nat → Stmt → Eval Flow
  | 0, _ => exhausted
  | n + 1, s => fun m => descend n fun _ => execOver (eval n) (exec n) n s m

end

/-- Executes a program: statements up to the first that stops. A `return` ends it
like its last statement would. At the end the output is flushed, whatever
happened, and a fault of the flush is the result then. -/
def interpret (fuel : Nat) (program : Program) : Eval Unit := fun m =>
  match runAll (exec fuel) program m with
  | .error .exhausted m => .error .exhausted m
  | .error (.fault d) m =>
    match m.out.flush with
    | .ok () => .error (.fault d) m
    | .error f => .error (.fault (.channel f)) m
  | .ok _ m =>
    match m.out.flush with
    | .ok () => .ok () m
    | .error f => .error (.fault (.channel f)) m

end Eval

end Treewalk
