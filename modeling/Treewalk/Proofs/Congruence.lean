import Treewalk.Proofs.Quiet

/-!
# What the rules keep

The rules of evaluation are stated over the evaluators of what they contain, and they use
those in four ways only: one action after the other, in another scope, as a call, and in a
loop. What else they do is quiet, but for `print`. A property of families of actions that quiet
actions have and the first three ways keep (`Eval.Congruence`) is therefore kept by every rule,
once it is known of loops and of `print` (`Congruence.evalOver`, `Congruence.execOver`).
-/

namespace Treewalk.Eval

/-- A property of families of actions that is kept when actions are combined. A quiet action
that does not depend on the index has it. -/
structure Congruence {ι : Type} (R : {α : Type} → (ι → Eval α) → Prop) : Prop where
  const {α : Type} {x : Eval α} : Quiet x → R fun _ => x
  bind {α β : Type} {x : ι → Eval α} {f : ι → α → Eval β} : R x → (∀ a, R fun i => f i a) →
    R fun i => x i >>= f i
  within {α : Type} {x : ι → Eval α} (scope : ScopeId) : R x → R fun i => within scope (x i)
  nested {α : Type} {x : ι → Eval α} (t : Token) : R x → R fun i => nested t (x i)

namespace Congruence

variable {ι : Type} {R : {α : Type} → (ι → Eval α) → Prop} (hR : Congruence R)
include hR

section Callables

variable {run : ι → List Stmt → Eval Flow} (hrun : ∀ b, R fun i => run i b)
include hrun

theorem callFunction (f : Closure) (args : List Value) : R fun i => callFunction (run i) f args :=
  hR.bind (hR.const (quiet_newScope _)) fun scope =>
    hR.bind (hR.const (quiet_defineAll scope _)) fun _ =>
      hR.bind (hR.within scope (hrun _)) fun flow => hR.const (quiet_callResult f flow)

theorem instantiate (c : ClassId) (args : List Value) : R fun i => instantiate (run i) c args := by
  refine hR.bind (hR.const (quiet_newInstance c)) fun o =>
    hR.bind (hR.const (quiet_inspect _)) fun init => ?_
  cases init with
  | none => exact hR.const (quiet_pure _)
  | some init =>
    exact hR.bind (hR.const (quiet_attach init o)) fun f =>
      hR.bind (hR.callFunction hrun f args) fun _ => hR.const (quiet_pure _)

theorem apply (callee : Value) (t : Token) (args : List Value) :
    R fun i => apply (run i) callee t args := by
  cases callee with
  | function id =>
    refine hR.bind (hR.const (quiet_inspect _)) fun f => ?_
    cases f with
    | none => exact hR.const (quiet_fail _ _)
    | some f => exact hR.callFunction hrun f args
  | native id =>
    refine hR.bind (hR.const (quiet_inspect _)) fun f => ?_
    cases f with
    | none => exact hR.const (quiet_fail _ _)
    | some f => exact hR.const (quiet_callNative f t args)
  | cls id => exact hR.instantiate hrun id args
  | nil | bool | number | string | object => exact hR.const (quiet_fail _ _)

theorem call (callee : Value) (t : Token) (args : List Value) :
    R fun i => call (run i) callee t args := by
  refine hR.bind (hR.const (quiet_inspect _)) fun arity => ?_
  cases arity with
  | none => exact hR.const (quiet_fail _ _)
  | some arity =>
    dsimp only
    split
    · exact hR.const (quiet_fail _ _)
    · exact hR.nested t (hR.apply hrun callee t args)

end Callables

variable {ev : ι → Expr → Eval Value} {ex : ι → Stmt → Eval Flow}

theorem evalAll (hev : ∀ e, R fun i => ev i e) (es : List Expr) :
    R fun i => evalAll (ev i) es := by
  induction es with
  | nil => exact hR.const (quiet_pure _)
  | cons e es ih => exact hR.bind (hev e) fun _ => hR.bind ih fun _ => hR.const (quiet_pure _)

theorem evalOption (hev : ∀ e, R fun i => ev i e) (e : Option Expr) :
    R fun i => evalOption (ev i) e := by
  cases e with
  | none => exact hR.const (quiet_pure _)
  | some e => exact hev e

theorem runAll (hex : ∀ s, R fun i => ex i s) (b : List Stmt) : R fun i => runAll (ex i) b := by
  induction b with
  | nil => exact hR.const (quiet_pure _)
  | cons s b ih =>
    refine hR.bind (hex s) fun flow => ?_
    cases flow with
    | normal => exact ih
    | returned v => exact hR.const (quiet_pure _)

theorem evalOver {run : ι → List Stmt → Eval Flow} (hrun : ∀ b, R fun i => run i b)
    (hev : ∀ e, R fun i => ev i e) (e : Expr) : R fun i => evalOver (ev i) (run i) e := by
  cases e with
  | literal v => exact hR.const (quiet_pure _)
  | var r | receiver r => exact hR.const (quiet_lookUp r)
  | inherited k m => exact hR.const (quiet_superMethod k m)
  | group e => exact hev e
  | unary op e => exact hR.bind (hev e) fun _ => hR.const (quiet_liftAt op _)
  | binary op a b =>
    exact hR.bind (hev a) fun _ => hR.bind (hev b) fun _ => hR.const (quiet_liftAt op _)
  | logical op a b =>
    refine hR.bind (hev a) fun v => ?_
    split
    · exact hR.const (quiet_pure _)
    · exact hev b
  | assign r e =>
    exact hR.bind (hev e) fun v => hR.const ((quiet_assign r v).bind fun _ => quiet_pure v)
  | call f t args =>
    exact hR.bind (hev f) fun callee => hR.bind (hR.evalAll hev args) fun vs =>
      hR.call hrun callee t vs
  | get o n =>
    refine hR.bind (hev o) fun v => hR.const ?_
    cases v with
    | object id => exact quiet_property id n
    | nil | bool | number | string | function | native | cls => exact quiet_fail _ _
  | set o n e =>
    refine hR.bind (hev o) fun v => ?_
    cases v with
    | object id =>
      exact hR.bind (hev e) fun v => hR.const ((quiet_modifyStore _).bind fun _ => quiet_pure v)
    | nil | bool | number | string | function | native | cls => exact hR.const (quiet_fail _ _)

/-- The number of turns that a loop has may depend on the index too. What `print` does is not
quiet, so it is for the property to say. -/
theorem execOver {n : ι → Nat} (hev : ∀ e, R fun i => ev i e) (hex : ∀ s, R fun i => ex i s)
    (hloop : ∀ c s, R fun i => whileTrue (ev i c) (ex i s) (n i)) (s : Stmt)
    (hprint : ∀ e, s = .print e → R fun i => execOver (ev i) (ex i) (n i) (.print e)) :
    R fun i => execOver (ev i) (ex i) (n i) s := by
  cases s with
  | expression e => exact hR.bind (hev e) fun _ => hR.const (quiet_pure _)
  | print e => exact hprint e rfl
  | declare name e =>
    exact hR.bind (hR.evalOption hev e) fun v =>
      hR.const ((quiet_define _ v).bind fun _ => quiet_pure _)
  | block b =>
    exact hR.bind (hR.const quiet_currentScope) fun _ =>
      hR.bind (hR.const (quiet_newScope _)) fun scope => hR.within scope (hR.runAll hex b)
  | branch c s a =>
    refine hR.bind (hev c) fun v => ?_
    split
    · exact hex s
    · cases a with
      | none => exact hR.const (quiet_pure _)
      | some a => exact hex a
  | loop c s => exact hloop c s
  | function r =>
    exact hR.bind (hR.const quiet_currentScope) fun _ =>
      hR.bind (hR.const (quiet_newFunction _)) fun f =>
        hR.const ((quiet_define _ f).bind fun _ => quiet_pure _)
  | classDecl n c ms => exact hR.const ((quiet_declareClass n c ms).bind fun _ => quiet_pure _)
  | leave k e => exact hR.bind (hR.evalOption hev e) fun _ => hR.const (quiet_pure _)

end Congruence

end Treewalk.Eval
