import Treewalk.Proofs.Lockstep.Declarations
import Treewalk.Proofs.Moments
import Treewalk.Proofs.Scoping.Chains

/-!
# Scopes that a run leaves alone

Names are added to the current scope by declarations, and to scopes that were just made. So
whatever runs in another scope adds no name to a scope `k` that exists already, however many
functions are called and wherever the run is stopped, and it returns to the scope that it
started in (`Eval.Spares`). The same is true of what runs in `k` itself, if it is a statement
that declares nothing there (`Stmt.Inert`). Values may change, names and links do not.
-/

namespace Treewalk

/-! ## Scopes -/

/-- From the first scopes to the second, the scope `k` got no name and kept its link, and no
scope was lost. -/
structure Scopes.Spares (k : ScopeId) (σ σ' : Scopes) : Prop where
  next : σ.next ≤ σ'.next
  parent : σ'.parent? k = σ.parent? k
  binds : ∀ name, σ'.binds k name = σ.binds k name

namespace Scopes

variable {σ σ₁ σ₂ : Scopes} {k id : ScopeId}

theorem Spares.refl (k : ScopeId) (σ : Scopes) : σ.Spares k σ :=
  ⟨Nat.le_refl _, rfl, fun _ => rfl⟩

theorem Spares.trans (h : σ.Spares k σ₁) (h' : σ₁.Spares k σ₂) : σ.Spares k σ₂ :=
  ⟨Nat.le_trans h.next h'.next, h'.parent.trans h.parent,
    fun name => (h'.binds name).trans (h.binds name)⟩

theorem spares_push (h : k < σ.next) (parent : Option ScopeId) : σ.Spares k (σ.push parent) := by
  refine ⟨by simp, ?_, fun name => by rw [binds, value?_push, binds]⟩
  rw [parent?_push, if_neg (Nat.ne_of_lt h)]

/-- A name is added to another scope. -/
theorem spares_define (hne : id ≠ k) (name : String) (v : Value) :
    σ.Spares k (σ.define id name v) := by
  refine ⟨by simp, parent?_define _ _ _ _ k, fun key => ?_⟩
  simp only [binds, value?, define, Array.getElem?_modify, if_neg hne]

/-- A name is rebound, in whatever scope. -/
theorem spares_rebind {name : String} (h : σ.binds id name = true) (v : Value) :
    σ.Spares k (σ.define id name v) := by
  refine ⟨by simp, parent?_define _ _ _ _ k, fun key => ?_⟩
  rw [binds_define (lt_next_of_binds h)]
  by_cases hk : id = k ∧ name = key
  · rw [← hk.1, ← hk.2, h, Bool.or_true]
  · simp [hk]

theorem spares_bindAll (hne : id ≠ k) (l : List (Token × Value)) :
    σ.Spares k (σ.bindAll id l) := by
  induction l generalizing σ with
  | nil => exact .refl k σ
  | cons b l ih => exact (spares_define hne _ _).trans ih

end Scopes

/-- The machines are in the same scope, and `k` was left alone from one to the other. -/
structure Machine.Spares (k : ScopeId) (m m' : Machine) : Prop where
  scope : m'.scope = m.scope
  scopes : m.store.scopes.Spares k m'.store.scopes

theorem Machine.Spares.refl (k : ScopeId) (m : Machine) : m.Spares k m :=
  ⟨rfl, .refl k _⟩

theorem Machine.Spares.trans {k : ScopeId} {m m' m'' : Machine} (h : m.Spares k m')
    (h' : m'.Spares k m'') : m.Spares k m'' :=
  ⟨h'.scope.trans h.scope, h.scopes.trans h'.scopes⟩

namespace Eval

variable {α β : Type} {k : ScopeId} {here : Prop}

/-- Run outside the scope `k`, and also inside it if `here` holds, the action leaves `k` alone,
wherever it ends. -/
def Spares (k : ScopeId) (here : Prop) (x : Eval α) : Prop :=
  ∀ m : Machine, k < m.store.scopes.next → (m.scope = k → here) → m.Spares k (after (x m))

/-! ## Actions -/

theorem Spares.bind {x : Eval α} {f : α → Eval β} (hx : Spares k here x)
    (hf : ∀ a, Spares k here (f a)) : Spares k here (x >>= f) := by
  intro m hk hm
  have h := hx m hk hm
  cases hr : x m with
  | error e m' =>
    rw [bind_of_error hr]
    rw [hr] at h
    exact h
  | ok a m' =>
    rw [bind_of_ok hr]
    rw [hr] at h
    have hscope : m'.scope = m.scope := h.scope
    exact h.trans (hf a m' (Nat.lt_of_lt_of_le hk h.scopes.next) (hscope ▸ hm))

/-- An action that changes no scope. -/
theorem spares_of_scopes {x : Eval α} (h : ∀ m, (after (x m)).scope = m.scope ∧
    (after (x m)).store.scopes = m.store.scopes) : Spares k here x :=
  fun m _ _ => ⟨(h m).1, (h m).2 ▸ .refl k _⟩

theorem spares_pure (a : α) : Spares k here (pure a) :=
  spares_of_scopes fun _ => ⟨rfl, rfl⟩

theorem spares_exhausted : Spares k here (exhausted : Eval α) :=
  spares_of_scopes fun _ => ⟨rfl, rfl⟩

theorem spares_fail (t : Token) (f : RuntimeFault) : Spares k here (fail t f : Eval α) :=
  spares_of_scopes fun _ => ⟨rfl, rfl⟩

theorem spares_lift (x : Except Diagnostic α) : Spares k here (lift x) := by
  cases x <;> exact spares_of_scopes fun _ => ⟨rfl, rfl⟩

theorem spares_liftAt (t : Token) (x : Except RuntimeFault α) : Spares k here (liftAt t x) := by
  cases x <;> exact spares_of_scopes fun _ => ⟨rfl, rfl⟩

theorem spares_inspect (f : Store → α) : Spares k here (inspect f) :=
  spares_of_scopes fun _ => ⟨rfl, rfl⟩

theorem spares_currentScope : Spares k here currentScope :=
  spares_of_scopes fun _ => ⟨rfl, rfl⟩

theorem spares_newFunction (f : Closure) : Spares k here (newFunction f) :=
  spares_of_scopes fun _ => ⟨rfl, rfl⟩

theorem spares_newInstance (c : ClassId) : Spares k here (newInstance c) :=
  spares_of_scopes fun _ => ⟨rfl, rfl⟩

theorem spares_setField (o : InstanceId) (name : String) (v : Value) :
    Spares k here (modifyStore fun s => s.setField o name v) :=
  spares_of_scopes fun _ => ⟨rfl, rfl⟩

theorem spares_readClock : Spares k here readClock :=
  spares_of_scopes fun _ => ⟨rfl, rfl⟩

theorem spares_printLine (text : String) : Spares k here (printLine text) := by
  refine spares_of_scopes fun ⟨store, scope, depth, out, clock, ticks⟩ => ?_
  simp only [printLine]
  split <;> exact ⟨rfl, rfl⟩

theorem spares_lookUp (ref : Reference) : Spares k here (lookUp ref) :=
  fun m hk hm => spares_lift _ m hk hm

theorem spares_receiverOf (f : Closure) : Spares k here (receiverOf f) :=
  fun m hk hm => spares_lift _ m hk hm

/-- Only names that are bound there already are assigned to. -/
theorem spares_assign (ref : Reference) (v : Value) : Spares k here (assign ref v) := by
  intro m _ _
  rw [assign_eq ref v rfl]
  split
  · next id hid => exact ⟨rfl, Scopes.spares_rebind (Scopes.binds_of_target? hid) v⟩
  · exact .refl k m

/-- A declaration adds its name to the current scope. -/
theorem spares_define (name : String) (v : Value) : Spares k False (define name v) :=
  fun _ _ hm => ⟨rfl, Scopes.spares_define hm name v⟩

/-- An action between two changes of the machine that leave `k` alone. -/
theorem spares_within {x : Eval α} (hx : Spares k False x) {scope : ScopeId} (hne : scope ≠ k) :
    Spares k here (within scope x) := by
  intro m hk _
  have h := hx { m with scope } hk hne
  rw [within_eq]
  cases hr : x { m with scope } <;> rw [hr] at h <;> exact ⟨rfl, h.scopes⟩

theorem spares_nested {x : Eval α} (hx : Spares k here x) (t : Token) :
    Spares k here (nested t x) := by
  intro m hk hm
  rw [nested_eq]
  split
  · exact .refl k m
  · have h := hx { m with depth := m.depth + 1 } hk hm
    cases hr : x { m with depth := m.depth + 1 } <;> rw [hr] at h <;> exact ⟨h.scope, h.scopes⟩

theorem spares_watched {x : Eval α} (hx : Spares k here x) (w : Watch) (node : Node) :
    Spares k here (watched w node x) := by
  intro m hk hm
  unfold watched
  split
  · exact .refl k m
  · exact hx m hk hm

/-! ## Objects -/

/-- A new scope is another one. -/
theorem spares_attach (f : Closure) (o : InstanceId) : Spares k here (attach f o) := by
  intro m hk _
  rw [attach_eq]
  exact ⟨rfl, (Scopes.spares_push hk _).trans (Scopes.spares_define (Nat.ne_of_gt hk) _ _)⟩

theorem spares_boundMethod (f : Closure) (o : InstanceId) : Spares k here (boundMethod f o) :=
  .bind (spares_attach f o) spares_newFunction

theorem spares_property (o : InstanceId) (name : Token) : Spares k here (property o name) := by
  refine .bind (spares_inspect _) fun field => ?_
  split
  · exact spares_pure _
  · refine .bind (spares_inspect _) fun method => ?_
    split
    · exact spares_boundMethod _ o
    · exact spares_fail _ _

theorem spares_superMethod (keyword : Reference) (name : Token) :
    Spares k here (superMethod keyword name) := by
  unfold superMethod
  dsimp only
  split
  · exact spares_fail _ _
  refine .bind spares_currentScope fun scope => ?_
  refine .bind (spares_inspect _) fun _ => .bind (spares_lift _) fun _ => ?_
  split
  · split
    · exact spares_fail _ _
    refine .bind (spares_inspect _) fun _ => .bind (spares_lift _) fun _ => ?_
    split
    · refine .bind (spares_inspect _) fun found => ?_
      split
      · exact spares_boundMethod _ _
      · exact spares_fail _ _
    · exact spares_fail _ _
  · exact spares_fail _ _

theorem spares_superclassOf (r : Option Reference) : Spares k here (superclassOf r) := by
  cases r with
  | none => exact spares_pure none
  | some ref =>
    refine .bind (spares_lookUp ref) fun v => ?_
    split
    · exact spares_pure _
    · exact spares_fail _ _

theorem spares_methodScope (c : Option ClassId) : Spares k here (methodScope c) := by
  cases c with
  | none => exact spares_currentScope
  | some c =>
    exact fun m hk _ =>
      ⟨rfl, (Scopes.spares_push hk _).trans (Scopes.spares_define (Nat.ne_of_gt hk) _ _)⟩

theorem spares_declareClass (n : Token) (r : Option Reference) (ms : List (Routine Stmt)) :
    Spares k False (declareClass n r ms) :=
  .bind (spares_superclassOf r) fun _ => .bind (spares_methodScope _) fun _ =>
    .bind (spares_of_scopes fun _ => ⟨rfl, rfl⟩) fun _ => spares_define _ _

theorem spares_callNative (f : Native) (t : Token) (args : List Value) :
    Spares k here (callNative f t args) := by
  cases f with
  | clock => exact spares_readClock
  | host arity run => exact .bind (spares_inspect _) fun _ => spares_liftAt t _

section Callables

variable {run : List Stmt → Eval Flow} (hrun : ∀ b, Spares k False (run b))
include hrun

/-- Parameters are bound in a new scope, and the body runs there. -/
theorem spares_callFunction (f : Closure) (args : List Value) :
    Spares k here (callFunction run f args) := by
  intro m hk hm
  rw [callFunction_eq]
  have hne : m.store.scopes.next ≠ k := Nat.ne_of_gt hk
  have hfinish : ∀ flow, Spares k here (finish f flow) := by
    intro flow
    unfold finish
    split
    · exact spares_receiverOf f
    · exact spares_pure _
    · exact spares_pure _
  have hbound := (Scopes.spares_push hk (some f.scope)).trans
    (Scopes.spares_bindAll hne (f.routine.params.zip args))
  have hbody := Spares.bind (spares_within (hrun f.routine.body) hne) hfinish
    { m with store := { m.store with scopes := _ } } (Nat.lt_of_lt_of_le hk hbound.next) hm
  exact ⟨hbody.scope, hbound.trans hbody.scopes⟩

theorem spares_instantiate (c : ClassId) (args : List Value) :
    Spares k here (instantiate run c args) := by
  refine .bind (spares_newInstance c) fun o => .bind (spares_inspect _) fun init => ?_
  cases init with
  | none => exact spares_pure _
  | some init =>
    exact .bind (spares_attach init o) fun f =>
      .bind (spares_callFunction hrun f args) fun _ => spares_pure _

theorem spares_call (callee : Value) (t : Token) (args : List Value) :
    Spares k here (call run callee t args) := by
  refine .bind (spares_inspect _) fun arity => ?_
  cases arity with
  | none => exact spares_fail _ _
  | some arity =>
    dsimp only
    split
    · exact spares_fail _ _
    · refine spares_nested ?_ t
      cases callee with
      | function id =>
        refine .bind (spares_inspect _) fun f => ?_
        cases f with
        | none => exact spares_fail _ _
        | some f => exact spares_callFunction hrun f args
      | native id =>
        refine .bind (spares_inspect _) fun f => ?_
        cases f with
        | none => exact spares_fail _ _
        | some f => exact spares_callNative f t args
      | cls id => exact spares_instantiate hrun id args
      | nil | bool | number | string | object => exact spares_fail _ _

end Callables

/-! ## Rules -/

end Eval

/-- The statement declares nothing in the scope that it is executed in. -/
def Stmt.Inert : Stmt → Prop
  | .expression _ | .print _ | .block _ | .leave _ _ => True
  | .branch _ s none => s.Inert
  | .branch _ s (some a) => s.Inert ∧ a.Inert
  | .loop _ s => s.Inert
  | .declare _ _ | .function _ | .classDecl _ _ _ => False

namespace Eval

section Rules

variable {ev : Expr → Eval Value} {ex : Stmt → Eval Flow}

theorem spares_evalAll (hev : ∀ e, Spares k here (ev e)) (es : List Expr) :
    Spares k here (evalAll ev es) := by
  induction es with
  | nil => exact spares_pure _
  | cons e es ih => exact .bind (hev e) fun _ => .bind ih fun _ => spares_pure _

theorem spares_evalOption (hev : ∀ e, Spares k here (ev e)) (e : Option Expr) :
    Spares k here (evalOption ev e) := by
  cases e with
  | none => exact spares_pure _
  | some e => exact hev e

theorem spares_runAll {b : List Stmt} (hex : ∀ s ∈ b, Spares k here (ex s)) :
    Spares k here (runAll ex b) := by
  induction b with
  | nil => exact spares_pure _
  | cons s b ih =>
    obtain ⟨hs, hb⟩ := List.forall_mem_cons.mp hex
    refine .bind hs fun flow => ?_
    cases flow with
    | normal => exact ih hb
    | returned v => exact spares_pure _

theorem spares_whileTrue {c : Eval Value} {b : Eval Flow} (hc : Spares k here c)
    (hb : Spares k here b) (n : Nat) : Spares k here (whileTrue c b n) := by
  induction n with
  | zero => exact spares_exhausted
  | succ n ih =>
    refine .bind hc fun v => ?_
    split
    · refine .bind hb fun flow => ?_
      cases flow with
      | normal => exact ih
      | returned v => exact spares_pure _
    · exact spares_pure _

theorem spares_evalOver {run : List Stmt → Eval Flow} (hrun : ∀ b, Spares k False (run b))
    (hev : ∀ e, Spares k here (ev e)) (e : Expr) : Spares k here (evalOver ev run e) := by
  cases e with
  | literal v => exact spares_pure _
  | var r | receiver r => exact spares_lookUp r
  | inherited r t => exact spares_superMethod r t
  | group e => exact hev e
  | unary op e => exact .bind (hev e) fun _ => spares_liftAt op _
  | binary op a b => exact .bind (hev a) fun _ => .bind (hev b) fun _ => spares_liftAt op _
  | logical op a b =>
    refine .bind (hev a) fun v => ?_
    split
    · exact spares_pure _
    · exact hev b
  | assign r e => exact .bind (hev e) fun v => .bind (spares_assign r v) fun _ => spares_pure _
  | call f t args =>
    exact .bind (hev f) fun callee => .bind (spares_evalAll hev args) fun vs =>
      spares_call hrun callee t vs
  | get o n =>
    refine .bind (hev o) fun v => ?_
    split
    · exact spares_property _ n
    · exact spares_fail _ _
  | set o n e =>
    refine .bind (hev o) fun v => ?_
    split
    · exact .bind (hev e) fun _ => .bind (spares_setField _ _ _) fun _ => spares_pure _
    · exact spares_fail _ _

/-- A block runs in a scope of its own, so only what is under a condition counts. -/
theorem spares_execOver (hev : ∀ e, Spares k here (ev e))
    (hex : ∀ s, (here → s.Inert) → Spares k here (ex s)) (hblock : ∀ s, Spares k False (ex s))
    (n : Nat) {s : Stmt} (hs : here → s.Inert) : Spares k here (execOver ev ex n s) := by
  cases s with
  | expression e => exact .bind (hev e) fun _ => spares_pure _
  | print e =>
    exact .bind (hev e) fun v => .bind (spares_inspect _) fun text =>
      .bind (spares_printLine text) fun _ => spares_pure _
  | declare name e =>
    refine .bind (spares_evalOption hev e) fun v => .bind ?_ fun _ => spares_pure _
    exact fun m hk hm => spares_define name.lexeme v m hk fun h => hs (hm h)
  | block b =>
    intro m hk hm
    have hpush := Scopes.spares_push hk (some m.scope)
    have hbody := spares_within (spares_runAll fun s (_ : s ∈ b) => hblock s)
      (Nat.ne_of_gt hk) { m with store := m.store.pushScope (some m.scope) }
      (Nat.lt_of_lt_of_le hk hpush.next) hm
    exact ⟨hbody.scope, hpush.trans hbody.scopes⟩
  | branch c s a =>
    refine .bind (hev c) fun v => ?_
    cases a with
    | none =>
      split
      · exact hex s hs
      · exact spares_pure _
    | some a =>
      split
      · exact hex s fun h => (hs h).1
      · exact hex a fun h => (hs h).2
  | loop c s => exact spares_whileTrue (hev c) (hex s hs) n
  | function r =>
    refine .bind spares_currentScope fun _ =>
      .bind (spares_newFunction _) fun f => .bind ?_ fun _ => spares_pure _
    exact fun m hk hm => spares_define r.name.lexeme f m hk fun h => hs (hm h)
  | leave t e => exact .bind (spares_evalOption hev e) fun _ => spares_pure _
  | classDecl n r ms =>
    refine .bind ?_ fun _ => spares_pure _
    exact fun m hk hm => spares_declareClass n r ms m hk fun h => hs (hm h)

end Rules

/-- Wherever it is stopped, a run leaves `k` alone: an expression anyway, a statement unless it
declares names there. -/
theorem spares_run (w : Watch) (n : Nat) (k : ScopeId) : ∀ here : Prop,
    (∀ e, Spares k here (evalWatched w n e)) ∧
    ∀ s, (here → s.Inert) → Spares k here (execWatched w n s) := by
  induction n with
  | zero =>
    intro here
    refine ⟨fun e => ?_, fun s _ => ?_⟩
    · rw [evalWatched]
      exact spares_exhausted
    · rw [execWatched]
      exact spares_exhausted
  | succ n ih =>
    intro here
    have hblock : ∀ s, Spares k False (execWatched w n s) := fun s => (ih False).2 s False.elim
    refine ⟨fun e => ?_, fun s hs => ?_⟩
    · rw [evalWatched]
      exact spares_watched (spares_evalOver (fun b => spares_runAll fun s _ => hblock s)
        (ih here).1 e) w _
    · rw [execWatched]
      exact spares_watched (spares_execOver (ih here).1 (ih here).2 hblock n hs) w _

end Eval

end Treewalk
