import Treewalk.Proofs.Watch

/-!
# Actions that leave the output alone

Of the actions that evaluation is made of only `print` writes. The others are quiet
(`Eval.Quiet`): with another sink they do the same, and the sink is what it was. They are also
in the scope and at the depth of calls in the end that they began in.
-/

namespace Treewalk

namespace Eval

variable {α β : Type}

/-! ## Actions with a known result -/

theorem bind_of_ok {x : Eval α} {m m' : Machine} {a : α} (h : x m = .ok a m') (f : α → Eval β) :
    (x >>= f) m = f a m' := by
  show EStateM.bind x f m = _
  rw [EStateM.bind, h]

theorem bind_of_error {x : Eval α} {m m' : Machine} {e : Stop} (h : x m = .error e m')
    (f : α → Eval β) : (x >>= f) m = .error e m' := by
  show EStateM.bind x f m = _
  rw [EStateM.bind, h]

/-- A result with a change of its machine. -/
def mapMachine (f : Machine → Machine) :
    EStateM.Result Stop Machine α → EStateM.Result Stop Machine α
  | .ok a m => .ok a (f m)
  | .error e m => .error e (f m)

theorem within_eq (scope : ScopeId) (x : Eval α) (m : Machine) :
    within scope x m =
      mapMachine (fun m' => { m' with scope := m.scope }) (x { m with scope }) := by
  unfold within
  dsimp only
  cases x { m with scope } <;> rfl

theorem nested_eq (t : Token) (x : Eval α) (m : Machine) :
    nested t x m = if maxDepth ≤ m.depth then fail t .stackOverflow m else
      mapMachine (fun m' => { m' with depth := m'.depth - 1 })
        (x { m with depth := m.depth + 1 }) := by
  unfold nested
  cases x { m with depth := m.depth + 1 } <;> rfl

/-! ## Quiet actions -/

/-- The action does the same whatever the sink is, and keeps it, the scope and the depth. -/
structure Quiet (x : Eval α) : Prop where
  out : ∀ (m : Machine) (out : Sink),
    x { m with out } = mapMachine (fun m' => { m' with out }) (x m)
  place : ∀ m, (after (x m)).scope = m.scope ∧ (after (x m)).depth = m.depth

theorem Quiet.out_eq {x : Eval α} (h : Quiet x) (m : Machine) : (after (x m)).out = m.out := by
  have hx := h.out m m.out
  rw [show x { m with out := m.out } = x m from rfl] at hx
  rw [hx]
  cases x m <;> rfl

theorem Quiet.bind {x : Eval α} {f : α → Eval β} (hx : Quiet x) (hf : ∀ a, Quiet (f a)) :
    Quiet (x >>= f) := by
  refine ⟨fun m out => ?_, fun m => ?_⟩
  · have hout := hx.out m out
    cases hr : x m with
    | ok a m' =>
      rw [hr] at hout
      rw [bind_of_ok hout, bind_of_ok hr]
      exact (hf a).out m' out
    | error e m' =>
      rw [hr] at hout
      rw [bind_of_error hout, bind_of_error hr]
      rfl
  · obtain ⟨hscope, hdepth⟩ := hx.place m
    cases hr : x m with
    | ok a m' =>
      rw [hr] at hscope hdepth
      rw [bind_of_ok hr]
      exact ⟨((hf a).place m').1.trans hscope, ((hf a).place m').2.trans hdepth⟩
    | error e m' =>
      rw [hr] at hscope hdepth
      rw [bind_of_error hr]
      exact ⟨hscope, hdepth⟩

theorem quiet_pure (a : α) : Quiet (pure a) :=
  ⟨fun _ _ => rfl, fun _ => ⟨rfl, rfl⟩⟩

theorem quiet_exhausted : Quiet (exhausted : Eval α) :=
  ⟨fun _ _ => rfl, fun _ => ⟨rfl, rfl⟩⟩

theorem quiet_fail (t : Token) (f : RuntimeFault) : Quiet (fail t f : Eval α) :=
  ⟨fun _ _ => rfl, fun _ => ⟨rfl, rfl⟩⟩

theorem quiet_lift (x : Except Diagnostic α) : Quiet (lift x) := by
  cases x <;> exact ⟨fun _ _ => rfl, fun _ => ⟨rfl, rfl⟩⟩

theorem quiet_liftAt (t : Token) (x : Except RuntimeFault α) : Quiet (liftAt t x) := by
  cases x <;> exact ⟨fun _ _ => rfl, fun _ => ⟨rfl, rfl⟩⟩

theorem quiet_inspect (f : Store → α) : Quiet (inspect f) :=
  ⟨fun _ _ => rfl, fun _ => ⟨rfl, rfl⟩⟩

theorem quiet_modifyStore (f : Store → Store) : Quiet (modifyStore f) :=
  ⟨fun _ _ => rfl, fun _ => ⟨rfl, rfl⟩⟩

theorem quiet_newScope (parent : ScopeId) : Quiet (newScope parent) :=
  ⟨fun _ _ => rfl, fun _ => ⟨rfl, rfl⟩⟩

theorem quiet_newFunction (f : Closure) : Quiet (newFunction f) :=
  ⟨fun _ _ => rfl, fun _ => ⟨rfl, rfl⟩⟩

theorem quiet_newClass (c : ClassInfo) : Quiet (newClass c) :=
  ⟨fun _ _ => rfl, fun _ => ⟨rfl, rfl⟩⟩

theorem quiet_newInstance (c : ClassId) : Quiet (newInstance c) :=
  ⟨fun _ _ => rfl, fun _ => ⟨rfl, rfl⟩⟩

theorem quiet_currentScope : Quiet currentScope :=
  ⟨fun _ _ => rfl, fun _ => ⟨rfl, rfl⟩⟩

theorem quiet_define (name : String) (v : Value) : Quiet (define name v) :=
  ⟨fun _ _ => rfl, fun _ => ⟨rfl, rfl⟩⟩

theorem quiet_readClock : Quiet readClock :=
  ⟨fun _ _ => rfl, fun _ => ⟨rfl, rfl⟩⟩

/-- An action that looks into the machine first, but not at its sink. -/
theorem quiet_of_state {x : Eval α} (f : Store → ScopeId → Eval α)
    (hx : ∀ m, x m = f m.store m.scope m) (hf : ∀ store scope, Quiet (f store scope)) :
    Quiet x := by
  refine ⟨fun m out => ?_, fun m => ?_⟩
  · rw [hx, hx]
    exact (hf m.store m.scope).out m out
  · rw [hx]
    exact (hf m.store m.scope).place m

theorem quiet_lookUp (ref : Reference) : Quiet (lookUp ref) := by
  obtain ⟨name, depth⟩ := ref
  cases depth with
  | some distance =>
    exact quiet_of_state (fun store scope => lift (store.scopes.getAt scope distance name))
      (fun _ => rfl) fun _ _ => quiet_lift _
  | none =>
    exact quiet_of_state (fun store _ => lift (store.scopes.get Machine.globals name))
      (fun _ => rfl) fun _ _ => quiet_lift _

theorem quiet_receiverOf (f : Closure) : Quiet (receiverOf f) :=
  quiet_of_state (fun store _ => lift (store.scopes.getAt f.scope 0
    (.named "this" f.routine.name.line))) (fun _ => rfl) fun _ _ => quiet_lift _

theorem quiet_assign (ref : Reference) (v : Value) : Quiet (assign ref v) := by
  refine ⟨fun m out => ?_, fun m => ?_⟩
  · unfold assign
    dsimp only
    split <;> rfl
  · unfold assign
    dsimp only
    split <;> exact ⟨rfl, rfl⟩

/-! ## Methods, classes and natives -/

theorem quiet_attach (f : Closure) (o : InstanceId) : Quiet (attach f o) :=
  (quiet_newScope _).bind fun _ => (quiet_modifyStore _).bind fun _ => quiet_pure _

theorem quiet_boundMethod (f : Closure) (o : InstanceId) : Quiet (boundMethod f o) :=
  (quiet_attach f o).bind fun _ => quiet_newFunction _

theorem quiet_defineAll (scope : ScopeId) (l : List (Token × Value)) :
    Quiet (defineAll scope l) := by
  induction l with
  | nil => exact quiet_pure _
  | cons p l ih => exact (quiet_modifyStore _).bind fun _ => ih

/-- What a call results in. -/
theorem quiet_callResult (f : Closure) (flow : Flow) : Quiet (match f.role, flow with
    | .initializer, _ => receiverOf f
    | _, .returned v => pure v
    | _, .normal => pure .nil : Eval Value) := by
  cases f.role <;> cases flow <;> first | exact quiet_receiverOf f | exact quiet_pure _

theorem quiet_property (o : InstanceId) (name : Token) : Quiet (property o name) := by
  refine (quiet_inspect _).bind fun field => ?_
  cases field with
  | some v => exact quiet_pure v
  | none =>
    refine (quiet_inspect _).bind fun method => ?_
    cases method with
    | some f => exact quiet_boundMethod f o
    | none => exact quiet_fail _ _

theorem quiet_superMethod (keyword : Reference) (method : Token) :
    Quiet (superMethod keyword method) := by
  unfold superMethod
  cases keyword.depth with
  | none => exact quiet_fail _ _
  | some distance =>
    refine quiet_currentScope.bind fun scope => (quiet_inspect _).bind fun found =>
      (quiet_lift found).bind fun superclass => ?_
    cases superclass with
    | cls c =>
      cases distance with
      | zero => exact quiet_fail _ _
      | succ inner =>
        refine (quiet_inspect _).bind fun found => (quiet_lift found).bind fun receiver => ?_
        cases receiver with
        | object o =>
          refine (quiet_inspect _).bind fun found => ?_
          cases found with
          | some f => exact quiet_boundMethod f o
          | none => exact quiet_fail _ _
        | nil | bool | number | string | function | native | cls => exact quiet_fail _ _
    | nil | bool | number | string | function | native | object => exact quiet_fail _ _

theorem quiet_callNative (f : Native) (t : Token) (args : List Value) :
    Quiet (callNative f t args) := by
  cases f with
  | clock => exact quiet_readClock
  | host _ run => exact (quiet_inspect _).bind fun _ => quiet_liftAt t _

theorem quiet_superclassOf (r : Option Reference) : Quiet (superclassOf r) := by
  cases r with
  | none => exact quiet_pure _
  | some r =>
    refine (quiet_lookUp r).bind fun v => ?_
    cases v with
    | cls c => exact quiet_pure _
    | nil | bool | number | string | function | native | object => exact quiet_fail _ _

theorem quiet_methodScope (c : Option ClassId) : Quiet (methodScope c) := by
  cases c with
  | none => exact quiet_currentScope
  | some c =>
    exact quiet_currentScope.bind fun _ => (quiet_newScope _).bind fun _ =>
      (quiet_modifyStore _).bind fun _ => quiet_pure _

theorem quiet_declareClass (n : Token) (r : Option Reference) (ms : List (Routine Stmt)) :
    Quiet (declareClass n r ms) :=
  (quiet_superclassOf r).bind fun c => (quiet_methodScope c).bind fun _ =>
    (quiet_newClass _).bind fun _ => quiet_define _ _

end Eval

end Treewalk
