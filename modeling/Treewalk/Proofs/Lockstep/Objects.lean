import Treewalk.Proofs.Lockstep.Actions

/-!
# Functions, classes and instances in step

Calls, bound methods and class declarations of two corresponding runs. A call
needs as many arguments as parameters, since only then every parameter is bound;
the count is checked right before the call.
-/

namespace Treewalk

/-- A method depends on the classes alone. -/
theorem Store.methodWithin_congr {st st' : Store} (h : st.classes = st'.classes) (name : String)
    (steps : Nat) (id : ClassId) : st.methodWithin name steps id = st'.methodWithin name steps id := by
  induction steps generalizing id with
  | zero => rfl
  | succ steps ih =>
    have ih : st.methodWithin name steps = st'.methodWithin name steps := funext ih
    simp only [Store.methodWithin, h, ih]

theorem Store.method?_congr {st st' : Store} (h : st.classes = st'.classes) (id : ClassId)
    (name : String) : st.method? id name = st'.method? id name := by
  simp only [Store.method?, h, Store.methodWithin_congr h]

theorem Eval.defineAll_eq (scope : ScopeId) (bound : List (Token × Value)) (m : Machine) :
    Eval.defineAll scope bound m =
      .ok () { m with store := { m.store with scopes := m.store.scopes.bindAll scope bound } } := by
  induction bound generalizing m with
  | nil => rfl
  | cons p rest ih =>
    obtain ⟨param, arg⟩ := p
    exact ih _

theorem Eval.attach_eq (f : Closure) (o : InstanceId) (m : Machine) :
    Eval.attach f o m = .ok { f with scope := m.store.scopes.next } { m with store := { m.store with
      scopes := (m.store.scopes.push (some f.scope)).define m.store.scopes.next "this"
        (.object o) } } := rfl

/-- What the result of a body makes the result of the call. -/
def Eval.finish (f : Closure) (flow : Flow) : Eval Value :=
  match f.role, flow with
  | .initializer, _ => Eval.receiverOf f
  | _, .returned v => pure v
  | _, .normal => pure .nil

theorem Eval.callFunction_eq (run : List Stmt → Eval Flow) (f : Closure) (args : List Value)
    (m : Machine) :
    Eval.callFunction run f args m =
      (Eval.within m.store.scopes.next (run f.routine.body) >>= Eval.finish f)
        { m with store := { m.store with
          scopes := (m.store.scopes.push (some f.scope)).bindAll m.store.scopes.next
            (f.routine.params.zip args) } } := by
  show (Eval.defineAll m.store.scopes.next _ >>= _) _ = _
  show EStateM.bind (Eval.defineAll m.store.scopes.next _) _ _ = _
  unfold EStateM.bind
  rw [Eval.defineAll_eq]
  rfl

theorem Eval.apply_function_eq (run : List Stmt → Eval Flow) (id : FunctionId) (t : Token)
    (args : List Value) (m : Machine) :
    Eval.apply run (.function id) t args m =
      (match m.store.functions[id]? with
        | some f => Eval.callFunction run f args
        | none => Eval.fail t .notCallable) m :=
  rfl

theorem Eval.apply_native_eq (run : List Stmt → Eval Flow) (id : NativeId) (t : Token)
    (args : List Value) (m : Machine) :
    Eval.apply run (.native id) t args m =
      (match m.store.natives[id]? with
        | some f => Eval.callNative f t args
        | none => Eval.fail t .notCallable) m :=
  rfl

theorem Eval.call_eq (run : List Stmt → Eval Flow) (callee : Value) (t : Token)
    (args : List Value) (m : Machine) :
    Eval.call run callee t args m =
      (match m.store.arity? callee with
        | none => Eval.fail t .notCallable
        | some arity =>
          if args.length ≠ arity then Eval.fail t (.arity arity args.length)
          else Eval.nested t (Eval.apply run callee t args)) m :=
  rfl

/-- Runs the initializer of a new instance, if there is one. -/
def Eval.construct (run : List Stmt → Eval Flow) (args : List Value) (id : InstanceId) :
    Option Closure → Eval Value
  | none => pure (.object id)
  | some init => do
    let _ ← Eval.callFunction run (← Eval.attach init id) args
    pure (.object id)

theorem Eval.instantiate_eq (run : List Stmt → Eval Flow) (cls : ClassId) (args : List Value)
    (m : Machine) :
    Eval.instantiate run cls args m =
      Eval.construct run args m.store.instances.size (m.store.method? cls initializerName)
        { m with store := m.store.pushInstance cls } := by
  rw [show m.store.method? cls initializerName =
    (m.store.pushInstance cls).method? cls initializerName by
      exact Store.method?_congr (by rfl) _ _]
  show (match (m.store.pushInstance cls).method? cls initializerName with
    | none => pure (.object m.store.instances.size)
    | some init => do
      let _ ← Eval.callFunction run (← Eval.attach init m.store.instances.size) args
      pure (.object m.store.instances.size) : Eval Value) _ = _
  cases (m.store.pushInstance cls).method? cls initializerName <;> rfl

namespace Correspondence

variable {C : Correspondence} {w : C.World} {s : ScopeId} {κ : C.Ctx}

/-! ## What the stores answer -/

theorem Stores.methodWithin {st st' : Store} (h : C.Stores w st st') (name : String) (steps : Nat)
    (id : ClassId) : Option.Rel (C.Methods w) (st.methodWithin name steps id)
      (st'.methodWithin name steps id) := by
  induction steps generalizing id with
  | zero => exact .none
  | succ steps ih =>
    unfold Store.methodWithin
    have hc := h.classes id
    revert hc
    generalize st.classes[id]? = c
    generalize st'.classes[id]? = c'
    intro hc
    cases hc with
    | none => exact .none
    | @some c c' hc =>
      have hm := hc.methods.get? name
      simp only [← hc.superclass]
      revert hm
      generalize c.methods.get? name = f
      generalize c'.methods.get? name = f'
      intro hm
      cases hm with
      | some hm => exact .some hm
      | none =>
        cases c.superclass with
        | none => exact .none
        | some d => exact ih d

theorem Stores.method? {st st' : Store} (h : C.Stores w st st') (id : ClassId) (name : String) :
    Option.Rel (C.Methods w) (st.method? id name) (st'.method? id name) := by
  unfold Store.method?
  rw [h.classCount]
  exact h.methodWithin name _ id

theorem Functions.arity {f f' : Closure} (h : C.Functions w f f') : f.arity = f'.arity := by
  obtain ⟨κ, -, hr, -⟩ := h.routine
  obtain ⟨κ₀, he, -⟩ := hr.body
  exact C.length_eq he

theorem Methods.arity {f f' : Closure} (h : C.Methods w f f') : f.arity = f'.arity := by
  obtain ⟨κ, -, hr⟩ := h.routine
  obtain ⟨κ₀, he, -⟩ := hr.body
  exact C.length_eq he

theorem Stores.arity? {st st' : Store} (h : C.Stores w st st') (v : Value) :
    st.arity? v = st'.arity? v := by
  cases v with
  | function id =>
    have hf := h.functions id
    simp only [Store.arity?]
    revert hf
    generalize st.functions[id]? = f
    generalize st'.functions[id]? = f'
    intro hf
    cases hf with
    | some hf => exact congrArg some hf.arity
    | none => rfl
  | cls id =>
    have hf := h.method? id initializerName
    simp only [Store.arity?]
    revert hf
    generalize st.method? id initializerName = f
    generalize st'.method? id initializerName = f'
    intro hf
    cases hf with
    | some hf => exact congrArg (fun n => some n) hf.arity
    | none => rfl
  | native id => simp only [Store.arity?, h.natives]
  | nil | bool | number | string | object => rfl

theorem Stores.className {st st' : Store} (h : C.Stores w st st') (id : ClassId) :
    st.className id = st'.className id := by
  have hc := h.classes id
  unfold Store.className
  revert hc
  generalize st.classes[id]? = c
  generalize st'.classes[id]? = c'
  intro hc
  cases hc with
  | some hc => exact hc.name
  | none => rfl

theorem Stores.functionName {st st' : Store} (h : C.Stores w st st') (id : FunctionId) :
    st.functionName id = st'.functionName id := by
  have hf := h.functions id
  unfold Store.functionName
  revert hf
  generalize st.functions[id]? = f
  generalize st'.functions[id]? = f'
  intro hf
  cases hf with
  | some hf =>
    obtain ⟨κ, -, hr, -⟩ := hf.routine
    exact C.lexeme_eq hr.name
  | none => rfl

/-- Values print alike. -/
theorem Stores.text {st st' : Store} (h : C.Stores w st st') (v : Value) :
    st.text v = st'.text v := by
  cases v with
  | function id => simp only [Store.text, h.functionName]
  | cls id => exact h.className id
  | object id => simp only [Store.text, h.instances, h.className]
  | bool b => cases b <;> rfl
  | nil | number | string | native => rfl

/-! ## Making objects -/

/-- Only the stores have changed. -/
theorem Machines.withStore {w' : C.World} {m m' : Machine} (h : C.Machines w s m m')
    {st st' : Store} (hst : C.Stores w' st st') :
    C.Machines w' s { m with store := st } { m' with store := st' } :=
  ⟨hst, h.scope, h.scope', h.depth, h.out, h.clock, h.ticks⟩

theorem newFunction_sim {f f' : Closure} (h : C.Functions w f f') :
    C.Sim w s C.Same (Eval.newFunction f) (Eval.newFunction f') := by
  intro m m' hm
  have hst := hm.store
  refine .ok (C.le_refl w) (hm.withStore ⟨hst.scopes, ?_, ?_, hst.natives, hst.classCount,
    hst.classes, hst.instances⟩) (congrArg Value.function hst.functionCount)
  · show (m.store.functions.push f).size = (m'.store.functions.push f').size
    rw [Array.size_push, Array.size_push, hst.functionCount]
  · exact rel_getElem?_push hst.functionCount hst.functions h

theorem setField_sim (id : InstanceId) (name : String) (v : Value) :
    C.Sim w s C.Same (Eval.modifyStore fun st => st.setField id name v)
      (Eval.modifyStore fun st => st.setField id name v) := by
  intro m m' hm
  have hst := hm.store
  refine .ok (C.le_refl w) (hm.withStore ⟨hst.scopes, hst.functionCount, hst.functions,
    hst.natives, hst.classCount, hst.classes, ?_⟩) rfl
  simp only [Store.setField, hst.instances]

theorem attach_sim {f f' : Closure} (h : C.Methods w f f') (o : InstanceId) :
    C.Sim w s (fun w' g g' => C.Functions w' g g' ∧ g.routine = f.routine)
      (Eval.attach f o) (Eval.attach f' o) := by
  intro m m' hm
  obtain ⟨κ, hκ, hr⟩ := h.routine
  obtain ⟨w', hle, hσ, hκ'⟩ := C.attach o hm.store.scopes hκ
  rw [Eval.attach_eq, Eval.attach_eq, ← h.scope]
  refine .ok hle (hm.withScopes hle hσ) ⟨⟨C.next_eq hm.store.scopes, h.role, ?_⟩, rfl⟩
  exact ⟨C.receives κ, hκ', hr, fun _ => C.names_this κ hr.name⟩

theorem boundMethod_sim {f f' : Closure} (h : C.Methods w f f') (o : InstanceId) :
    C.Sim w s C.Same (Eval.boundMethod f o) (Eval.boundMethod f' o) :=
  sim_bind (attach_sim h o) fun _ _ _ _ hg => newFunction_sim hg.1

/-! ## Calls -/

/-- Bodies that are alike run in step. -/
def Bodies (C : Correspondence) (run run' : List Stmt → Eval Flow) : Prop :=
  ∀ w κ s b b', C.stands w κ s → C.Stmts κ b b' → C.Sim w s C.Same (run b) (run' b')

variable {run run' : List Stmt → Eval Flow}

theorem receiverOf_sim {f f' : Closure} (h : C.Functions w f f') (hi : f.role = .initializer) :
    C.Sim w s C.Same (Eval.receiverOf f) (Eval.receiverOf f') := by
  intro m m' hm
  obtain ⟨κ, hκ, -, hn⟩ := h.routine
  have ha := C.find hm.store.scopes hκ (hn hi)
  show C.Ends w s C.Same
    (Eval.lift (m.store.scopes.find f.scope (some 0) (.named "this" f.routine.name.line)) m)
    (Eval.lift (m'.store.scopes.find f'.scope (some 0) (.named "this" f'.routine.name.line)) m')
  rw [← h.scope]
  exact sim_lift ha m m' hm

theorem finish_sim {f f' : Closure} (h : C.Functions w f f') (flow : Flow) :
    C.Sim w s C.Same (Eval.finish f flow) (Eval.finish f' flow) := by
  unfold Eval.finish
  rw [← h.role]
  cases hr : f.role with
  | initializer => exact receiverOf_sim h hr
  | plain | method =>
    cases flow with
    | normal => exact sim_pure rfl
    | returned v => exact sim_pure rfl

/-- A call binds its parameters in a new scope and runs the body there. -/
theorem callFunction_sim (hrun : C.Bodies run run') {f f' : Closure} (h : C.Functions w f f')
    {args : List Value} (hargs : args.length = f.arity) :
    C.Sim w s C.Same (Eval.callFunction run f args) (Eval.callFunction run' f' args) := by
  intro m m' hm
  obtain ⟨κ, hκ, hr, -⟩ := h.routine
  obtain ⟨κ₀, he, hb⟩ := hr.body
  obtain ⟨w', hle, hσ, hκ₀⟩ := C.call hm.store.scopes hκ he hargs
  rw [Eval.callFunction_eq, Eval.callFunction_eq, ← h.scope, ← C.next_eq hm.store.scopes]
  rw [← C.next_eq hm.store.scopes] at hσ
  refine Ends.mono hle (sim_bind (sim_within (hrun _ _ _ _ _ hκ₀ hb)) (fun w'' flow flow' hle' hf => ?_)
    _ _ (hm.withScopes hle hσ))
  rw [show flow = flow' from hf]
  exact finish_sim (h.mono (C.le_trans hle hle')) flow'

theorem instantiate_ends (hrun : C.Bodies run run') {m m' : Machine} (hm : C.Machines w s m m')
    (cls : ClassId) {args : List Value} (hargs : m.store.arity? (.cls cls) = some args.length) :
    C.Ends w s C.Same (Eval.instantiate run cls args m) (Eval.instantiate run' cls args m') := by
  rw [Eval.instantiate_eq, Eval.instantiate_eq, ← hm.store.instances]
  have hst : C.Stores w (m.store.pushInstance cls) (m'.store.pushInstance cls) :=
    ⟨hm.store.scopes, hm.store.functionCount, hm.store.functions, hm.store.natives,
      hm.store.classCount, hm.store.classes, by simp only [Store.pushInstance, hm.store.instances]⟩
  suffices h : C.Sim w s C.Same _ _ from h _ _ (hm.withStore hst)
  have hmeth := hm.store.method? cls initializerName
  simp only [Store.arity?, Option.some.injEq] at hargs
  revert hmeth hargs
  generalize m.store.method? cls initializerName = f
  generalize m'.store.method? cls initializerName = f'
  intro hmeth hargs
  cases hmeth with
  | none => exact sim_pure rfl
  | @some f f' hf =>
    refine sim_bind (attach_sim hf _) fun w' g g' hle hg => ?_
    refine sim_bind (callFunction_sim hrun hg.1 ?_) fun _ _ _ _ _ => sim_pure rfl
    show args.length = g.routine.params.length
    rw [hg.2]
    exact hargs.symm

theorem callNative_sim (f : Native) {t t' : Token} (ht : C.token κ t t') (args : List Value) :
    C.Sim w s C.Same (Eval.callNative f t args) (Eval.callNative f t' args) := by
  cases f with
  | clock => exact readClock_sim
  | host n run =>
    have hshown : C.Sim w s C.Same (Eval.inspect fun st => args.map fun v => (v, st.text v))
        (Eval.inspect fun st => args.map fun v => (v, st.text v)) :=
      sim_inspect fun st st' hst => List.map_congr_left fun v _ => by rw [hst.text]
    refine sim_bind hshown fun w' shown shown' _ h => ?_
    rw [show shown = shown' from h]
    refine sim_liftAt fun f hf => C.fault_token ?_ ht
    cases hrun : run shown' with
    | ok v => rw [hrun] at hf; cases hf
    | error text => rw [hrun] at hf; cases hf; rfl

/-- Applying a value to arguments that were counted. -/
theorem apply_ends (hrun : C.Bodies run run') {m m' : Machine} (hm : C.Machines w s m m')
    {callee : Value} {t t' : Token} (ht : C.token κ t t') {args : List Value}
    (hargs : m.store.arity? callee = some args.length) :
    C.Ends w s C.Same (Eval.apply run callee t args m) (Eval.apply run' callee t' args m') := by
  cases callee with
  | function id =>
    rw [Eval.apply_function_eq, Eval.apply_function_eq]
    have hf := hm.store.functions id
    simp only [Store.arity?] at hargs
    revert hargs hf
    generalize m.store.functions[id]? = f
    generalize m'.store.functions[id]? = f'
    intro hargs hf
    cases hf with
    | none => exact sim_fail (C.fault_token rfl ht) m m' hm
    | some hf =>
      simp only [Option.map_some, Option.some.injEq] at hargs
      exact callFunction_sim hrun hf hargs.symm m m' hm
  | native id =>
    rw [Eval.apply_native_eq, Eval.apply_native_eq, ← hm.store.natives]
    cases m.store.natives[id]? with
    | none => exact sim_fail (C.fault_token rfl ht) m m' hm
    | some f => exact callNative_sim f ht args m m' hm
  | cls id => exact instantiate_ends hrun hm id hargs
  | nil | bool | number | string | object => exact sim_fail (C.fault_token rfl ht) m m' hm

theorem call_sim (hrun : C.Bodies run run') (callee : Value) {t t' : Token} (ht : C.token κ t t')
    (args : List Value) :
    C.Sim w s C.Same (Eval.call run callee t args) (Eval.call run' callee t' args) := by
  intro m m' hm
  rw [Eval.call_eq, Eval.call_eq, ← hm.store.arity?]
  cases ha : m.store.arity? callee with
  | none => exact sim_fail (C.fault_token rfl ht) m m' hm
  | some arity =>
    by_cases hn : args.length = arity
    · simp only [hn, ne_eq, not_true_eq_false, ↓reduceIte]
      refine ends_nested ht hm fun d => ?_
      have hd : C.Machines w s { m with depth := d } { m' with depth := d } :=
        ⟨hm.store, hm.scope, hm.scope', rfl, hm.out, hm.clock, hm.ticks⟩
      exact apply_ends hrun hd ht (by rw [hn]; exact ha)
    · simp only [ne_eq, hn, not_false_eq_true, ↓reduceIte]
      exact sim_fail (C.fault_token rfl ht) m m' hm

/-! ## Properties -/

theorem property_sim (id : InstanceId) {t t' : Token} (ht : C.token κ t t') :
    C.Sim w s C.Same (Eval.property id t) (Eval.property id t') := by
  have hl := C.lexeme_eq ht
  have hfield : C.Sim w s C.Same (Eval.inspect fun st => st.field? id t.lexeme)
      (Eval.inspect fun st => st.field? id t'.lexeme) :=
    sim_inspect fun st st' hst => by simp only [Same, Store.field?, hst.instances, hl]
  have hmethod : ∀ w', C.Sim w' s (fun w' f f' => Option.Rel (C.Methods w') f f')
      (Eval.inspect fun st => st.instances[id]?.bind fun o => st.method? o.cls t.lexeme)
      (Eval.inspect fun st => st.instances[id]?.bind fun o => st.method? o.cls t'.lexeme) := by
    refine fun w' => sim_inspect fun st st' hst => ?_
    simp only [hst.instances, hl]
    cases st'.instances[id]? with
    | none => exact .none
    | some o => exact hst.method? o.cls _
  refine sim_bind hfield fun w' v v' _ hv => ?_
  rw [show v = v' from hv]
  cases v' with
  | some v => exact sim_pure rfl
  | none =>
    refine sim_bind (hmethod w') fun w'' f f' _ hf => ?_
    cases hf with
    | some hf => exact boundMethod_sim hf id
    | none =>
      simp only [hl]
      exact sim_fail (C.fault_token rfl ht)

end Correspondence

end Treewalk
