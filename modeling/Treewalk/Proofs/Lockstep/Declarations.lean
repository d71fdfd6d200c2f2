import Treewalk.Proofs.Lockstep.Objects

/-!
# Declarations in step

A function is made before its name is defined, and so is a class, but both see
their own name: the surroundings of their bodies hold from the definition on.
Making and defining are therefore one step here (`declareFunction_ends`,
`declareClass_sim`).
-/

namespace Treewalk

/-- Makes a function of the current scope and defines its name. -/
def Eval.declareFunction (r : Routine Stmt) : Eval Unit := do
  let f ← Eval.newFunction ⟨r, ← Eval.currentScope, .plain⟩
  Eval.define r.name.lexeme f

theorem Eval.declareFunction_eq (r : Routine Stmt) {m : Machine} {s : ScopeId} (h : m.scope = s) :
    Eval.declareFunction r m = .ok () { m with store := { m.store with
      scopes := m.store.scopes.define s r.name.lexeme (.function m.store.functions.size),
      functions := m.store.functions.push ⟨r, s, .plain⟩ } } := by
  subst h
  rfl

theorem Eval.execOver_function (ev : Expr → Eval Value) (ex : Stmt → Eval Flow) (n : Nat)
    (r : Routine Stmt) : Eval.execOver ev ex n (.function r) =
      Eval.declareFunction r >>= fun _ => pure .normal := rfl

/-- The rest of a class declaration, once the superclass is known. -/
def Eval.declareOver (n : Token) (ms : List (Routine Stmt)) (superclass : Option ClassId) :
    Eval Unit := do
  let scope ← Eval.methodScope superclass
  let cls ← Eval.newClass ⟨n.lexeme, superclass, Eval.methodTable scope ms⟩
  Eval.define n.lexeme cls

theorem Eval.declareClass_eq (n : Token) (r : Option Reference) (ms : List (Routine Stmt)) :
    Eval.declareClass n r ms = Eval.superclassOf r >>= Eval.declareOver n ms := rfl

theorem Eval.declareOver_none (n : Token) (ms : List (Routine Stmt)) {m : Machine} {s : ScopeId}
    (h : m.scope = s) :
    Eval.declareOver n ms none m = .ok () { m with store := { m.store with
      scopes := m.store.scopes.define s n.lexeme (.cls m.store.classes.size),
      classes := m.store.classes.push ⟨n.lexeme, none, Eval.methodTable s ms⟩ } } := by
  subst h
  rfl

theorem Eval.declareOver_some (n : Token) (ms : List (Routine Stmt)) (c : ClassId) {m : Machine}
    {s : ScopeId} (h : m.scope = s) :
    Eval.declareOver n ms (some c) m = .ok () { m with store := { m.store with
      scopes := ((m.store.scopes.push (some s)).define m.store.scopes.next "super"
        (.cls c)).define s n.lexeme (.cls m.store.classes.size),
      classes := m.store.classes.push
        ⟨n.lexeme, some c, Eval.methodTable m.store.scopes.next ms⟩ } } := by
  subst h
  rfl

/-- The method that `super` finds in a class, bound to an instance. -/
def Eval.inheritedMethod (t : Token) (c : ClassId) (o : InstanceId) : Eval Value := do
  match ← Eval.inspect fun s => s.method? c t.lexeme with
  | some found => Eval.boundMethod found o
  | none => Eval.fail t (.undefinedProperty t.lexeme)

/-- `super` between its class and the scope of `this`. -/
theorem Eval.superMethod_eq {k : Reference} (t : Token) {m : Machine} {s : ScopeId}
    (hs : m.scope = s) {d : Nat} (hd : k.depth = some (d + 1)) {c : ClassId} {o : InstanceId}
    (hc : m.store.scopes.getAt s (d + 1) k.name = .ok (.cls c))
    (ho : m.store.scopes.getAt s d (.named "this" k.name.line) = .ok (.object o)) :
    Eval.superMethod k t m = Eval.inheritedMethod t c o m := by
  subst hs
  rw [Eval.superMethod, hd]
  simp only [bind, EStateM.bind, Eval.currentScope, Eval.inspect, hc, ho, Eval.lift, pure,
    EStateM.pure]
  rfl

namespace Correspondence

variable {C : Correspondence} {w : C.World} {s : ScopeId} {κ κ' : C.Ctx}

theorem rel_methodTable {scope : ScopeId} (hκ : C.stands w κ scope) {ms ms' : List (Routine Stmt)}
    (h : List.Forall₂ (C.Routines (C.receives κ)) ms ms') :
    (Eval.methodTable scope ms).Rel (C.Methods w) (Eval.methodTable scope ms') := by
  -- the accumulated tables stay related from method to method
  suffices hacc : ∀ table table' : Bindings Closure, table.Rel (C.Methods w) table' →
      (ms.foldl (fun table r => table.insert r.name.lexeme ⟨r, scope,
        if r.name.lexeme = initializerName then Role.initializer else Role.method⟩) table).Rel
        (C.Methods w)
        (ms'.foldl (fun table r => table.insert r.name.lexeme ⟨r, scope,
          if r.name.lexeme = initializerName then Role.initializer else Role.method⟩) table')
    from hacc .empty .empty .nil
  induction h with
  | nil => exact fun _ _ ht => ht
  | @cons r r' ms ms' hr _ ih =>
    intro table table' ht
    refine ih _ _ ?_
    simp only [← C.lexeme_eq hr.name]
    exact ht.insert _ ⟨rfl, rfl, κ, hκ, hr⟩

theorem declareFunction_sim (hκ : C.stands w κ s) {r r' : Routine Stmt}
    (hd : C.declares κ r.name r'.name κ') (hr : C.Routines κ' r r') :
    C.Sim w s (fun w' _ _ => C.stands w' κ' s) (Eval.declareFunction r)
      (Eval.declareFunction r') := by
  intro m m' hm
  obtain ⟨w', hle, hσ, hκ'⟩ := C.define (.function m.store.functions.size) hm.store.scopes hκ hd
  have hst := hm.store.withScopes hle hσ
  rw [Eval.declareFunction_eq r hm.scope, Eval.declareFunction_eq r' hm.scope',
    ← hm.store.functionCount]
  refine .ok hle (hm.withStore ⟨hst.scopes, ?_, ?_, hst.natives, hst.classCount, hst.classes,
    hst.instances⟩) hκ'
  · rw [Array.size_push, Array.size_push, hm.store.functionCount]
  · exact rel_getElem?_push hst.functionCount hst.functions
      ⟨rfl, rfl, κ', hκ', hr, fun h => by cases h⟩

/-- The store after a class was made and defined, given what became of the scopes. -/
theorem Machines.pushClass {w' : C.World} {m m' : Machine} (hm : C.Machines w s m m')
    (hle : C.le w w') {σ σ' : Scopes} (hσ : C.scopes w' σ σ') {c c' : ClassInfo}
    (hc : C.Classes w' c c') :
    C.Machines w' s
      { m with store := { m.store with scopes := σ, classes := m.store.classes.push c } }
      { m' with store := { m'.store with scopes := σ', classes := m'.store.classes.push c' } } := by
  have hst := hm.store.withScopes hle hσ
  refine hm.withStore ⟨hσ, hst.functionCount, hst.functions, hst.natives, ?_, ?_, hst.instances⟩
  · rw [Array.size_push, Array.size_push, hm.store.classCount]
  · exact rel_getElem?_push hst.classCount hst.classes hc

theorem declareBase_sim (hκ : C.stands w κ s) {n n' : Token} (hn : C.token κ n n')
    (hd : C.declares κ n n' κ') {ms ms' : List (Routine Stmt)}
    (hms : List.Forall₂ (C.Routines (C.receives κ')) ms ms') :
    C.Sim w s (fun w' _ _ => C.stands w' κ' s) (Eval.declareClass n none ms)
      (Eval.declareClass n' none ms') := by
  intro m m' hm
  obtain ⟨w', hle, hσ, hκ'⟩ := C.define (.cls m.store.classes.size) hm.store.scopes hκ hd
  show C.Ends w s _ (Eval.declareOver n ms none m) (Eval.declareOver n' ms' none m')
  rw [Eval.declareOver_none n ms hm.scope, Eval.declareOver_none n' ms' hm.scope',
    ← hm.store.classCount]
  exact .ok hle (hm.pushClass hle hσ ⟨C.lexeme_eq hn, rfl, rel_methodTable hκ' hms⟩) hκ'

/-- A superclass clause names the same class in both runs. -/
theorem superclassOf_sim (hκ : C.stands w κ s) {r r' : Reference} (hr : C.Ref κ r r') :
    C.Sim w s (fun _ a b => a = b ∧ a ≠ none) (Eval.superclassOf (some r))
      (Eval.superclassOf (some r')) := by
  refine sim_bind (lookUp_sim hκ hr) fun w' v v' _ hv => ?_
  rw [show v = v' from hv]
  cases v' with
  | cls c => exact sim_pure ⟨rfl, Option.some_ne_none c⟩
  | nil | bool | number | string | function | native | object =>
    exact sim_fail (C.fault_superclass hr.2)

theorem declareDerived_sim (hκ : C.stands w κ s) {n n' : Token} (hn : C.token κ n n')
    {r r' : Reference} (hr : C.Ref κ r r') (hd : C.declares κ n n' κ') {ms ms' : List (Routine Stmt)}
    (hms : List.Forall₂ (C.Routines (C.receives (C.inherits κ'))) ms ms') :
    C.Sim w s (fun w' _ _ => C.stands w' κ' s) (Eval.declareClass n (some r) ms)
      (Eval.declareClass n' (some r') ms') := by
  rw [Eval.declareClass_eq, Eval.declareClass_eq]
  refine sim_bind (superclassOf_sim hκ hr) fun w₁ c c' hle₁ hc => ?_
  obtain ⟨rfl, hc⟩ := hc
  obtain ⟨c, rfl⟩ := Option.ne_none_iff_exists'.mp hc
  intro m m' hm
  obtain ⟨w', hle, hσ, hκ', hsuper⟩ := C.derive c (.cls m.store.classes.size) hm.store.scopes
    (C.stands_mono hle₁ hκ) hd
  rw [Eval.declareOver_some n ms c hm.scope, Eval.declareOver_some n' ms' c hm.scope',
    ← hm.store.classCount]
  refine .ok hle (hm.pushClass hle hσ ⟨C.lexeme_eq hn, rfl, ?_⟩) hκ'
  rw [← C.next_eq hm.store.scopes]
  exact rel_methodTable hsuper hms

/-- `super.name` once the class and the instance are known: the same method, bound to the
same instance. -/
theorem inheritedMethod_sim {t t' : Token} (ht : C.token κ t t') (c : ClassId) (o : InstanceId) :
    C.Sim w s C.Same (Eval.inheritedMethod t c o) (Eval.inheritedMethod t' c o) := by
  have hm : C.Sim w s (fun w' f f' => Option.Rel (C.Methods w') f f')
      (Eval.inspect fun st => st.method? c t.lexeme)
      (Eval.inspect fun st => st.method? c t'.lexeme) :=
    sim_inspect fun st st' hst => C.lexeme_eq ht ▸ hst.method? c t.lexeme
  refine sim_bind hm fun w₁ f f' _ hf => ?_
  cases hf with
  | some hf => exact boundMethod_sim hf o
  | none =>
    simp only [C.lexeme_eq ht]
    exact sim_fail (C.fault_token rfl ht)

/-- A `super` that is misplaced is so in both runs. -/
theorem misplaced_sim (hκ : C.stands w κ s) {k k' : Reference} (hk : C.Ref κ k k')
    (hf : C.fault (.runtime k.name .superOutsideClass) (.runtime k'.name .superOutsideClass))
    (hthis : ∀ d, k.depth = some (d + 1) →
      C.names κ (some d) (.named "this" k.name.line) (.named "this" k'.name.line))
    {t t' : Token} (ht : C.token κ t t') :
    C.Sim w s C.Same (Eval.superMethod k t) (Eval.superMethod k' t') := by
  have look : ∀ {w' d x x'}, C.le w w' → C.names κ (some d) x x' →
      C.Sim w' s (fun _ a b => Answers C.fault a b)
        (Eval.inspect fun st => st.scopes.getAt s d x)
        (Eval.inspect fun st => st.scopes.getAt s d x') := fun hle hx =>
    sim_inspect fun _ _ hst => C.find hst.scopes (C.stands_mono hle hκ) hx
  unfold Eval.superMethod
  rw [← hk.1]
  cases hd : k.depth with
  | none => exact sim_fail hf
  | some d =>
    refine sim_bind sim_currentScope fun w₁ a b hle₁ hab => ?_
    rw [hab.1, hab.2]
    refine sim_bind (look hle₁ (hd ▸ hk.2)) fun w₂ x x' hle₂ hx => ?_
    refine sim_bind (sim_lift hx) fun w₃ v v' hle₃ hv => ?_
    rw [show v = v' from hv]
    have h₁₃ := C.le_trans hle₁ (C.le_trans hle₂ hle₃)
    cases v' with
    | cls c =>
      cases d with
      | zero => exact sim_fail hf
      | succ d =>
        refine sim_bind (look h₁₃ (hthis d hd)) fun w₄ y y' _ hy => ?_
        refine sim_bind (sim_lift hy) fun w₅ u u' _ hu => ?_
        rw [show u = u' from hu]
        cases u' with
        | object o => exact inheritedMethod_sim ht c o
        | nil | bool | number | string | function | native | cls => exact sim_fail hf
    | nil | bool | number | string | function | native | object => exact sim_fail hf

/-- `super.name`: the same method, bound to the same instance. -/
theorem superMethod_sim (hκ : C.stands w κ s) {x : Expr} {k k' : Reference} {t t' : Token}
    (he : C.expr κ x (.inherited k' t')) (hx : C.reading.expr x = .inherited k t) :
    C.Sim w s C.Same (Eval.superMethod k t) (Eval.superMethod k' t') := by
  intro m m' hm
  have hparts := C.expr_parts he
  rw [hx] at hparts
  cases hparts with | inherited hk _ hthis ht =>
  rcases C.inherited hm.store.scopes hκ he hx with hf | ⟨d, c, o, hd, hc, ho⟩
  · exact misplaced_sim hκ hk hf hthis ht m m' hm
  · -- the other run finds the same class and instance
    have hc' := C.find hm.store.scopes hκ (hd ▸ hk.2)
    have ho' := C.find hm.store.scopes hκ (hthis d hd)
    rw [show m.store.scopes.find s (some (d + 1)) k.name = _ from hc] at hc'
    rw [show m.store.scopes.find s (some d) _ = _ from ho] at ho'
    rw [Eval.superMethod_eq t hm.scope hd hc ho,
      Eval.superMethod_eq t' hm.scope' (hk.1 ▸ hd) hc'.eq_ok ho'.eq_ok]
    exact inheritedMethod_sim ht c o m m' hm

end Correspondence

end Treewalk
