import Treewalk.Proofs.Dispatch.Homes
import Treewalk.Proofs.Lockstep.Declarations
import Treewalk.Proofs.Moments

/-!
# Runs leave functions and methods at home

Nothing that a program does makes a function or a method that is not at home, and every node
that it comes to stands where the scope of the machine says. The moments `H` at which class
declarations are executed are those that a watch lets pass, and where a node is at its place the
watch raises no alarm (`Eval.stays_evalWatched`). That there is none in a run tells what holds
at all the nodes that the run comes to.
-/

namespace Treewalk

open Resolver

variable {U : Program → Prop} {H : Node → Machine → Prop}

namespace Eval

variable {α β : Type} {P : Store → α → Prop} {Q : Store → β → Prop} {m m' : Machine}

/-- A stop that no run ends with by itself. -/
def alarm : Stop := .fault (.lexical 0 .unterminatedString)

variable (U H) in
/-- How a run from `m` ends whose functions and methods are at home: they still are, `P` holds
of its result, and it did not end with the alarm. -/
inductive Stayed (P : Store → α → Prop) (m : Machine) : EStateM.Result Stop Machine α → Prop
  | ok {a : α} {m' : Machine} : m.Leads .spelled m' → m'.store.Homed U H → P m'.store a →
    Stayed P m (.ok a m')
  | error {e : Stop} {m' : Machine} : m.Leads .spelled m' → m'.store.Homed U H → e ≠ alarm →
    Stayed P m (.error e m')

variable (U H) in
def Stays (P : Store → α → Prop) (m : Machine) (x : Eval α) : Prop :=
  Stayed U H P m (x m)

theorem Stayed.homed {r : EStateM.Result Stop Machine α} (h : Stayed U H P m r) :
    (after r).store.Homed U H := by
  cases h with
  | ok _ hh _ => exact hh
  | error _ hh _ => exact hh

theorem Stayed.ne_alarm {r : EStateM.Result Stop Machine α} (h : Stayed U H P m r)
    (m' : Machine) : r ≠ .error alarm m' := by
  rintro rfl
  cases h with | error _ _ hne => exact hne rfl

theorem Stayed.of_leads {r : EStateM.Result Stop Machine α} (h : m.Leads .spelled m')
    (hr : Stayed U H P m' r) : Stayed U H P m r := by
  cases hr with
  | ok h' hh hp => exact .ok (h.trans h') hh hp
  | error h' hh hne => exact .error (h.trans h') hh hne

theorem Stays.bind {x : Eval α} {f : α → Eval β} (hm : m.Sound .spelled) (hx : Stays U H P m x)
    (hf : ∀ a m', m.Leads .spelled m' → m'.Sound .spelled → m'.store.Homed U H → P m'.store a →
      Stays U H Q m' (f a)) : Stays U H Q m (x >>= f) := by
  unfold Stays at hx ⊢
  generalize hr : x m = r at hx
  cases hx with
  | ok h hh hp =>
    rw [bind_of_ok hr]
    exact (hf _ _ h (h.sound hm) hh hp).of_leads h
  | error h hh hne =>
    rw [bind_of_error hr]
    exact .error h hh hne

/-- An action that is known to end in order, and leaves functions and methods at home. -/
theorem stays_of_ends {x : Eval α} (h : Leads .spelled silent P m x x)
    (hh : (after (x m)).store.Homed U H) : Stays U H P m x := by
  have hends := h.ends
  unfold Stays
  generalize x m = r at hends hh
  cases hends with
  | ok h hp => exact .ok h hh hp
  | error h he =>
    refine .error h hh ?_
    rintro rfl
    cases he with | watch hw => cases hw

/-- An action that makes no function and no class. -/
theorem stays_of_leads {x : Eval α} (hh : m.store.Homed U H) (h : Leads .spelled silent P m x x)
    (hf : (after (x m)).store.functions = m.store.functions)
    (hc : (after (x m)).store.classes = m.store.classes) : Stays U H P m x :=
  stays_of_ends h (hh.congr (fun _ => id) (fun _ _ => id) h.ends.leads.steps hf hc)

theorem stays_pure (hh : m.store.Homed U H) {a : α} (h : P m.store a) : Stays U H P m (pure a) :=
  .ok (.refl m) hh h

theorem stays_fail (hh : m.store.Homed U H) (t : Token) (f : RuntimeFault) :
    Stays U H P m (fail t f) :=
  .error (.refl m) hh nofun

theorem stays_exhausted (hh : m.store.Homed U H) : Stays U H P m exhausted :=
  .error (.refl m) hh nofun

/-! ## Actions that make no function and no class -/

theorem after_lift (x : Except Diagnostic α) (m : Machine) : after (lift x m) = m := by
  cases x <;> rfl

theorem after_liftAt (t : Token) (x : Except RuntimeFault α) (m : Machine) :
    after (liftAt t x m) = m := by
  cases x <;> rfl

section

variable (hm : m.Sound .spelled) (hh : m.store.Homed U H)
include hh

theorem stays_liftAt {t : Token} (ht : Token.Spelled t) {x : Except RuntimeFault α}
    (hx : ∀ a, x = .ok a → P m.store a) : Stays U H P m (liftAt t x) :=
  stays_of_leads hh (leads_liftAt ht hx) (by rw [after_liftAt]) (by rw [after_liftAt])

include hm in
theorem stays_lookUp {r : Reference} (ht : Token.Spelled r.name) :
    Stays U H Store.Has m (lookUp r) := by
  have hafter : after (lookUp r m) = m := after_lift _ m
  exact stays_of_leads hh (leads_lookUp hm ht) (by rw [hafter]) (by rw [hafter])

include hm in
theorem stays_getAt (scope : ScopeId) (d : Nat) {t : Token}
    (ht : Stop.At .spelled silent m.out (.fault (Scopes.undefined t))) :
    Stays U H Store.Has m (lift (m.store.scopes.getAt scope d t)) :=
  stays_of_leads hh (leads_valueOf hm _ ht) (by rw [after_lift]) (by rw [after_lift])

include hm in
theorem stays_receiverOf (f : Closure) : Stays U H Store.Has m (receiverOf f) :=
  stays_getAt hm hh _ _ (.this _)

theorem stays_assign {r : Reference} (ht : Vocabulary.spelled.Binds r.name) {v : Value}
    (hv : m.store.Has v) : Stays U H (fun _ _ => True) m (assign r v) := by
  have hsame : (after (assign r v m)).store.functions = m.store.functions ∧
      (after (assign r v m)).store.classes = m.store.classes := by
    rw [assign_eq r v rfl]
    split <;> exact ⟨rfl, rfl⟩
  exact stays_of_leads hh (leads_assign ht hv) hsame.1 hsame.2

include hm in
theorem stays_define {name : String} (hn : ¬ Implicit name) {v : Value} (hv : m.store.Has v) :
    Stays U H (fun _ _ => True) m (define name v) :=
  stays_of_leads hh (leads_define hm hn hv) rfl rfl

theorem stays_setField (id : InstanceId) (name : String) {v : Value} (hv : m.store.Has v) :
    Stays U H (fun _ _ => True) m (modifyStore (fun st => st.setField id name v)) :=
  stays_of_leads hh (leads_modifyStore (.field id name hv)) rfl rfl

theorem stays_printLine (text : String) : Stays U H (fun _ _ => True) m (printLine text) := by
  have hsame : (after (printLine text m)).store = m.store := by
    obtain ⟨store, scope, depth, out, clock, ticks⟩ := m
    simp only [printLine]
    split <;> rfl
  exact stays_of_leads hh (leads_printLine text) (by rw [hsame]) (by rw [hsame])

theorem stays_readClock : Stays U H Store.Has m readClock :=
  stays_of_leads hh leads_readClock rfl rfl

theorem stays_newInstance {c : ClassId} (h : c < m.store.classes.size) :
    Stays U H (fun st id => st.Has (.object id)) m (newInstance c) :=
  stays_of_leads hh (leads_newInstance h) rfl rfl

/-- A new scope binds nothing yet, and it knows its parent. -/
theorem stays_newScope {parent : ScopeId} (h : parent < m.store.scopes.next) :
    Stays U H (fun st id => st.Fresh id ∧ st.scopes.parent? id = some parent) m
      (newScope parent) := by
  have hstays : Stays U H Store.Fresh m (newScope parent) :=
    stays_of_leads hh (leads_newScope h) rfl rfl
  cases hstays with
  | ok hl hh' hfresh =>
    refine .ok hl hh' ⟨hfresh, ?_⟩
    simp [Store.pushScope, Scopes.parent?_push]

include hm in
theorem stays_defineAll {scope : ScopeId} (hscope : scope < m.store.scopes.next)
    {l : List (Token × Value)} (hl : ∀ b ∈ l, ¬ Implicit b.1.lexeme ∧ m.store.Has b.2) :
    Stays U H (fun _ _ => True) m (defineAll scope l) := by
  have hsame : (after (defineAll scope l m)).store.functions = m.store.functions ∧
      (after (defineAll scope l m)).store.classes = m.store.classes := by
    rw [defineAll_eq]
    exact ⟨rfl, rfl⟩
  exact stays_of_leads hh (leads_defineAll hm hscope hl) hsame.1 hsame.2

end

/-- Code that ran in another scope comes back to the one it was run from. -/
theorem stays_within {scope : ScopeId} {x : Eval α}
    (h : Stays U H P { m with scope } x) : Stays U H P m (within scope x) := by
  unfold Stays at h ⊢
  rw [within_eq]
  generalize x { m with scope } = r at h
  cases h with
  | ok h hh hp => exact .ok ⟨h.steps, rfl, h.out⟩ hh hp
  | error h hh hne => exact .error ⟨h.steps, rfl, h.out⟩ hh hne

theorem stays_nested (hh : m.store.Homed U H) (t : Token) {x : Eval α}
    (h : Stays U H P { m with depth := m.depth + 1 } x) : Stays U H P m (nested t x) := by
  unfold Stays at h ⊢
  rw [nested_eq]
  split
  · exact stays_fail hh t _
  · generalize x { m with depth := m.depth + 1 } = r at h
    cases h with
    | ok h hh hp => exact .ok ⟨h.steps, h.scope, h.out⟩ hh hp
    | error h hh hne => exact .error ⟨h.steps, h.scope, h.out⟩ hh hne

/-! ## Binding and declaring -/

/-- What binding a method to an instance makes of it. -/
theorem function_attach {f : Closure} (hf : m.store.Method U H f) (o : InstanceId) {g : Closure}
    (hs : m.store.Steps .spelled m'.store) (h : attach f o m = .ok g m') :
    m'.store.Function U H g := by
  have hg : g = { f with scope := g.scope } := by
    rw [attach_eq] at h
    obtain ⟨rfl, -⟩ : _ = g ∧ _ = m' := by simpa using h
    rfl
  refine .bound (o := o) (hf.mono (fun _ => id) (fun _ _ => id) hs) hg ?_
  exact ⟨m, m', hg ▸ h, .refl⟩

theorem stays_attach (hm : m.Sound .spelled) (hh : m.store.Homed U H) {f : Closure}
    (hf : m.store.Method U H f) (hin : f.In .spelled m.store) {o : InstanceId}
    (ho : m.store.Has (.object o)) :
    Stays U H (fun st g => g.In .spelled st ∧ st.Function U H g) m (attach f o) := by
  have hstays : Stays U H (Closure.In .spelled) m (attach f o) :=
    stays_of_leads hh (leads_attach hm hin ho) rfl rfl
  unfold Stays at hstays ⊢
  generalize hr : attach f o m = r at hstays
  cases hstays with
  | ok hl hh' hg => exact .ok hl hh' ⟨hg, function_attach hf o hl.steps hr⟩
  | error hl hh' hne => exact .error hl hh' hne

theorem stays_newFunction (hh : m.store.Homed U H) {f : Closure} (hf : f.In .spelled m.store)
    (hhome : m.store.Function U H f) : Stays U H Store.Has m (newFunction f) := by
  have hs : m.store.Steps .spelled (m.store.pushFunction f) := .single (.function hf)
  refine stays_of_ends (leads_newFunction hf) (hh.pushFunction hs rfl rfl ?_)
  exact hhome.mono (fun _ => id) (fun _ _ => id) hs

theorem stays_boundMethod (hm : m.Sound .spelled) (hh : m.store.Homed U H) {f : Closure}
    (hf : m.store.Method U H f) (hin : f.In .spelled m.store) {o : InstanceId}
    (ho : m.store.Has (.object o)) : Stays U H Store.Has m (boundMethod f o) :=
  .bind hm (stays_attach hm hh hf hin ho) fun _ _ _ _ hh' hg => stays_newFunction hh' hg.1 hg.2

/-- Something is read from the store and used. -/
theorem stays_inspect (f : Store → α) {k : α → Eval β} (h : Stays U H Q m (k (f m.store))) :
    Stays U H Q m (inspect f >>= k) := h

theorem stays_currentScope {k : ScopeId → Eval β} (h : Stays U H Q m (k m.scope)) :
    Stays U H Q m (currentScope >>= k) := h

theorem stays_property (hm : m.Sound .spelled) (hh : m.store.Homed U H) {o : InstanceId}
    (ho : m.store.Has (.object o)) (name : Token) :
    Stays U H Store.Has m (property o name) := by
  refine stays_inspect _ ?_
  cases hfield : m.store.field? o name.lexeme with
  | some v =>
    obtain ⟨i, hi, hv⟩ := Option.bind_eq_some_iff.mp hfield
    exact stays_pure hh (hm.store.fields o i hi _ v hv)
  | none =>
    refine stays_inspect _ ?_
    split
    · next f hf =>
      obtain ⟨i, _, hf⟩ := Option.bind_eq_some_iff.mp hf
      exact stays_boundMethod hm hh (hh.method hf) (hm.store.method hf) ho
    · exact stays_fail hh _ _

theorem stays_superMethod (hm : m.Sound .spelled) (hh : m.store.Homed U H) {keyword : Reference}
    (ht : Token.Spelled keyword.name) (name : Token) :
    Stays U H Store.Has m (superMethod keyword name) := by
  unfold superMethod
  dsimp only
  split
  · exact stays_fail hh _ _
  refine stays_currentScope (stays_inspect _ (.bind hm (stays_getAt hm hh _ _ (.token _ ht))
    fun c m₁ _ hm₁ hh₁ _ => ?_))
  split
  · split
    · exact stays_fail hh₁ _ _
    refine stays_inspect _ (.bind hm₁ (stays_getAt hm₁ hh₁ _ _ (.this _))
      fun o m₂ _ hm₂ hh₂ ho => ?_)
    split
    · refine stays_inspect _ ?_
      split
      · next f hf => exact stays_boundMethod hm₂ hh₂ (hh₂.method hf) (hm₂.store.method hf) ho
      · exact stays_fail hh₂ _ _
    · exact stays_fail hh₂ _ _
  · exact stays_fail hh₁ _ _

/-- A superclass clause either fails or names the class that its variable has. -/
theorem superclassOf_cases (r : Reference) (m : Machine) :
    (∃ e, superclassOf (some r) m = .error e m) ∨
      ∃ c, lookUp r m = .ok (.cls c) m ∧ superclassOf (some r) m = .ok (some c) m := by
  have hafter : after (lookUp r m) = m := after_lift _ m
  generalize hr : lookUp r m = result at hafter
  cases result with
  | error e m' =>
    obtain rfl : m' = m := hafter
    exact .inl ⟨e, bind_of_error hr _⟩
  | ok v m' =>
    obtain rfl : m' = m := hafter
    have hbind : superclassOf (some r) m' = _ := bind_of_ok hr _
    cases v with
    | cls c => exact .inr ⟨c, rfl, hbind⟩
    | nil | bool | number | string | function | native | object => exact .inl ⟨_, hbind⟩

/-- The store after the execution of a class declaration with a superclass. -/
theorem derived_declareOver (hm : m.Sound .spelled) {n : Token} {r : Reference}
    {ms : List (Routine Stmt)} {c : ClassId} (hc : lookUp r m = .ok (.cls c) m)
    (hs : m.store.Steps .spelled (after (declareOver n ms (some c) m)).store) :
    (after (declareOver n ms (some c) m)).store.Derived n r ms m c := by
  rw [declareOver_some n ms c rfl] at hs ⊢
  refine ⟨hc, hs, by simp [after], ?_, ?_⟩
  · simp [after, Scopes.parent?_push]
  · have hne : m.scope ≠ m.store.scopes.next := Nat.ne_of_lt hm.scope
    simp [after, Scopes.value?_define, Nat.lt_succ_of_lt hm.scope, hne]

theorem stays_declareClass (hm : m.Sound .spelled) (hh : m.store.Homed U H) {n : Token}
    {r : Option Reference} {ms : List (Routine Stmt)} (hat : m.At U H (.stmt (.classDecl n r ms)))
    (hover : Stmt.Over .spelled (.classDecl n r ms)) (hH : H (.stmt (.classDecl n r ms)) m) :
    Stays U H (fun _ _ => True) m (declareClass n r ms) := by
  have hleads := leads_declareClass (w := silent) hm hover
  obtain ⟨p, around, hp, hs, hin⟩ := hat
  refine stays_of_ends hleads ?_
  have hsteps := hleads.ends.leads.steps
  -- the scope of the declaration is said in the store that it leaves, like the new class
  replace hin := hin.mono (fun _ _ => id) hsteps
  rw [declareClass_eq] at hsteps hin ⊢
  cases r with
  | none =>
    exact hh.pushClass hsteps rfl rfl fun name f hf => .mk hp hs hin (.of_table .base hf)
  | some r =>
    rcases superclassOf_cases r m with ⟨e, he⟩ | ⟨c, hc, hsuper⟩
    · rw [bind_of_error he]
      exact hh
    · rw [bind_of_ok hsuper] at hsteps hin ⊢
      refine hh.pushClass hsteps rfl rfl fun name f hf => ?_
      exact .mk hp hs hin (.of_table (.derived hH rfl (derived_declareOver hm hc hsteps)) hf)

/-! ## Callables -/

section Callables

variable {run : List Stmt → Eval Flow} (hrun : ∀ b m, m.AtAll U H b → m.Sound .spelled →
  m.store.Homed U H → Stays U H Store.HasFlow m (run b))
include hrun

theorem stays_callFunction (hm : m.Sound .spelled) (hh : m.store.Homed U H) {f : Closure}
    (hf : f.In .spelled m.store) (hhome : m.store.Function U H f) {args : List Value}
    (hargs : ∀ v ∈ args, m.store.Has v) : Stays U H Store.Has m (callFunction run f args) := by
  refine .bind hm (stays_newScope hh hf.scope) fun scope m₁ h₁ hm₁ hh₁ hscope => ?_
  have hbinds : ∀ b ∈ f.routine.params.zip args, ¬ Implicit b.1.lexeme ∧ m₁.store.Has b.2 :=
    fun b hb => ⟨(hf.routine.params _ (List.of_mem_zip hb).1).name,
      (hargs _ (List.of_mem_zip hb).2).mono h₁.grows⟩
  refine .bind hm₁ (stays_defineAll hm₁ hh₁ hscope.1.lt_next hbinds) fun _ m₂ h₂ hm₂ hh₂ _ => ?_
  have hinside : Machine.Sound .spelled { m₂ with scope } :=
    ⟨hm₂.store, Nat.lt_of_lt_of_le hscope.1.lt_next h₂.grows.scopes.next⟩
  -- the new scope is inside that of the function, so the body is at home in it
  have hhome₂ : m₂.store.Function U H f :=
    hhome.mono (fun _ => id) (fun _ _ => id) (h₁.trans h₂).steps
  have hat := hhome₂.atAll (Store.Steps.parent_eq h₂.steps hscope.2)
  refine .bind hm₂ (stays_within (hrun _ _ hat hinside hh₂)) fun flow m₃ _ hm₃ hh₃ hflow => ?_
  split
  · exact stays_receiverOf hm₃ hh₃ f
  · exact stays_pure hh₃ hflow
  · exact stays_pure hh₃ trivial

theorem stays_instantiate (hm : m.Sound .spelled) (hh : m.store.Homed U H) {c : ClassId}
    (hc : m.store.Has (.cls c)) {args : List Value} (hargs : ∀ v ∈ args, m.store.Has v) :
    Stays U H Store.Has m (instantiate run c args) := by
  refine .bind hm (stays_newInstance hh hc) fun o m₁ h₁ hm₁ hh₁ ho => stays_inspect _ ?_
  cases hinit : m₁.store.method? c initializerName with
  | none => exact stays_pure hh₁ ho
  | some init =>
    refine .bind hm₁ (stays_attach hm₁ hh₁ (hh₁.method hinit) (hm₁.store.method hinit) ho)
      fun f m₂ h₂ hm₂ hh₂ hf => ?_
    have hargs₂ : ∀ v ∈ args, m₂.store.Has v :=
      fun v hv => (hargs v hv).mono (h₁.trans h₂).grows
    exact .bind hm₂ (stays_callFunction hrun hm₂ hh₂ hf.1 hf.2 hargs₂) fun _ _ h₃ _ hh₃ _ =>
      stays_pure hh₃ (ho.mono (h₂.trans h₃).grows)

theorem stays_apply (hm : m.Sound .spelled) (hh : m.store.Homed U H) {callee : Value}
    (hcallee : m.store.Has callee) (paren : Token) {args : List Value}
    (hargs : ∀ v ∈ args, m.store.Has v) :
    Stays U H Store.Has m (apply run callee paren args) := by
  cases callee with
  | function id =>
    refine stays_inspect _ ?_
    cases hf : m.store.functions[id]? with
    | some f =>
      exact stays_callFunction hrun hm hh (hm.store.functions id f hf) (hh.functions id f hf) hargs
    | none => exact stays_fail hh _ _
  | native id =>
    refine stays_inspect _ ?_
    cases hf : m.store.natives[id]? with
    | some f =>
      obtain rfl := hm.store.natives id f hf
      exact stays_readClock hh
    | none => exact stays_fail hh _ _
  | cls id => exact stays_instantiate hrun hm hh hcallee hargs
  | nil | bool | number | string | object => exact stays_fail hh _ _

theorem stays_call (hm : m.Sound .spelled) (hh : m.store.Homed U H) {callee : Value}
    (hcallee : m.store.Has callee) (paren : Token) {args : List Value}
    (hargs : ∀ v ∈ args, m.store.Has v) :
    Stays U H Store.Has m (call run callee paren args) := by
  refine stays_inspect _ ?_
  split
  · exact stays_fail hh _ _
  · split
    · exact stays_fail hh _ _
    · have hinside : Machine.Sound .spelled { m with depth := m.depth + 1 } := ⟨hm.store, hm.scope⟩
      exact stays_nested hh paren (stays_apply hrun hinside hh hcallee paren hargs)

end Callables

/-! ## Rules -/

section Rules

variable {ev : Expr → Eval Value} {ex : Stmt → Eval Flow}
  (hev : ∀ e m, m.At U H (.expr e) → m.Sound .spelled → m.store.Homed U H →
    Stays U H Store.Has m (ev e))
  (hex : ∀ s m, m.At U H (.stmt s) → m.Sound .spelled → m.store.Homed U H →
    Stays U H Store.HasFlow m (ex s))

include hev in
theorem stays_evalAll (hm : m.Sound .spelled) (hh : m.store.Homed U H) {es : List Expr}
    (h : ∀ e ∈ es, m.At U H (.expr e)) :
    Stays U H (fun st vs => ∀ v ∈ vs, st.Has v) m (evalAll ev es) := by
  induction es generalizing m with
  | nil => exact stays_pure hh (List.forall_mem_nil _)
  | cons e es ih =>
    obtain ⟨he, hes⟩ := List.forall_mem_cons.mp h
    refine .bind hm (hev e m he hm hh) fun v m₁ h₁ hm₁ hh₁ hv => ?_
    refine .bind hm₁ (ih hm₁ hh₁ fun e he => (hes e he).mono h₁) fun vs m₂ h₂ _ hh₂ hvs => ?_
    exact stays_pure hh₂ (List.forall_mem_cons.mpr ⟨hv.mono h₂.grows, hvs⟩)

include hev in
theorem stays_evalOption (hm : m.Sound .spelled) (hh : m.store.Homed U H) {e : Option Expr}
    (h : ∀ x ∈ e, m.At U H (.expr x)) : Stays U H Store.Has m (evalOption ev e) := by
  cases e with
  | none => exact stays_pure hh trivial
  | some e => exact hev e m (h e rfl) hm hh

include hex in
theorem stays_runAll (hm : m.Sound .spelled) (hh : m.store.Homed U H) {b : List Stmt}
    (h : m.AtAll U H b) : Stays U H Store.HasFlow m (runAll ex b) := by
  induction b generalizing m with
  | nil => exact stays_pure hh trivial
  | cons s b ih =>
    refine .bind hm (hex s m h.head hm hh) fun flow m₁ h₁ hm₁ hh₁ hflow => ?_
    cases flow with
    | normal => exact ih hm₁ hh₁ (h.tail.mono h₁)
    | returned v => exact stays_pure hh₁ hflow

/-- A loop comes back to its condition in the same scope. -/
theorem stays_whileTrue {c : Eval Value} {b : Eval Flow}
    (hc : ∀ m', m.Leads .spelled m' → m'.Sound .spelled → m'.store.Homed U H →
      Stays U H Store.Has m' c)
    (hb : ∀ m', m.Leads .spelled m' → m'.Sound .spelled → m'.store.Homed U H →
      Stays U H Store.HasFlow m' b) (n : Nat) {m' : Machine} (h : m.Leads .spelled m')
    (hm' : m'.Sound .spelled) (hh : m'.store.Homed U H) :
    Stays U H Store.HasFlow m' (whileTrue c b n) := by
  induction n generalizing m' with
  | zero => exact stays_exhausted hh
  | succ n ih =>
    refine .bind hm' (hc m' h hm' hh) fun v m₁ h₁ hm₁ hh₁ _ => ?_
    split
    · refine .bind hm₁ (hb m₁ (h.trans h₁) hm₁ hh₁) fun flow m₂ h₂ hm₂ hh₂ hflow => ?_
      cases flow with
      | normal => exact ih ((h.trans h₁).trans h₂) hm₂ hh₂
      | returned v => exact stays_pure hh₂ hflow
    · exact stays_pure hh₁ trivial

variable (hU : ∀ p, U p → p.Over .spelled)
include hU

include hev in
theorem stays_evalOver {run : List Stmt → Eval Flow}
    (hrun : ∀ b m, m.AtAll U H b → m.Sound .spelled → m.store.Homed U H →
      Stays U H Store.HasFlow m (run b))
    (hm : m.Sound .spelled) (hh : m.store.Homed U H) {e : Expr} (h : m.At U H (.expr e)) :
    Stays U H Store.Has m (evalOver ev run e) := by
  have hpart : ∀ a ∈ e.parts, ∀ m', m.Leads .spelled m' → m'.Sound .spelled →
      m'.store.Homed U H → Stays U H Store.Has m' (ev a) :=
    fun a ha m' hl hm' hh' => hev a m' ((h.part ha).mono hl) hm' hh'
  cases h.expr_over hU with
  | literal v => exact stays_pure hh (by cases v <;> trivial)
  | group he => exact hpart _ (by simp [Expr.parts]) m (.refl m) hm hh
  | unary ht he =>
    exact .bind hm (hpart _ (by simp [Expr.parts]) m (.refl m) hm hh) fun _ m' _ _ hh' _ =>
      stays_liftAt hh' ht fun _ hv => m'.store.has_unary hv
  | binary ht ha hb =>
    refine .bind hm (hpart _ (by simp [Expr.parts]) m (.refl m) hm hh) fun _ m₁ h₁ hm₁ hh₁ _ => ?_
    exact .bind hm₁ (hpart _ (by simp [Expr.parts]) m₁ h₁ hm₁ hh₁) fun _ m₂ _ _ hh₂ _ =>
      stays_liftAt hh₂ ht fun _ hv => m₂.store.has_binary hv
  | logical ht ha hb =>
    refine .bind hm (hpart _ (by simp [Expr.parts]) m (.refl m) hm hh) fun v m₁ h₁ hm₁ hh₁ hv => ?_
    split
    · exact stays_pure hh₁ hv
    · exact hpart _ (by simp [Expr.parts]) m₁ h₁ hm₁ hh₁
  | var ht => exact stays_lookUp hm hh ht.token
  | assign ht he =>
    refine .bind hm (hpart _ (by simp [Expr.parts]) m (.refl m) hm hh) fun v m₁ _ hm₁ hh₁ hv => ?_
    exact .bind hm₁ (stays_assign hh₁ ht hv) fun _ _ h₂ _ hh₂ _ =>
      stays_pure hh₂ (hv.mono h₂.grows)
  | call hf ht hargs =>
    refine .bind hm (hpart _ (by simp [Expr.parts]) m (.refl m) hm hh)
      fun f m₁ h₁ hm₁ hh₁ hcallee => ?_
    have hats : ∀ a ∈ _, m₁.At U H (.expr a) :=
      fun a ha => (h.part (List.mem_cons_of_mem _ ha)).mono h₁
    exact .bind hm₁ (stays_evalAll hev hm₁ hh₁ hats) fun vs m₂ h₂ hm₂ hh₂ hvs =>
      stays_call hrun hm₂ hh₂ (hcallee.mono h₂.grows) _ hvs
  | get ho ht =>
    refine .bind hm (hpart _ (by simp [Expr.parts]) m (.refl m) hm hh) fun v m₁ _ hm₁ hh₁ hv => ?_
    split
    · exact stays_property hm₁ hh₁ hv _
    · exact stays_fail hh₁ _ _
  | set ho ht he =>
    refine .bind hm (hpart _ (by simp [Expr.parts]) m (.refl m) hm hh) fun o m₁ h₁ hm₁ hh₁ _ => ?_
    split
    · refine .bind hm₁ (hpart _ (by simp [Expr.parts]) m₁ h₁ hm₁ hh₁)
        fun v m₂ _ hm₂ hh₂ hv => ?_
      exact .bind hm₂ (stays_setField hh₂ _ _ hv) fun _ _ h₃ _ hh₃ _ =>
        stays_pure hh₃ (hv.mono h₃.grows)
    · exact stays_fail hh₁ _ _
  | receiver ht => exact stays_lookUp hm hh ht
  | inherited ht hname => exact stays_superMethod hm hh ht _

include hev hex in
theorem stays_execOver (n : Nat) (hm : m.Sound .spelled) (hh : m.store.Homed U H) {s : Stmt}
    (h : m.At U H (.stmt s)) (hH : H (.stmt s) m) :
    Stays U H Store.HasFlow m (execOver ev ex n s) := by
  have hover := h.stmt_over hU
  have hexpr : ∀ e ∈ s.exprs, ∀ m', m.Leads .spelled m' → m'.Sound .spelled →
      m'.store.Homed U H → Stays U H Store.Has m' (ev e) :=
    fun e he m' hl hm' hh' => hev e m' ((h.expr he).mono hl) hm' hh'
  have hbranch : ∀ t ∈ s.branches, ∀ m', m.Leads .spelled m' → m'.Sound .spelled →
      m'.store.Homed U H → Stays U H Store.HasFlow m' (ex t) :=
    fun t ht m' hl hm' hh' => hex t m' ((h.branch ht).mono hl) hm' hh'
  cases s with
  | expression e =>
    exact .bind hm (hexpr e (List.mem_singleton_self e) m (.refl m) hm hh) fun _ _ _ _ hh' _ =>
      stays_pure hh' trivial
  | print e =>
    refine .bind hm (hexpr e (List.mem_singleton_self e) m (.refl m) hm hh)
      fun _ m₁ _ hm₁ hh₁ _ => stays_inspect _ ?_
    exact .bind hm₁ (stays_printLine hh₁ _) fun _ _ _ _ hh₂ _ => stays_pure hh₂ trivial
  | declare name e =>
    cases hover with
    | declare hn _ =>
      have hopt : ∀ x ∈ e, m.At U H (.expr x) := fun x hx => h.expr (Option.mem_toList.mpr hx)
      refine .bind hm (stays_evalOption hev hm hh hopt) fun _ m₁ _ hm₁ hh₁ hv => ?_
      exact .bind hm₁ (stays_define hm₁ hh₁ hn.name hv) fun _ _ _ _ hh₂ _ =>
        stays_pure hh₂ trivial
  | block b =>
    refine stays_currentScope (.bind hm (stays_newScope hh hm.scope)
      fun scope m₁ h₁ hm₁ hh₁ hscope => ?_)
    have hinside : Machine.Sound .spelled { m₁ with scope } := ⟨hm₁.store, hscope.1.lt_next⟩
    have hparent : m₁.store.scopes.parent? scope = some m₁.scope := h₁.scope ▸ hscope.2
    exact stays_within (stays_runAll hex hinside hh₁ ((h.mono h₁).block hparent))
  | branch c t a =>
    refine .bind hm (hexpr c (List.mem_singleton_self c) m (.refl m) hm hh)
      fun v m₁ h₁ hm₁ hh₁ _ => ?_
    split
    · exact hbranch t List.mem_cons_self m₁ h₁ hm₁ hh₁
    · cases a with
      | some a =>
        exact hbranch a (List.mem_cons_of_mem _ (List.mem_singleton_self a)) m₁ h₁ hm₁ hh₁
      | none => exact stays_pure hh₁ trivial
  | loop c b =>
    exact stays_whileTrue (hexpr c (List.mem_singleton_self c))
      (hbranch b (List.mem_singleton_self b)) n (.refl m) hm hh
  | function r =>
    have hr := hover.routine
    cases hover with
    | function hn _ _ =>
      obtain ⟨p, around, hp, hs, hin⟩ := h
      refine stays_currentScope (.bind hm (stays_newFunction hh ⟨hm.scope, hr⟩
        (.declared hp hs hin rfl)) fun f m₁ _ hm₁ hh₁ hf => ?_)
      exact .bind hm₁ (stays_define hm₁ hh₁ hn.name hf) fun _ _ _ _ hh₂ _ =>
        stays_pure hh₂ trivial
  | leave t e =>
    have hopt : ∀ x ∈ e, m.At U H (.expr x) := fun x hx => h.expr (Option.mem_toList.mpr hx)
    exact .bind hm (stays_evalOption hev hm hh hopt) fun _ _ _ _ hh' hv => stays_pure hh' hv
  | classDecl n r ms =>
    exact .bind hm (stays_declareClass hm hh h hover hH) fun _ _ _ _ hh' _ =>
      stays_pure hh' trivial

end Rules

/-! ## Watched runs -/

/-- The watch lets a moment pass only if it is one of `H`, and raises no alarm at a node that is
at its place. -/
structure Calm (U : Program → Prop) (H : Node → Machine → Prop) (w : Watch) : Prop where
  passes : ∀ node m, w node m = none → H node m
  calm : ∀ node m, m.At U H node → m.Sound .spelled → m.store.Homed U H → w node m ≠ some alarm

section

variable (hU : ∀ p, U p → p.Over .spelled) {w : Watch} (hw : Calm U H w)
include hw

theorem Stays.watched {node : Node} {x : Eval α} (hm : m.Sound .spelled)
    (hh : m.store.Homed U H) (h : m.At U H node) (hx : H node m → Stays U H P m x) :
    Stays U H P m (watched w node x) := by
  unfold Stays
  cases hstop : w node m with
  | none =>
    rw [watched_of_none x hstop]
    exact hx (hw.passes node m hstop)
  | some e =>
    rw [Eval.watched, hstop]
    refine .error (.refl m) hh ?_
    rintro rfl
    exact hw.calm node m h hm hh hstop

include hU

theorem stays_evalWatched (n : Nat) :
    (∀ e m, m.At U H (.expr e) → m.Sound .spelled → m.store.Homed U H →
      Stays U H Store.Has m (evalWatched w n e)) ∧
    ∀ s m, m.At U H (.stmt s) → m.Sound .spelled → m.store.Homed U H →
      Stays U H Store.HasFlow m (execWatched w n s) := by
  induction n with
  | zero =>
    refine ⟨fun e m _ _ hh => ?_, fun s m _ _ hh => ?_⟩
    · rw [evalWatched]
      exact stays_exhausted hh
    · rw [execWatched]
      exact stays_exhausted hh
  | succ n ih =>
    refine ⟨fun e m h hm hh => ?_, fun s m h hm hh => ?_⟩
    · rw [evalWatched]
      refine .watched hw hm hh h fun _ => ?_
      exact stays_evalOver ih.1 hU (fun b m hb hm hh => stays_runAll ih.2 hm hh hb) hm hh h
    · rw [execWatched]
      exact .watched hw hm hh h fun hH => stays_execOver ih.1 ih.2 hU n hm hh h hH

/-- One of the programs, run from the globals. -/
theorem stays_program (fuel : Nat) (hm : m.Sound .spelled) (hh : m.store.Homed U H)
    (hscope : m.scope = Machine.globals) {p : Program} (hp : U p) :
    Stays U H Store.HasFlow m (runAll (execWatched w fuel) p) :=
  stays_runAll (stays_evalWatched hU hw fuel).2 hm hh
    ⟨p, [], hp, p.holdsAll_top, hscope ▸ .globals⟩

end

end Eval

end Treewalk
