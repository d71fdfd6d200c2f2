import Treewalk.Proofs.Dispatch.Places
import Treewalk.Proofs.Lockstep.Objects

/-!
# Where functions and methods are at home

A node that runs stands somewhere in the text of a program, and the scope it runs in was made
for the bodies around it (`Store.Inside`): one scope for each block and each call, and around
the scope of a method's call the one that binds `this` for it, inside the scope that the
execution of the class declaration made. So it is for the bodies of all functions and methods
in the store (`Store.Homed`). The executions of class declarations are among the moments `H`
of the runs so far.

All of this is about what a store has for good, so it stays when the store changes in steps.
-/

namespace Treewalk

open Resolver

/-! ## Homes -/

/-- At an earlier time, in the machine `declared`, a class declaration with a superclass clause
was executed. The clause named the class `S`, and the store has the class that was made, with
the scope of `super` in which its methods were made. -/
structure Store.Derived (st : Store) (n : Token) (r : Reference) (ms : List (Routine Stmt))
    (declared : Machine) (S : ClassId) : Prop where
  denotes : Eval.lookUp r declared = .ok (.cls S) declared
  earlier : declared.store.Steps .spelled st
  cls : st.classes[declared.store.classes.size]? =
    some ⟨n.lexeme, some S, Eval.methodTable declared.store.scopes.next ms⟩
  parent : st.scopes.parent? declared.store.scopes.next = some declared.scope
  super : st.scopes.value? declared.store.scopes.next "super" = some (.cls S)

/-- At an earlier time the method `f` was bound to an instance, in the scope `b`. -/
def Store.Attached (st : Store) (f : Closure) (o : InstanceId) (b : ScopeId) : Prop :=
  ∃ before after : Machine, Eval.attach f o before = .ok { f with scope := b } after ∧
    after.store.Steps .spelled st

/-- The body of a routine, or the first statements of it. -/
structure Body.Begins (b : Body) (r : Routine Stmt) : Prop where
  params : b.params = r.params
  statements : b.statements <+: r.body

variable (U : Program → Prop) (H : Node → Machine → Prop)

/-- The scope that a class declaration, executed in the scope `s`, made its methods in. -/
inductive Store.MethodScope (st : Store) (n : Token) (ms : List (Routine Stmt)) (s : ScopeId) :
    Option Reference → ScopeId → Prop
  | base : MethodScope st n ms s none s
  | derived {r : Reference} {declared : Machine} {S : ClassId} :
    H (.stmt (.classDecl n (some r) ms)) declared → declared.scope = s →
    st.Derived n r ms declared S → MethodScope st n ms s (some r) declared.store.scopes.next

/-- A method of the class that a declaration, executed in the scope `s`, made. -/
structure Store.MethodOf (st : Store) (n : Token) (superclass : Option Reference)
    (ms : List (Routine Stmt)) (s : ScopeId) (f : Closure) : Prop where
  scope : st.MethodScope H n ms s superclass f.scope
  table : ∃ name, (Eval.methodTable f.scope ms).get? name = some f

/-- The scope is one that these bodies run in. -/
inductive Store.Inside (st : Store) : List Body → ScopeId → Prop
  | globals : Inside st [] Machine.globals
  | plain {b : Body} {around : List Body} {s t : ScopeId} : Inside st around s →
    b.superclass? = none → st.scopes.parent? t = some s → Inside st (b :: around) t
  | method {b : Body} {around : List Body} {n : Token} {superclass : Option Reference}
    {ms : List (Routine Stmt)} {s t a : ScopeId} {f : Closure} {o : InstanceId} :
    Inside st around s → b.owner = .method n superclass ms → b.Begins f.routine →
    st.MethodOf H n superclass ms s f → st.Attached f o t → st.scopes.parent? a = some t →
    Inside st (b :: around) a

/-- A method of a class, made in the scope of its declaration's execution. -/
inductive Store.Method (st : Store) (f : Closure) : Prop
  | mk {p : Program} {around : List Body} {n : Token} {superclass : Option Reference}
    {ms : List (Routine Stmt)} {s : ScopeId} : U p → p.Holds around (.classDecl n superclass ms) →
    st.Inside H around s → st.MethodOf H n superclass ms s f → Method st f

/-- A function that was declared, or a method that is bound to an instance. -/
inductive Store.Function (st : Store) (f : Closure) : Prop
  | declared {p : Program} {around : List Body} : U p → p.Holds around (.function f.routine) →
    st.Inside H around f.scope → f.role = .plain → Function st f
  | bound {g : Closure} {o : InstanceId} : st.Method U H g → f = { g with scope := f.scope } →
    st.Attached g o f.scope → Function st f

/-- All functions and methods of the store are at home. -/
structure Store.Homed (st : Store) : Prop where
  functions : ∀ (id : FunctionId) f, st.functions[id]? = some f → st.Function U H f
  methods : ∀ (id : ClassId) c, st.classes[id]? = some c →
    ∀ name f, c.methods.get? name = some f → st.Method U H f

/-- The node stands in one of the programs, and the machine is in a scope of the bodies around
it. -/
def Machine.At (m : Machine) : Node → Prop
  | .expr e => ∃ p around, U p ∧ p.HoldsExpr around e ∧ m.store.Inside H around m.scope
  | .stmt s => ∃ p around, U p ∧ p.Holds around s ∧ m.store.Inside H around m.scope

/-- So do the statements of a list, which ends the innermost body. -/
def Machine.AtAll (m : Machine) (l : List Stmt) : Prop :=
  ∃ p around, U p ∧ p.HoldsAll around l ∧ m.store.Inside H (extend around l) m.scope

/-! ## Homes stay -/

section

variable {U H} {U' : Program → Prop} {H' : Node → Machine → Prop} {st st' : Store}
  (hU : ∀ p, U p → U' p) (hH : ∀ node m, H node m → H' node m) (hs : st.Steps .spelled st')

include hs in
theorem Store.Steps.parent_eq {id p : ScopeId} (h : st.scopes.parent? id = some p) :
    st'.scopes.parent? id = some p :=
  ((Store.Steps.grows hs).scopes.parent id (Scopes.lt_next_of_parent? h)).trans h

include hs in
theorem Store.Steps.implicit {id : ScopeId} {name : String} {v : Value} (hname : Implicit name)
    (h : st.scopes.value? id name = some v) : st'.scopes.value? id name = some v :=
  Store.Steps.fixed hs (fun hn => hn hname) h

include hs in
theorem Store.Attached.mono {f : Closure} {o : InstanceId} {b : ScopeId} (h : st.Attached f o b) :
    st'.Attached f o b := by
  obtain ⟨before, after, hattach, hsteps⟩ := h
  exact ⟨before, after, hattach, hsteps.trans hs⟩

/-- The scope that binds `this` is inside the one of the method. -/
theorem Store.Attached.scope {f : Closure} {o : InstanceId} {b : ScopeId} (h : st.Attached f o b) :
    st.scopes.parent? b = some f.scope ∧ st.scopes.value? b "this" = some (.object o) := by
  obtain ⟨before, after, hattach, hsteps⟩ := h
  rw [Eval.attach_eq] at hattach
  obtain ⟨rfl, rfl⟩ : before.store.scopes.next = b ∧ _ = after := by simpa using hattach
  refine ⟨Store.Steps.parent_eq hsteps ?_, Store.Steps.implicit hsteps (.inl rfl) ?_⟩
  · simp [Scopes.parent?_push]
  · rw [Scopes.value?_define (by simp)]
    simp

include hs in
theorem Store.Derived.mono {n : Token} {r : Reference} {ms : List (Routine Stmt)}
    {declared : Machine} {S : ClassId} (h : st.Derived n r ms declared S) :
    st'.Derived n r ms declared S :=
  ⟨h.denotes, h.earlier.trans hs, (Store.Steps.grows hs).classes _ _ h.cls,
    Store.Steps.parent_eq hs h.parent, Store.Steps.implicit hs (.inr rfl) h.super⟩

include hH hs in
theorem Store.MethodScope.mono {n : Token} {ms : List (Routine Stmt)} {s k : ScopeId}
    {superclass : Option Reference} (h : st.MethodScope H n ms s superclass k) :
    st'.MethodScope H' n ms s superclass k := by
  cases h with
  | base => exact .base
  | derived hd hscope h => exact .derived (hH _ _ hd) hscope (h.mono hs)

/-- The methods that a declaration made are in its table. -/
theorem Store.MethodOf.of_table {n : Token} {ms : List (Routine Stmt)} {s k : ScopeId}
    {superclass : Option Reference} (h : st.MethodScope H n ms s superclass k) {name : String}
    {f : Closure} (hf : (Eval.methodTable k ms).get? name = some f) :
    st.MethodOf H n superclass ms s f := by
  obtain ⟨rfl, _⟩ := Eval.mem_methodTable hf
  exact ⟨h, name, hf⟩

include hH hs in
theorem Store.MethodOf.mono {n : Token} {superclass : Option Reference}
    {ms : List (Routine Stmt)} {s : ScopeId} {f : Closure} (h : st.MethodOf H n superclass ms s f) :
    st'.MethodOf H' n superclass ms s f :=
  ⟨h.scope.mono hH hs, h.table⟩

include hH hs in
theorem Store.Inside.mono {around : List Body} {s : ScopeId} (h : st.Inside H around s) :
    st'.Inside H' around s := by
  induction h with
  | globals => exact .globals
  | plain _ hb hp ih => exact .plain ih hb (Store.Steps.parent_eq hs hp)
  | method _ hb hr hf ht ha ih =>
    exact .method ih hb hr (hf.mono hH hs) (ht.mono hs) (Store.Steps.parent_eq hs ha)

include hU hH hs in
theorem Store.Method.mono {f : Closure} (h : st.Method U H f) : st'.Method U' H' f := by
  cases h with
  | mk hp hholds hin hf => exact .mk (hU _ hp) hholds (hin.mono hH hs) (hf.mono hH hs)

include hU hH hs in
theorem Store.Function.mono {f : Closure} (h : st.Function U H f) : st'.Function U' H' f := by
  cases h with
  | declared hp hholds hin hrole => exact .declared (hU _ hp) hholds (hin.mono hH hs) hrole
  | bound hg hf hb => exact .bound (hg.mono hU hH hs) hf (hb.mono hs)

include hU hH hs in
/-- It is enough to look at the functions and the classes that are new. -/
theorem Store.Homed.mono (h : st.Homed U H)
    (hf : ∀ (id : FunctionId) f, st'.functions[id]? = some f →
      st.functions[id]? = some f ∨ st'.Function U' H' f)
    (hc : ∀ (id : ClassId) c, st'.classes[id]? = some c → st.classes[id]? = some c ∨
      ∀ name f, c.methods.get? name = some f → st'.Method U' H' f) : st'.Homed U' H' := by
  refine ⟨fun id f hid => ?_, fun id c hid name f hname => ?_⟩
  · rcases hf id f hid with hid | hnew
    · exact (h.functions id f hid).mono hU hH hs
    · exact hnew
  · rcases hc id c hid with hid | hnew
    · exact (h.methods id c hid name f hname).mono hU hH hs
    · exact hnew name f hname

include hU hH hs in
/-- No function and no class was made. -/
theorem Store.Homed.congr (h : st.Homed U H) (hf : st'.functions = st.functions)
    (hc : st'.classes = st.classes) : st'.Homed U' H' :=
  h.mono hU hH hs (fun _ _ hid => .inl (hf ▸ hid)) fun _ _ hid => .inl (hc ▸ hid)

include hs in
theorem Store.Homed.pushFunction (h : st.Homed U H) {f : Closure}
    (hf : st'.functions = st.functions.push f) (hc : st'.classes = st.classes)
    (hhome : st'.Function U H f) : st'.Homed U H := by
  refine h.mono (fun _ => id) (fun _ _ => id) hs (fun id g hg => ?_) fun _ _ hid => .inl (hc ▸ hid)
  rcases getElem?_push_cases (hf ▸ hg) with ⟨_, rfl⟩ | hg
  · exact .inr hhome
  · exact .inl hg

include hs in
theorem Store.Homed.pushClass (h : st.Homed U H) {c : ClassInfo}
    (hf : st'.functions = st.functions) (hc : st'.classes = st.classes.push c)
    (hhome : ∀ name f, c.methods.get? name = some f → st'.Method U H f) : st'.Homed U H := by
  refine h.mono (fun _ => id) (fun _ _ => id) hs (fun _ _ hid => .inl (hf ▸ hid)) fun id d hd => ?_
  rcases getElem?_push_cases (hc ▸ hd) with ⟨_, rfl⟩ | hd
  · exact .inr hhome
  · exact .inl hd

theorem Store.Homed.method (h : st.Homed U H) {id : ClassId} {name : String} {f : Closure}
    (hf : st.method? id name = some f) : st.Method U H f := by
  obtain ⟨id', c, hc, hf⟩ := Store.exists_of_method? hf
  exact h.methods id' c hc name f hf

end

/-! ## Places of nodes -/

section

variable {U H} {m m' : Machine}

/-- A body of which less was run. -/
theorem Store.Inside.shorten {st : Store} {around : List Body} {l l' : List Stmt} {s : ScopeId}
    (h : st.Inside H (extend around (l ++ l')) s) : st.Inside H (extend around l) s := by
  cases around with
  | nil => exact h
  | cons b around =>
    cases h with
    | plain h hb hp => exact .plain h hb hp
    | method h hb hr hf ht ha =>
      refine .method h hb ⟨hr.params, .trans ?_ hr.statements⟩ hf ht ha
      exact ⟨l', List.append_assoc ..⟩

theorem Expr.Has.snoc {e a b : Expr} (h : e.Has a) (hb : b ∈ a.parts) : e.Has b := by
  induction h with
  | self => exact .part hb (.self b)
  | part hmem _ ih => exact .part hmem (ih hb)

namespace Machine

theorem At.mono {node : Node} (h : m.At U H node) (hl : m.Leads .spelled m') : m'.At U H node := by
  cases node with
  | expr e =>
    obtain ⟨p, around, hp, he, hin⟩ := h
    exact ⟨p, around, hp, he, hl.scope ▸ hin.mono (fun _ _ => id) hl.steps⟩
  | stmt s =>
    obtain ⟨p, around, hp, hs, hin⟩ := h
    exact ⟨p, around, hp, hs, hl.scope ▸ hin.mono (fun _ _ => id) hl.steps⟩

theorem AtAll.mono {l : List Stmt} (h : m.AtAll U H l) (hl : m.Leads .spelled m') :
    m'.AtAll U H l := by
  obtain ⟨p, around, hp, hholds, hin⟩ := h
  exact ⟨p, around, hp, hholds, hl.scope ▸ hin.mono (fun _ _ => id) hl.steps⟩

theorem At.part {e a : Expr} (h : m.At U H (.expr e)) (ha : a ∈ e.parts) : m.At U H (.expr a) := by
  obtain ⟨p, around, hp, ⟨s, hs, whole, hmem, hhas⟩, hin⟩ := h
  exact ⟨p, around, hp, ⟨s, hs, whole, hmem, hhas.snoc ha⟩, hin⟩

theorem At.expr {s : Stmt} {e : Expr} (h : m.At U H (.stmt s)) (he : e ∈ s.exprs) :
    m.At U H (.expr e) := by
  obtain ⟨p, around, hp, hs, hin⟩ := h
  exact ⟨p, around, hp, ⟨s, hs, e, he, .self e⟩, hin⟩

theorem At.branch {s t : Stmt} (h : m.At U H (.stmt s)) (ht : t ∈ s.branches) :
    m.At U H (.stmt t) := by
  obtain ⟨p, around, hp, hs, hin⟩ := h
  exact ⟨p, around, hp, hs.under ht, hin⟩

theorem AtAll.head {s : Stmt} {l : List Stmt} (h : m.AtAll U H (s :: l)) : m.At U H (.stmt s) := by
  obtain ⟨p, around, hp, hl, hin⟩ := h
  exact ⟨p, _, hp, hl.head, hin.shorten (l := [s])⟩

theorem AtAll.tail {s : Stmt} {l : List Stmt} (h : m.AtAll U H (s :: l)) : m.AtAll U H l := by
  obtain ⟨p, around, hp, hl, hin⟩ := h
  refine ⟨p, _, hp, hl.tail, ?_⟩
  rwa [extend_extend]

theorem At.expr_over (hU : ∀ p, U p → p.Over .spelled) {e : Expr} (h : m.At U H (.expr e)) :
    e.Over .spelled := by
  obtain ⟨p, around, hp, he, _⟩ := h
  exact (he.over (hU p hp)).1

theorem At.stmt_over (hU : ∀ p, U p → p.Over .spelled) {s : Stmt} (h : m.At U H (.stmt s)) :
    s.Over .spelled := by
  obtain ⟨p, around, hp, hs, _⟩ := h
  exact (hs.over (hU p hp)).1

/-- A block in a scope that was made for it. -/
theorem At.block {b : List Stmt} (h : m.At U H (.stmt (.block b))) {scope : ScopeId}
    (hparent : m.store.scopes.parent? scope = some m.scope) :
    Machine.AtAll U H { m with scope } b := by
  obtain ⟨p, around, hp, hs, hin⟩ := h
  exact ⟨p, _, hp, hs.body (List.mem_singleton_self _), .plain hin rfl hparent⟩

end Machine

/-- The body of a function in a scope that was made for a call of it. -/
theorem Store.Function.atAll {f : Closure} (h : m.store.Function U H f) {scope : ScopeId}
    (hparent : m.store.scopes.parent? scope = some f.scope) :
    Machine.AtAll U H { m with scope } f.routine.body := by
  cases h with
  | declared hp hs hin _ =>
    exact ⟨_, _, hp, hs.body (List.mem_singleton_self _), .plain hin rfl hparent⟩
  | bound hg hcopy hb =>
    cases hg with
    | mk hp hs hin hf =>
      rw [show f.routine = _ from congrArg Closure.routine hcopy]
      obtain ⟨name, htable⟩ := hf.table
      refine ⟨_, _, hp, hs.body (List.mem_map_of_mem (Eval.mem_methodTable htable).2.1), ?_⟩
      exact .method hin rfl ⟨rfl, List.prefix_rfl⟩ hf hb hparent

end

end Treewalk
