import Treewalk.Proofs.Dispatch.Runs

/-!
# Static dispatch of `super`

Units run one after the other on the same machine (`Ran`). Whenever one of them comes to
`super.name`, the expression stands in a method of a class with a superclass, possibly inside
blocks and functions of it. The search for the method starts at the class that the superclass
clause named when the declaration was executed, and what it finds is bound to the instance that
the method around was bound to (`super_dispatch_static`). Neither depends on the class of the
instance, on the way the method around was called, or on what the variable of the superclass
has become.
-/

namespace Treewalk

open Resolver

/-! ## Histories of units -/

/-- The run of a program from a machine. -/
structure Execution where
  program : Program
  fuel : Nat
  start : Machine

/-- The run comes to a node in the machine `now`. -/
def Execution.Visits (x : Execution) (node : Node) (now : Machine) : Prop :=
  Eval.Visits x.fuel x.program x.start node now

/-- The machines that accepted units lead to, each run to its end or to what stopped it, with
the runs, the latest first. -/
inductive Ran (out : Sink) (clock : Nat → Float) : List Execution → Machine → Prop
  | start : Ran out clock [] (.start out clock)
  | run {runs : List Execution} {m : Machine} {source : String} {read resolved : Program}
    (fuel : Nat) : Ran out clock runs m → Accepts source read resolved →
    Ran out clock (⟨resolved, fuel, m⟩ :: runs) (Eval.after (Eval.interpret fuel resolved m))

/-- The programs that ran. -/
def programsOf (runs : List Execution) (p : Program) : Prop :=
  ∃ x ∈ runs, x.program = p

/-- The nodes that the runs came to. -/
def momentsOf (runs : List Execution) (node : Node) (now : Machine) : Prop :=
  ∃ x ∈ runs, x.Visits node now

/-- Between runs the machine is in the globals, with all functions and methods at home. -/
structure Machine.Settled (runs : List Execution) (m : Machine) : Prop where
  sound : m.Sound .spelled
  homed : m.store.Homed (programsOf runs) (momentsOf runs)
  scope : m.scope = Machine.globals

section

variable {out : Sink} {clock : Nat → Float} {runs : List Execution} {x : Execution} {m : Machine}

theorem Ran.accepts (h : Ran out clock runs m) {p : Program} (hp : programsOf runs p) :
    ∃ source read, Accepts source read p := by
  induction h with
  | start =>
    obtain ⟨_, hmem, _⟩ := hp
    cases hmem
  | run fuel _ ha ih =>
    obtain ⟨x, hmem, rfl⟩ := hp
    rcases List.mem_cons.mp hmem with rfl | hmem
    · exact ⟨_, _, ha⟩
    · exact ih ⟨x, hmem, rfl⟩

variable (hx : x.start.Settled runs) (hU : ∀ p, programsOf (x :: runs) p → p.Over .spelled)
include hx hU

/-- A run under a watch that lets only moments of the history pass. -/
theorem Machine.Settled.stays {w : Watch}
    (hw : Eval.Calm (programsOf (x :: runs)) (momentsOf (x :: runs)) w) :
    Eval.Stays (programsOf (x :: runs)) (momentsOf (x :: runs)) Store.HasFlow x.start
      (Eval.runAll (Eval.execWatched w x.fuel) x.program) := by
  have hhomed : x.start.store.Homed (programsOf (x :: runs)) (momentsOf (x :: runs)) :=
    hx.homed.congr (fun _ ⟨y, hy, hp⟩ => ⟨y, List.mem_cons_of_mem _ hy, hp⟩)
      (fun _ _ ⟨y, hy, hv⟩ => ⟨y, List.mem_cons_of_mem _ hy, hv⟩) .refl rfl rfl
  exact Eval.stays_program hU hw x.fuel hx.sound hhomed hx.scope ⟨x, List.mem_cons_self, rfl⟩

/-- The machine after one more run. -/
theorem Machine.Settled.run :
    (Eval.after (Eval.interpret x.fuel x.program x.start)).Settled (x :: runs) := by
  classical
  -- the watch lets pass what the run comes to, so it does not disturb the run
  let w : Watch := fun node now => if x.Visits node now then none else some .exhausted
  have hw : Eval.Calm (programsOf (x :: runs)) (momentsOf (x :: runs)) w := by
    refine ⟨fun node now hnone => ⟨x, List.mem_cons_self, ?_⟩, fun node now _ _ _ halarm => ?_⟩
    · exact Classical.byContradiction fun hv => by simp [w, hv] at hnone
    · by_cases hv : x.Visits node now <;> simp [w, hv, Eval.alarm] at halarm
  have hsame : Eval.runAll (Eval.execWatched w x.fuel) x.program x.start =
      Eval.runAll (Eval.exec x.fuel) x.program x.start :=
    Eval.runAll_of_silent_visits fun node now hv => if_pos hv
  have hstays : Eval.Stayed _ _ _ _ _ := hx.stays hU hw
  rw [hsame] at hstays
  have hleads := (Eval.ends_exec hx.sound (hU _ ⟨x, List.mem_cons_self, rfl⟩) x.fuel).leads
  rw [Eval.interpret_eq, Eval.after_flushed]
  exact ⟨hleads.sound hx.sound, hstays.homed, hleads.scope.trans hx.scope⟩

/-- Every node that a run comes to is at its place, and functions and methods are at home. -/
theorem Machine.Settled.homed_of_visits {node : Node} {now : Machine} (hv : x.Visits node now) :
    now.At (programsOf (x :: runs)) (momentsOf (x :: runs)) node ∧ now.Sound .spelled ∧
      now.store.Homed (programsOf (x :: runs)) (momentsOf (x :: runs)) := by
  -- a watch that passes what the run comes to, and is alarmed elsewhere than at home
  refine Eval.Visits.of_unalarmed (P := fun node now => now.At (programsOf (x :: runs))
    (momentsOf (x :: runs)) node ∧ now.Sound .spelled ∧ now.store.Homed (programsOf (x :: runs))
    (momentsOf (x :: runs))) Eval.alarm (fun w hpass hcalm => ?_) hv
  refine Eval.Stayed.ne_alarm (hx.stays hU ⟨fun node now hnone => ?_, ?_⟩)
  · exact ⟨x, List.mem_cons_self, hpass node now hnone⟩
  · exact fun node now hat hsound hhomed => hcalm node now ⟨hat, hsound, hhomed⟩

theorem Machine.Settled.at_of_visits {node : Node} {now : Machine} (hv : x.Visits node now) :
    now.At (programsOf (x :: runs)) (momentsOf (x :: runs)) node ∧ now.Sound .spelled := by
  obtain ⟨hat, hsound, _⟩ := hx.homed_of_visits hU hv
  exact ⟨hat, hsound⟩

end

theorem Ran.over {out : Sink} {clock : Nat → Float} {runs : List Execution} {m : Machine}
    (h : Ran out clock runs m) (p : Program) (hp : programsOf runs p) : p.Over .spelled := by
  obtain ⟨_, _, ha⟩ := h.accepts hp
  exact ha.over

theorem Ran.settled {out : Sink} {clock : Nat → Float} {runs : List Execution} {m : Machine}
    (h : Ran out clock runs m) : m.Settled runs := by
  induction h with
  | start =>
    refine ⟨Machine.sound_start out clock, ⟨fun id f hf => ?_, fun id c hc => ?_⟩, rfl⟩
    · cases hf
    · cases hc
  | @run runs m source read resolved fuel hran ha ih =>
    exact Machine.Settled.run (x := ⟨resolved, fuel, m⟩) ih (hran.run fuel ha).over

/-! ## From a node to its class -/

section

variable {σ : Scopes} {id a : ScopeId} {d : Nat}

theorem Scopes.ancestor?_succ {p : ScopeId} (h : σ.ancestor? id d = some a)
    (hp : σ.parent? a = some p) : σ.ancestor? id (d + 1) = some p := by
  induction d generalizing id with
  | zero =>
    cases h
    simp [ancestor?, hp]
  | succ d ih =>
    obtain ⟨q, hq, h⟩ := Option.bind_eq_some_iff.mp h
    exact Option.bind_eq_some_iff.mpr ⟨q, hq, ih h⟩

theorem Scopes.getAt_of_ancestor? {t : Token} {v : Value} (h : σ.ancestor? id d = some a)
    (hv : σ.value? a t.lexeme = some v) : σ.getAt id d t = .ok v := by
  have howner : σ.ownerAt? id d t.lexeme = some a := by
    simp [ownerAt?, h, binds, hv]
  simp [getAt, valueOf, howner, hv]

end

/-- An expression that stands in a method of a class with a superclass, inside blocks and
functions `inner` of the method. -/
structure Program.InMethod (p : Program) (e : Expr) (inner : List Body) (body : Body) (cls : Token)
    (superclass : Reference) (methods : List (Routine Stmt)) : Prop where
  holds : ∃ outer, p.HoldsExpr (inner ++ body :: outer) e
  plain : ∀ b ∈ inner, b.superclass? = none
  owner : body.owner = .method cls (some superclass) methods

/-- The machine runs code that is `inner` scopes inside the body of a method, which was bound to
the receiver. -/
structure Machine.InCall (now : Machine) (inner : Nat) (body : Body) (method : Closure)
    (receiver : InstanceId) : Prop where
  routine : body.Begins method.routine
  bound : ∃ scope, now.store.scopes.ancestor? now.scope (inner + 1) = some scope ∧
    now.store.Attached method receiver scope

/-- How `super.name` is evaluated in the machine `now`: the method that is found from the class
`S` upward is bound to the receiver, and it is a fault exactly if there is none. -/
structure Eval.FoundFrom (now : Machine) (k : Reference) (name : Token) (S : ClassId)
    (receiver : InstanceId) : Prop where
  ends : ∃ result, now.store.Finds name.lexeme S result
  found : ∀ f, now.store.Finds name.lexeme S (some f) →
    ∃ bound later, boundMethod f receiver now = .ok bound later ∧
      ∀ n, eval (n + 1) (.inherited k name) now = .ok bound later
  missing : now.store.Finds name.lexeme S none → ∀ n, eval (n + 1) (.inherited k name) now =
    .error (.fault (.runtime name (.undefinedProperty name.lexeme))) now
  fails_iff : ∀ n, (∃ e later, eval (n + 1) (.inherited k name) now = .error e later) ↔
    now.store.Finds name.lexeme S none

/-- In the history, `super.name` was come to in the machine `now`. It stands in a method of a class
with a superclass; an execution of the declaration made the class, when the superclass clause
named the class `S`; the machine is in a call of one of its methods, bound to the receiver. The
method is then found from `S` and for this receiver. -/
def StaticDispatch (history : List Execution) (k : Reference) (name : Token) (now : Machine) :
    Prop :=
  ∃ unit ∈ history, ∃ inner body cls superclass methods,
    unit.program.InMethod (.inherited k name) inner body cls superclass methods ∧
  ∃ declaring ∈ history, ∃ declared S,
    declaring.Visits (.stmt (.classDecl cls (some superclass) methods)) declared ∧
    now.store.Derived cls superclass methods declared S ∧
  ∃ label method receiver,
    (Eval.methodTable declared.store.scopes.next methods).get? label = some method ∧
    now.InCall inner.length body method receiver ∧ Eval.FoundFrom now k name S receiver

variable {U : Program → Prop} {H : Node → Machine → Prop}

/-- The innermost method around a node is the one that is called there. -/
theorem Store.Inside.method_around {st : Store} {inner outer : List Body} {body : Body}
    {s : ScopeId} {n : Token} {superclass : Option Reference} {ms : List (Routine Stmt)}
    (h : st.Inside H (inner ++ body :: outer) s) (hinner : ∀ b ∈ inner, b.superclass? = none)
    (howner : body.owner = .method n superclass ms) :
    ∃ f o b home, st.scopes.ancestor? s (inner.length + 1) = some b ∧ body.Begins f.routine ∧
      st.MethodOf H n superclass ms home f ∧ st.Attached f o b := by
  -- each plain body on the way out has one scope
  induction inner generalizing s with
  | nil =>
    cases h with
    | plain _ hplain _ => simp [Body.superclass?, howner] at hplain
    | method _ howner' hbegins hf hb hs =>
      obtain ⟨rfl, rfl, rfl⟩ : _ = n ∧ _ = superclass ∧ _ = ms := by
        simpa using howner'.symm.trans howner
      exact ⟨_, _, _, _, by simp [Scopes.ancestor?, hs], hbegins, hf, hb⟩
  | cons b inner ih =>
    obtain ⟨hb, hinner⟩ := List.forall_mem_cons.mp hinner
    cases h with
    | plain h _ hparent =>
      obtain ⟨f, o, b, home, hancestor, h⟩ := ih h hinner
      exact ⟨f, o, b, home, Option.bind_eq_some_iff.mpr ⟨_, hparent, hancestor⟩, h⟩
    | method _ howner' _ _ _ _ => simp [Body.superclass?, howner'] at hb

theorem Eval.exists_boundMethod (f : Closure) (o : InstanceId) (m : Machine) :
    ∃ bound later, boundMethod f o m = .ok bound later :=
  ⟨_, _, rfl⟩

theorem Eval.inheritedMethod_of_some {t : Token} {c : ClassId} {m : Machine} {f : Closure}
    (h : m.store.method? c t.lexeme = some f) (o : InstanceId) :
    inheritedMethod t c o m = boundMethod f o m := by
  have hread : inspect (fun s => s.method? c t.lexeme) m = .ok (some f) m :=
    congrArg (EStateM.Result.ok · m) h
  rw [inheritedMethod, bind_of_ok hread]

theorem Eval.inheritedMethod_of_none {t : Token} {c : ClassId} {m : Machine}
    (h : m.store.method? c t.lexeme = none) (o : InstanceId) :
    inheritedMethod t c o m = .error (.fault (.runtime t (.undefinedProperty t.lexeme))) m := by
  have hread : inspect (fun s => s.method? c t.lexeme) m = .ok none m :=
    congrArg (EStateM.Result.ok · m) h
  rw [inheritedMethod, bind_of_ok hread]
  rfl

/-- `super.name` where the class and the instance are known. -/
theorem Eval.foundFrom_of_eval {now : Machine} (hm : now.Sound .spelled) {k : Reference}
    {name : Token} {S : ClassId} (hS : S < now.store.classes.size) {receiver : InstanceId}
    (heval : ∀ n, eval (n + 1) (.inherited k name) now = inheritedMethod name S receiver now) :
    FoundFrom now k name S receiver := by
  have hfinds := hm.store.finds name.lexeme hS
  cases hmethod : now.store.method? S name.lexeme with
  | some f =>
    rw [hmethod] at hfinds
    obtain ⟨bound, later, hbound⟩ := exists_boundMethod f receiver now
    have hok : ∀ n, eval (n + 1) (.inherited k name) now = .ok bound later :=
      fun n => (heval n).trans ((inheritedMethod_of_some hmethod receiver).trans hbound)
    refine ⟨⟨_, hfinds⟩, fun f' hf' => ?_, fun hnone => ?_,
      fun n => ⟨fun ⟨e, m', he⟩ => ?_, fun hnone => ?_⟩⟩
    · cases hfinds.unique hf'
      exact ⟨bound, later, hbound, hok⟩
    · cases hfinds.unique hnone
    · cases (hok n).symm.trans he
    · cases hfinds.unique hnone
  | none =>
    rw [hmethod] at hfinds
    have herror := fun n => (heval n).trans (inheritedMethod_of_none hmethod receiver)
    refine ⟨⟨_, hfinds⟩, fun f hf => ?_, fun _ => herror,
      fun n => ⟨fun _ => hfinds, fun _ => ⟨_, _, herror n⟩⟩⟩
    cases hfinds.unique hf

/-- At its place, `super.name` finds the class in the scope of the methods and the instance in
the scope that the method around was bound in. -/
theorem Machine.At.staticDispatch {history : List Execution} {now : Machine} {k : Reference}
    {name : Token} (hm : now.Sound .spelled)
    (hat : now.At (programsOf history) (momentsOf history) (.expr (.inherited k name)))
    (hprograms : ∀ p, programsOf history p → ∃ source read, Accepts source read p) :
    StaticDispatch history k name now := by
  obtain ⟨p, around, ⟨unit, hunit, rfl⟩, he, hin⟩ := hat
  obtain ⟨source, read, ha⟩ := hprograms _ ⟨unit, hunit, rfl⟩
  obtain ⟨inner, body, outer, cls, r, ms, rfl, hplain, howner, hlexeme, hdepth⟩ := ha.inherited he
  obtain ⟨f, o, b, home, hb, hbegins, hmethod, hattached⟩ := hin.method_around hplain howner
  obtain ⟨hscope, label, htable⟩ := hmethod
  generalize hk : f.scope = scope at hscope htable
  cases hscope with
  | derived hdeclared hhome hderived =>
    obtain ⟨declaring, hdeclaring, hvisits⟩ := hdeclared
    refine ⟨unit, hunit, inner, body, cls, r, ms, ⟨⟨outer, he⟩, hplain, howner⟩, declaring,
      hdeclaring, _, _, hvisits, hderived, label, f, o, htable, ⟨hbegins, b, hb, hattached⟩, ?_⟩
    have hancestor := Scopes.ancestor?_succ hb (hk ▸ hattached.scope.1)
    refine Eval.foundFrom_of_eval hm (hm.store.values _ _ _ hderived.super) fun n => ?_
    rw [Eval.eval_succ]
    refine Eval.superMethod_eq (d := inner.length + 1) name rfl hdepth ?_ ?_
    · exact Scopes.getAt_of_ancestor? hancestor (hlexeme ▸ hderived.super)
    · exact Scopes.getAt_of_ancestor? hb hattached.scope.2

/-- Whatever accepted units ran before, whenever an accepted unit comes to `super.name`, the
method is looked for from the class that the superclass clause around named when the class was
declared, and bound to the instance that the method around was bound to. -/
theorem super_dispatch_static {out : Sink} {clock : Nat → Float} {runs : List Execution}
    {m : Machine} (h : Ran out clock runs m) {source : String} {read resolved : Program}
    (ha : Accepts source read resolved) {fuel : Nat} {k : Reference} {name : Token} {now : Machine}
    (hv : Eval.Visits fuel resolved m (.expr (.inherited k name)) now) :
    StaticDispatch (⟨resolved, fuel, m⟩ :: runs) k name now := by
  have hran := h.run fuel ha
  obtain ⟨hat, hsound⟩ :=
    Machine.Settled.at_of_visits (x := ⟨resolved, fuel, m⟩) h.settled hran.over hv
  exact Machine.At.staticDispatch hsound hat fun _ hp => hran.accepts hp

/-- A function inside a method of `B` uses `super`. The method was bound to an instance of a
subclass, and when the function is called, another unit has changed what `A` names. -/
theorem super_dispatch_static_reassigned :
    let declaring := "class A \x7b m() \x7b return \"A\"; \x7d \x7d " ++
      "class B < A \x7b m() \x7b fun f() \x7b return super.m(); \x7d return f; \x7d \x7d " ++
      "class C < B \x7b\x7d var f = C().m();"
    let calling := "class X \x7b m() \x7b return \"X\"; \x7d \x7d A = X; print f();"
    let read := fun source => (Program.ofTokens (scan source).1).1
    let resolved := fun source => (read source).resolve.1
    let start := Machine.start .unlimited fun _ => 0
    let m := Eval.after (Eval.interpret 20 (resolved declaring) start)
    let atSuper : Watch := fun node _ => match node with
      | .expr (.inherited _ _) => some .exhausted
      | _ => none
    let printed := fun m : Machine => m.out.written.toList
    Accepts declaring (read declaring) (resolved declaring) ∧
      Accepts calling (read calling) (resolved calling) ∧
      printed (Eval.moment atSuper 20 (resolved calling) m) = [] ∧
      printed (Eval.moment Eval.silent 20 (resolved calling) m) = "A\n".toUTF8.toList ∧
      ∃ k name now, Eval.Visits 20 (resolved calling) m (.expr (.inherited k name)) now ∧
        StaticDispatch [⟨resolved calling, 20, m⟩, ⟨resolved declaring, 20, start⟩] k name now := by
  intro declaring calling read resolved start m atSuper printed
  have hdeclaring : Accepts declaring (read declaring) (resolved declaring) :=
    accepts_of_faults (by decide +kernel)
  have hcalling : Accepts calling (read calling) (resolved calling) :=
    accepts_of_faults (by decide +kernel)
  have hran : Ran .unlimited (fun _ => 0) [⟨resolved declaring, 20, start⟩] m :=
    .run 20 .start hdeclaring
  have hprinted : printed (Eval.moment atSuper 20 (resolved calling) m) = [] ∧
      printed (Eval.moment Eval.silent 20 (resolved calling) m) = "A\n".toUTF8.toList := by
    decide +kernel
  refine ⟨hdeclaring, hcalling, hprinted.1, hprinted.2, ?_⟩
  have hne : Eval.runAll (Eval.execWatched atSuper 20) (resolved calling) m ≠
      Eval.runAll (Eval.exec 20) (resolved calling) m := by
    clear_value printed
    rw [← Eval.runAll_silent]
    intro heq
    have hsame : printed (Eval.moment atSuper 20 (resolved calling) m) =
      printed (Eval.moment Eval.silent 20 (resolved calling) m) := by
      rw [Eval.moment, Eval.moment, heq]
    rw [hprinted.1, hprinted.2] at hsame
    exact absurd hsame (by decide +kernel)
  obtain ⟨node, now, hnode, hv⟩ := Eval.exists_visits hne
  cases node with
  | stmt s => exact absurd rfl hnode
  | expr e =>
    cases e with
    | inherited k name => exact ⟨k, name, now, hv, super_dispatch_static hran hcalling hv⟩
    | _ => exact absurd rfl hnode

end Treewalk
