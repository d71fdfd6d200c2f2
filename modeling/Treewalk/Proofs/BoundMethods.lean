import Treewalk.Proofs.Sequence
import Treewalk.Proofs.StaticDispatch

/-!
# Methods are bound before they get out

The tables of classes hold methods without an instance. No other place does: a function value
that a variable or a field holds, that is passed as an argument or that is a result, was declared
as a function, or it is a method in a scope that binds `this` to an instance (`Store.Bound`). So
it is after every unit and at every node that a unit comes to (`methods_stay_bound`).

A call of a class gives a new instance of that class, and a call of an initializer the instance
that it is bound to, whatever its body returns (`Eval.Called`).
-/

namespace Treewalk

open Resolver

/-! ## Functions with what they need -/

/-- What a method with this declaration is called as. -/
def Routine.role (r : Routine Stmt) : Role :=
  if r.name.lexeme = initializerName then .initializer else .method

/-- One of the programs that ran declares the function. -/
def DeclaresFunction (history : List Execution) (r : Routine Stmt) : Prop :=
  ∃ x ∈ history, ∃ around, x.program.Holds around (.function r)

/-- One of the programs that ran declares a class with the method. -/
def DeclaresMethod (history : List Execution) (r : Routine Stmt) : Prop :=
  ∃ x ∈ history, ∃ around cls superclass methods,
    x.program.Holds around (.classDecl cls superclass methods) ∧ r ∈ methods

namespace Store

/-- The scope itself binds `this`, to an instance of the store. -/
structure BindsThis (st : Store) (scope : ScopeId) (o : InstanceId) : Prop where
  value : st.scopes.value? scope "this" = some (.object o)
  lt_size : o < st.instances.size

/-- A function that was declared as one, or a method with its instance. -/
inductive Complete (history : List Execution) (st : Store) (f : Closure) : Prop
  | function : f.role = .plain → DeclaresFunction history f.routine → Complete history st f
  | method (o : InstanceId) : f.role = f.routine.role → DeclaresMethod history f.routine →
    st.BindsThis f.scope o → Complete history st f

/-- The value is no method without an instance. -/
def Bound (history : List Execution) (st : Store) : Value → Prop
  | .function id => ∃ f, st.functions[id]? = some f ∧ st.Complete history f
  | .nil | .bool _ | .number _ | .string _ | .native _ | .cls _ | .object _ => True

/-- No variable and no field holds a method without an instance. -/
structure AllBound (history : List Execution) (st : Store) : Prop where
  names : ∀ id name v, st.scopes.value? id name = some v → st.Bound history v
  fields : ∀ id name v, st.field? id name = some v → st.Bound history v

end Store

/-- What runs at the node passes a value on: the result of an expression, what a statement
returns, or an argument of a call. -/
inductive Node.Gives (now : Machine) : Node → Value → Machine → Prop
  | value {n : Nat} {e : Expr} {v : Value} {later : Machine} :
    Eval.eval n e now = .ok v later → Gives now (.expr e) v later
  | returned {n : Nat} {s : Stmt} {v : Value} {later : Machine} :
    Eval.exec n s now = .ok (.returned v) later → Gives now (.stmt s) v later
  | argument {n : Nat} {f : Expr} {paren : Token} {args : List Expr} {callee v : Value}
    {vs : List Value} {m later : Machine} : Eval.eval n f now = .ok callee m →
    Eval.evalAll (Eval.eval n) args m = .ok vs later → v ∈ vs →
    Gives now (.expr (.call f paren args)) v later

/-- What a call from `m` ends with. -/
structure Eval.Called (m : Machine) (callee v : Value) (later : Machine) : Prop where
  cls : ∀ c, callee = .cls c → ∃ o, v = .object o ∧ m.store.instances[o]? = none ∧
    ∃ fields, later.store.instances[o]? = some ⟨c, fields⟩
  initializer : ∀ id f, callee = .function id → m.store.functions[id]? = some f →
    f.role ≠ .plain → f.routine.name.lexeme = initializerName →
    ∃ o, v = .object o ∧ m.store.BindsThis f.scope o

/-! ## At home, all functions are complete -/

section

variable {history : List Execution} {H : Node → Machine → Prop} {m : Machine}
  (hm : m.Sound .spelled) (hh : m.store.Homed (programsOf history) H)
include hm hh

theorem Store.Homed.complete {id : FunctionId} {f : Closure}
    (hf : m.store.functions[id]? = some f) : m.store.Complete history f := by
  cases hh.functions id f hf with
  | declared hp hs _ hrole =>
    obtain ⟨x, hx, rfl⟩ := hp
    exact .function hrole ⟨x, hx, _, hs⟩
  | @bound g o hg hcopy hattached =>
    cases hg with
    | mk hp hs _ hmethod =>
      obtain ⟨x, hx, rfl⟩ := hp
      obtain ⟨name, htable⟩ := hmethod.table
      have hroutine : f.routine = g.routine := (congrArg Closure.routine hcopy :)
      have hrole : f.role = g.role := (congrArg Closure.role hcopy :)
      obtain ⟨_, hmem, hmade⟩ := Eval.mem_methodTable htable
      refine .method o ?_ ?_ ⟨hattached.scope.2, hm.store.values _ _ _ hattached.scope.2⟩
      · rw [hrole, hroutine, hmade, Routine.role]
      · exact ⟨x, hx, _, _, _, _, hs, hroutine ▸ hmem⟩

theorem Store.Homed.bound {v : Value} (hv : m.store.Has v) : m.store.Bound history v := by
  cases v with
  | function id =>
    have hf : m.store.functions[id]? = some m.store.functions[id] := Array.getElem?_eq_getElem hv
    exact ⟨_, hf, hh.complete hm hf⟩
  | nil | bool | number | string | native | cls | object => trivial

theorem Store.Homed.allBound : m.store.AllBound history := by
  refine ⟨fun id name v hv => hh.bound hm (hm.store.values id name v hv), fun id name v hv => ?_⟩
  obtain ⟨o, ho, hv⟩ := Option.bind_eq_some_iff.mp hv
  exact hh.bound hm (hm.store.fields id o ho name v hv)

end

/-! ## What runs from a node keeps them at home -/

namespace Eval

variable {α : Type} {U : Program → Prop} {H : Node → Machine → Prop} {P : Store → α → Prop}
  {m later : Machine}

/-- All moments count, since nothing is asked about them. -/
abbrev anytime : Node → Machine → Prop := fun _ _ => True

theorem calm_silent : Calm U anytime silent :=
  ⟨fun _ _ _ => trivial, fun _ _ _ _ _ => nofun⟩

theorem Stays.of_ok {x : Eval α} {a : α} (h : Stays U H P m x) (hx : x m = .ok a later) :
    m.Leads .spelled later ∧ later.store.Homed U H ∧ P later.store a := by
  unfold Stays at h
  rw [hx] at h
  cases h with | ok hl hh hp => exact ⟨hl, hh, hp⟩

theorem leads_exec (n : Nat) (b : List Stmt) (m : Machine) (hb : ∀ s ∈ b, s.Over .spelled)
    (hm : m.Sound .spelled) :
    Leads .spelled silent Store.HasFlow m (runAll (exec n) b) (runAll (exec n) b) := by
  have h := leads_program (w := silent) (fun _ _ _ h => h) n hm hb
  rwa [show execWatched silent n = exec n from funext (watched_eq n).2] at h

theorem Leads.of_ok {x : Eval α} {a : α} (h : Leads .spelled silent P m x x)
    (hx : x m = .ok a later) : m.Leads .spelled later ∧ P later.store a := by
  have hends := h.ends
  rw [hx] at hends
  cases hends with | ok hl hp => exact ⟨hl, hp⟩

theorem stays_eval (hU : ∀ p, U p → p.Over .spelled) (n : Nat) :
    (∀ e m, m.At U anytime (.expr e) → m.Sound .spelled → m.store.Homed U anytime →
      Stays U anytime Store.Has m (eval n e)) ∧
    ∀ s m, m.At U anytime (.stmt s) → m.Sound .spelled → m.store.Homed U anytime →
      Stays U anytime Store.HasFlow m (exec n s) := by
  have h := stays_evalWatched hU (calm_silent (U := U)) n
  rwa [show evalWatched silent n = eval n from funext (watched_eq n).1,
    show execWatched silent n = exec n from funext (watched_eq n).2] at h

/-! ## Calls -/

/-- A call that succeeds has run its callee one level deeper. -/
theorem call_ok {run : List Stmt → Eval Flow} {callee v : Value} {paren : Token}
    {args : List Value} (h : call run callee paren args m = .ok v later) :
    ∃ m', apply run callee paren args { m with depth := m.depth + 1 } = .ok v m' ∧
      later.store = m'.store := by
  obtain ⟨_, _, hread, h⟩ := bind_ok h
  cases hread
  cases harity : m.store.arity? callee with
  | none =>
    simp only [harity] at h
    cases h
  | some arity =>
    simp only [harity] at h
    split at h
    · cases h
    · rw [nested_eq] at h
      split at h
      · cases h
      · generalize apply run callee paren args { m with depth := m.depth + 1 } = r at h ⊢
        cases r with
        | error => cases h
        | ok v' m' =>
          cases h
          exact ⟨m', rfl, rfl⟩

/-- A class gives an instance that there was not before. -/
theorem instantiate_ok {n : Nat} (hm : m.Sound .spelled) {c : ClassId}
    (hc : m.store.Has (.cls c)) {args : List Value} (hargs : ∀ v ∈ args, m.store.Has v) {v : Value}
    (h : instantiate (runAll (exec n)) c args m = .ok v later) :
    v = .object m.store.instances.size ∧
      ∃ fields, later.store.instances[m.store.instances.size]? = some ⟨c, fields⟩ := by
  obtain ⟨o, m₁, ho, h⟩ := bind_ok h
  obtain ⟨h₁, hhas⟩ := (leads_newInstance hc).of_ok ho
  have hm₁ := h₁.sound hm
  cases ho
  have hnew : (m.store.pushInstance c).instances[m.store.instances.size]? = some ⟨c, .empty⟩ := by
    simp [Store.pushInstance]
  obtain ⟨_, _, hread, h⟩ := bind_ok h
  cases hread
  cases hinit : (m.store.pushInstance c).method? c initializerName with
  | none =>
    simp only [hinit] at h
    cases h
    exact ⟨rfl, .empty, hnew⟩
  | some init =>
    simp only [hinit] at h
    obtain ⟨f, m₃, hattach, h⟩ := bind_ok h
    obtain ⟨_, m₄, hcall, h⟩ := bind_ok h
    cases h
    obtain ⟨h₃, hf⟩ := (leads_attach hm₁ (hm₁.store.method hinit) hhas).of_ok hattach
    have hargs₃ : ∀ v ∈ args, m₃.store.Has v :=
      fun v hv => (hargs v hv).mono (h₁.trans h₃).grows
    obtain ⟨h₄, _⟩ := (leads_callFunction (leads_exec n) (h₃.sound hm₁) hf hargs₃).of_ok hcall
    obtain ⟨⟨c', fields⟩, hi, rfl, _⟩ := (h₃.trans h₄).grows.instances _ _ hnew
    exact ⟨rfl, fields, hi⟩

/-- An initializer gives the instance that it is bound to, whatever its body returns. -/
theorem callFunction_ok {n : Nat} (hm : m.Sound .spelled) {f : Closure}
    (hf : f.In .spelled m.store) (hrole : f.role = .initializer) {args : List Value}
    (hargs : ∀ v ∈ args, m.store.Has v) {o : InstanceId} (ho : m.store.BindsThis f.scope o)
    {v : Value} (h : callFunction (runAll (exec n)) f args m = .ok v later) : v = .object o := by
  have hleads := ((leads_callFunction (leads_exec n) hm hf hargs).of_ok h).1
  obtain ⟨scope, m₁, _, h⟩ := bind_ok h
  obtain ⟨_, m₂, _, h⟩ := bind_ok h
  obtain ⟨flow, m₃, _, h⟩ := bind_ok h
  rw [hrole] at h
  -- the machine that `this` is read in is the last one
  have hsame : after (receiverOf f m₃) = m₃ := after_lift _ m₃
  rw [show receiverOf f m₃ = .ok v later from h] at hsame
  obtain rfl : later = m₃ := hsame
  have hthis : later.store.scopes.value? f.scope "this" = some (.object o) :=
    Store.Steps.implicit hleads.steps (.inl rfl) ho.value
  have hget : later.store.scopes.getAt f.scope 0 (.named "this" f.routine.name.line) =
      .ok (.object o) := Scopes.getAt_of_ancestor? rfl hthis
  have hread : receiverOf f later = .ok (.object o) later := by
    unfold receiverOf
    rw [hget]
    rfl
  cases hread.symm.trans h
  rfl

theorem call_called {history : List Execution} {n : Nat} (hm : m.Sound .spelled)
    (hh : m.store.Homed (programsOf history) H) {callee : Value} (hcallee : m.store.Has callee)
    {paren : Token} {args : List Value} (hargs : ∀ v ∈ args, m.store.Has v) {v : Value}
    (h : call (runAll (exec n)) callee paren args m = .ok v later) : Called m callee v later := by
  obtain ⟨m', happly, hstore⟩ := call_ok h
  have hinside : Machine.Sound .spelled { m with depth := m.depth + 1 } := ⟨hm.store, hm.scope⟩
  refine ⟨?_, ?_⟩
  · rintro c rfl
    obtain ⟨rfl, fields, hi⟩ := instantiate_ok hinside hcallee hargs happly
    exact ⟨_, rfl, Array.getElem?_eq_none (Nat.le_refl _), fields, hstore ▸ hi⟩
  · rintro id f rfl hf hrole hname
    simp only [apply_function_eq, hf] at happly
    cases hh.complete hm hf with
    | function hplain _ => exact absurd hplain hrole
    | method o hmethod _ ho =>
      have hinit : f.role = .initializer := hmethod.trans (if_pos hname)
      exact ⟨o, callFunction_ok hinside (hm.store.functions id f hf) hinit hargs ho happly, ho⟩

end Eval

/-! ## Histories -/

theorem Machine.At.anytime {U : Program → Prop} {H : Node → Machine → Prop} {m : Machine}
    {node : Node} (h : m.At U H node) : m.At U Eval.anytime node := by
  cases node with
  | expr e =>
    obtain ⟨p, around, hp, he, hin⟩ := h
    exact ⟨p, around, hp, he, hin.mono (fun _ _ _ => trivial) .refl⟩
  | stmt s =>
    obtain ⟨p, around, hp, hs, hin⟩ := h
    exact ⟨p, around, hp, hs, hin.mono (fun _ _ _ => trivial) .refl⟩

/-- A machine in a history, at a node: sound, at the place of the node, and with all functions
and methods at home. -/
structure Machine.Placed (history : List Execution) (now : Machine) (node : Node) : Prop where
  at_node : now.At (programsOf history) Eval.anytime node
  sound : now.Sound .spelled
  homed : now.store.Homed (programsOf history) Eval.anytime

namespace Machine.Placed

variable {history : List Execution} {now later : Machine}
  (hU : ∀ p, programsOf history p → p.Over .spelled)
include hU

theorem of_eval {n : Nat} {e : Expr} {v : Value} (h : now.Placed history (.expr e))
    (hv : Eval.eval n e now = .ok v later) : now.Leads .spelled later ∧ later.Sound .spelled ∧
      later.store.Homed (programsOf history) Eval.anytime ∧ later.store.Has v := by
  obtain ⟨hl, hh, hhas⟩ := ((Eval.stays_eval hU n).1 e now h.at_node h.sound h.homed).of_ok hv
  exact ⟨hl, hl.sound h.sound, hh, hhas⟩

/-- The callee and the arguments of a call. -/
theorem of_evalAll {n : Nat} {f : Expr} {paren : Token} {args : List Expr} {callee : Value}
    {vs : List Value} {m : Machine} (h : now.Placed history (.expr (.call f paren args)))
    (hf : Eval.eval n f now = .ok callee m)
    (hvs : Eval.evalAll (Eval.eval n) args m = .ok vs later) :
    later.Sound .spelled ∧ later.store.Homed (programsOf history) Eval.anytime ∧
      later.store.Has callee ∧ ∀ v ∈ vs, later.store.Has v := by
  have hcallee : now.Placed history (.expr f) :=
    ⟨h.at_node.part (List.mem_cons_self ..), h.sound, h.homed⟩
  obtain ⟨hl, hm, hh, hhas⟩ := hcallee.of_eval hU hf
  have hargs : ∀ a ∈ args, m.At (programsOf history) Eval.anytime (.expr a) :=
    fun a ha => (h.at_node.part (List.mem_cons_of_mem _ ha)).mono hl
  obtain ⟨hl', hh', hvs'⟩ := (Eval.stays_evalAll (Eval.stays_eval hU n).1 hm hh hargs).of_ok hvs
  exact ⟨hl'.sound hm, hh', hhas.mono hl'.grows, hvs'⟩

/-- Nothing that runs at a node passes on a method without an instance. -/
theorem of_gives {node : Node} {v : Value} (h : now.Placed history node)
    (hv : node.Gives now v later) : later.store.AllBound history ∧ later.store.Bound history v := by
  cases hv with
  | value hv =>
    obtain ⟨_, hm, hh, hhas⟩ := h.of_eval hU hv
    exact ⟨hh.allBound hm, hh.bound hm hhas⟩
  | @returned n s v later hv =>
    obtain ⟨hl, hh, hhas⟩ := ((Eval.stays_eval hU n).2 s now h.at_node h.sound h.homed).of_ok hv
    have hm := hl.sound h.sound
    exact ⟨hh.allBound hm, hh.bound hm hhas⟩
  | argument hf hvs hmem =>
    obtain ⟨hm, hh, _, hhas⟩ := h.of_evalAll hU hf hvs
    exact ⟨hh.allBound hm, hh.bound hm (hhas _ hmem)⟩

theorem of_call {n : Nat} {f : Expr} {paren : Token} {args : List Expr} {v : Value}
    (h : now.Placed history (.expr (.call f paren args)))
    (hv : Eval.eval (n + 1) (.call f paren args) now = .ok v later) : ∃ callee m vs m',
      Eval.eval n f now = .ok callee m ∧ Eval.evalAll (Eval.eval n) args m = .ok vs m' ∧
      Eval.call (Eval.runAll (Eval.exec n)) callee paren vs m' = .ok v later ∧
      Eval.Called m' callee v later := by
  rw [Eval.eval_succ] at hv
  obtain ⟨callee, m, hf, hv⟩ := Eval.bind_ok hv
  obtain ⟨vs, m', hvs, hv⟩ := Eval.bind_ok hv
  obtain ⟨hm, hh, hcallee, hargs⟩ := h.of_evalAll hU hf hvs
  exact ⟨callee, m, vs, m', hf, hvs, hv, Eval.call_called hm hh hcallee hargs hv⟩

end Machine.Placed

theorem Ran.placed {out : Sink} {clock : Nat → Float} {runs : List Execution} {m : Machine}
    (h : Ran out clock runs m) {source : String} {read resolved : Program}
    (ha : Accepts source read resolved) {fuel : Nat} {node : Node} {now : Machine}
    (hv : Eval.Visits fuel resolved m node now) :
    now.Placed (⟨resolved, fuel, m⟩ :: runs) node := by
  obtain ⟨hat, hsound, hhomed⟩ :=
    Machine.Settled.homed_of_visits (x := ⟨resolved, fuel, m⟩) h.settled (h.run fuel ha).over hv
  exact ⟨hat.anytime, hsound, hhomed.congr (fun _ => id) (fun _ _ _ => trivial) .refl rfl rfl⟩

/-- After any units, and at every node that a further unit comes to, no variable and no field
holds a method without an instance, and what runs there passes none on as a result or an argument.
A call of a class gives a new instance of it, and a call of an initializer the instance that it
is bound to. -/
theorem methods_stay_bound {out : Sink} {clock : Nat → Float} {runs : List Execution} {m : Machine}
    (h : Ran out clock runs m) :
    m.store.AllBound runs ∧
    ∀ source read resolved, Accepts source read resolved →
    ∀ fuel node now, Eval.Visits fuel resolved m node now →
      let history := ⟨resolved, fuel, m⟩ :: runs
      now.store.AllBound history ∧
      (∀ v later, node.Gives now v later →
        later.store.AllBound history ∧ later.store.Bound history v) ∧
      ∀ f paren args, node = .expr (.call f paren args) →
      ∀ n v later, Eval.eval (n + 1) (.call f paren args) now = .ok v later → ∃ callee m' vs m'',
        Eval.eval n f now = .ok callee m' ∧ Eval.evalAll (Eval.eval n) args m' = .ok vs m'' ∧
        Eval.call (Eval.runAll (Eval.exec n)) callee paren vs m'' = .ok v later ∧
        Eval.Called m'' callee v later := by
  refine ⟨h.settled.homed.allBound h.settled.sound,
    fun source read resolved ha fuel node now hv => ?_⟩
  have hplaced := h.placed ha hv
  have hU := (h.run fuel ha).over
  refine ⟨hplaced.homed.allBound hplaced.sound,
    fun v later hgives => hplaced.of_gives hU hgives, ?_⟩
  rintro f paren args rfl n v later heval
  exact hplaced.of_call hU heval

/-- The value that an action ended with. -/
def Eval.value? {α : Type} : EStateM.Result Stop Machine α → Option α
  | .ok a _ => some a
  | .error _ _ => none

/-- An inherited initializer that returns its argument was stored by one unit, bound to an instance
of the subclass, and is called by another. -/
theorem methods_stay_bound_stored_initializer :
    let declaring := "class P \x7b init(x) \x7b this.x = x; return x; \x7d \x7d " ++
      "class Q < P \x7b\x7d var f = Q(true).init;"
    let call := Expr.call (.var ⟨⟨.identifier, "f", 1⟩, none⟩) ⟨.symbol .rightParen, ")", 1⟩
      [.literal .nil]
    let declared := (Program.ofTokens (scan declaring).1).1.resolve.1
    let start := Machine.start .unlimited fun _ => 0
    let m := Eval.after (Eval.interpret 20 declared start)
    let history := [⟨[.print call], 20, m⟩, ⟨declared, 20, start⟩]
    Accepts "print f(nil);" [.print call] [.print call] ∧
      Eval.Visits 20 [.print call] m (.expr call) m ∧ m.store.AllBound history ∧
      ∃ later, Eval.eval 19 call m = .ok (.object 0) later ∧ later.store.AllBound history ∧
        ∃ callee m', Eval.Called m' callee (.object 0) later := by
  intro declaring call declared start m history
  have hdeclaring : Accepts declaring (Program.ofTokens (scan declaring).1).1 declared :=
    accepts_of_faults (by decide +kernel)
  have hscan : scan "print f(nil);" = ([⟨.symbol .printWord, "print", 1⟩, ⟨.identifier, "f", 1⟩,
      ⟨.symbol .leftParen, "(", 1⟩, ⟨.symbol .nilWord, "nil", 1⟩, ⟨.symbol .rightParen, ")", 1⟩,
      ⟨.symbol .semicolon, ";", 1⟩, .endOfFile 1], []) := by
    decide +kernel
  have hcalling : Accepts "print f(nil);" [.print call] [.print call] := .of_tokens hscan rfl rfl
  have hresult : Eval.value? (Eval.eval 19 call m) = some (.object 0) ∧
      Eval.value? (Eval.runAll (Eval.exec 20) [.print call] m) = some .normal := by
    decide +kernel
  have hran : Ran .unlimited (fun _ => 0) [⟨declared, 20, start⟩] m := .run 20 .start hdeclaring
  clear_value m declared
  obtain ⟨_, hunit⟩ := methods_stay_bound hran
  have hv : Eval.Visits 20 [.print call] m (.expr call) m := by
    cases hrun : Eval.runAll (Eval.exec 20) [.print call] m with
    | error => simp [hrun, Eval.value?] at hresult
    | ok flow last =>
      refine .intro (fun watch hstop hpass => ⟨m, ?_⟩) hrun
      have hprint : watch (.stmt (.print call)) m = none := hpass _ _ nofun
      have heval : Eval.evalWatched watch 19 call m = .error .exhausted m := by
        rw [Eval.evalWatched, Eval.watched, hstop]
      have hexec : Eval.execWatched watch 20 (.print call) m = .error .exhausted m := by
        rw [Eval.execWatched, Eval.watched_of_none _ hprint]
        exact Eval.bind_of_error heval _
      exact Eval.bind_of_error hexec _
  obtain ⟨hbound, hgives, hcalls⟩ := hunit _ _ _ hcalling 20 _ m hv
  cases hcall : Eval.eval 19 call m with
  | error => simp [hcall, Eval.value?] at hresult
  | ok v later =>
    obtain rfl : v = .object 0 := by simpa [hcall, Eval.value?] using hresult.1
    obtain ⟨callee, _, _, m', _, _, _, hcalled⟩ := hcalls _ _ _ rfl 18 _ later hcall
    exact ⟨hcalling, hv, hbound, later, rfl, (hgives _ later (.value hcall)).1, callee, m', hcalled⟩

end Treewalk
