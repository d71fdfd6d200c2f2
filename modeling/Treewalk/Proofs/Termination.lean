import Treewalk.Proofs.Grammar.Sound
import Treewalk.Proofs.Moments
import Treewalk.Proofs.StoreGrowth

/-!
# Programs without loops terminate

A program in which no loop stands ends on a machine whose functions and methods have none
either, however its calls recurse: from some fuel on every run of it is the same, and it is
not one that the fuel stopped (`interpret_of_loopFree`).

`Eval.Halts` says so of actions that run at a given depth of calls. A rule halts if what it
contains does, by structural induction on the tree. A body that is called is no part of the
tree that calls it; but it runs one level deeper, and there are `maxDepth` levels.
-/

namespace Treewalk

/-! ## Trees without loops -/

mutual

/-- No loop stands in a statement, not even in the functions and methods it declares. -/
def Stmt.loopFree : Stmt → Bool
  | .expression _ | .print _ | .declare _ _ | .leave _ _ => true
  | .block b => Stmt.loopFreeAll b
  | .branch _ s none => s.loopFree
  | .branch _ s (some a) => s.loopFree && a.loopFree
  | .loop _ _ => false
  | .function ⟨_, _, b⟩ => Stmt.loopFreeAll b
  | .classDecl _ _ ms => Stmt.loopFreeMethods ms

def Stmt.loopFreeAll : List Stmt → Bool
  | [] => true
  | s :: b => s.loopFree && Stmt.loopFreeAll b

def Stmt.loopFreeMethods : List (Routine Stmt) → Bool
  | [] => true
  | ⟨_, _, b⟩ :: ms => Stmt.loopFreeAll b && Stmt.loopFreeMethods ms

end

def Routine.loopFree (r : Routine Stmt) : Bool :=
  Stmt.loopFreeAll r.body

theorem Stmt.loopFreeMethods_iff {ms : List (Routine Stmt)} :
    Stmt.loopFreeMethods ms ↔ ∀ r ∈ ms, r.loopFree := by
  induction ms with
  | nil => simp [Stmt.loopFreeMethods]
  | cons r ms ih => simp [Stmt.loopFreeMethods, Routine.loopFree, ih]

/-- The token is a word that a loop begins with. -/
def Token.beginsLoop (t : Token) : Bool :=
  t.Is .whileWord || t.Is .forWord

namespace Parser

/-- The statements of what a phrase is read as have no loops. -/
def Goal.loopFree : Goal → Bool
  | .binding s | .initializer (some s) | .statement _ s | .declaration _ s => s.loopFree
  | .declarations l => Stmt.loopFreeAll l
  | .routine r => r.loopFree
  | .methods ms => Stmt.loopFreeMethods ms
  | _ => true

theorem loopFree_forLoop (init : Option Stmt) (c e : Option Expr) (s : Stmt) :
    (Stmt.forLoop init c e s).loopFree = false := by
  cases init <;> cases e <;> simp [Stmt.forLoop, Stmt.loopFree, Stmt.loopFreeAll]

theorem beginsLoop_of_operator {i : Nat} {t : Token} {s : Symbol} (ht : t.Is s)
    (hs : s ∈ operators i) : t.beginsLoop = false := by
  have hloop : ∀ w ∈ [Symbol.whileWord, .forWord], w ∉ operators i := by
    unfold operators
    split <;> decide
  unfold Token.Is at ht
  simp only [Token.beginsLoop, Token.Is, ht, Kind.symbol.injEq, Bool.or_eq_false_iff,
    decide_eq_false_iff_not]
  exact ⟨fun h => hloop _ (by simp) (h ▸ hs), fun h => hloop _ (by simp) (h ▸ hs)⟩

theorem beginsLoop_of_atom {t : Token} {e : Expr} (h : atom? t = some e) :
    t.beginsLoop = false := by
  unfold atom? at h
  split at h <;> simp_all [Token.beginsLoop, Token.Is]

/-- A phrase is read without loops if no token of it begins one. -/
theorem Reads.loopFree_eq {g : Goal} {ts : List Token} (h : Reads g ts) :
    g.loopFree = ts.all fun t => !t.beginsLoop := by
  induction h with
  | link hop hs _ _ ih ih' => simp_all [Goal.loopFree, beginsLoop_of_operator hop hs]
  | sign hop hs _ ih =>
    unfold Token.Is at hop
    rcases List.mem_pair.mp hs with rfl | rfl <;>
      simp_all [Goal.loopFree, Token.beginsLoop, Token.Is]
  | atom h => simp [Goal.loopFree, beginsLoop_of_atom h]
  | loop hk => simp [Goal.loopFree, Stmt.loopFree, Token.beginsLoop, hk]
  | forLoop hk => simp [Goal.loopFree, loopFree_forLoop, Token.beginsLoop, hk]
  | _ =>
    simp_all [Goal.loopFree, Stmt.loopFree, Stmt.loopFreeAll, Stmt.loopFreeMethods,
      Routine.loopFree, Token.beginsLoop, Token.Is, Token.IsName]

end Parser

theorem Program.loopFree_of_ofTokens {tokens : List Token} {p : Program}
    (h : Program.ofTokens tokens = (p, [])) :
    Stmt.loopFreeAll p = (Program.tokens tokens).all fun t => !t.beginsLoop :=
  (Program.reads_of_ofTokens h).loopFree_eq

/-! ## Stores without loops -/

/-- No function and no method of the store has a loop in its declaration. -/
structure Store.LoopFree (s : Store) : Prop where
  functions : ∀ (id : FunctionId) f, s.functions[id]? = some f → f.routine.loopFree
  methods : ∀ (id : ClassId) c, s.classes[id]? = some c →
    ∀ name f, c.methods.get? name = some f → f.routine.loopFree

namespace Store.LoopFree

variable {s : Store} (hs : s.LoopFree)
include hs

/-- Only the functions and the classes count. -/
theorem congr {s' : Store} (hf : s'.functions = s.functions) (hc : s'.classes = s.classes) :
    s'.LoopFree :=
  ⟨hf ▸ hs.functions, hc ▸ hs.methods⟩

theorem pushFunction {f : Closure} (hf : f.routine.loopFree) : (s.pushFunction f).LoopFree := by
  refine ⟨fun id g hg => ?_, hs.methods⟩
  rcases getElem?_push_cases hg with ⟨_, rfl⟩ | hg
  · exact hf
  · exact hs.functions id g hg

theorem pushClass {c : ClassInfo}
    (hc : ∀ name f, c.methods.get? name = some f → f.routine.loopFree) :
    (s.pushClass c).LoopFree := by
  refine ⟨hs.functions, fun id d hd => ?_⟩
  rcases getElem?_push_cases hd with ⟨_, rfl⟩ | hd
  · exact hc
  · exact hs.methods id d hd

theorem method {id : ClassId} {name : String} {f : Closure} (h : s.method? id name = some f) :
    f.routine.loopFree := by
  obtain ⟨id', c, hc, hf⟩ := Store.exists_of_method? h
  exact hs.methods id' c hc name f hf

end Store.LoopFree

theorem Machine.loopFree_start (out : Sink) (clock : Nat → Float) :
    (Machine.start out clock).store.LoopFree := by
  refine ⟨fun _ _ hf => ?_, fun _ _ hc => ?_⟩
  · cases hf
  · cases hc

/-- A machine at a depth of calls, in whose store there are no loops. -/
structure Machine.LoopFreeAt (d : Nat) (m : Machine) : Prop where
  depth : m.depth = d
  store : m.store.LoopFree

namespace Eval

variable {α β : Type} {d : Nat} {P : α → Prop} {Q : β → Prop}

/-- How a run ends that neither the fuel stops nor leaves its depth. -/
inductive Halted (d : Nat) (P : α → Prop) : EStateM.Result Stop Machine α → Prop
  | ok {a : α} {m : Machine} : m.LoopFreeAt d → P a → Halted d P (.ok a m)
  | fault {e : Diagnostic} {m : Machine} : m.LoopFreeAt d → Halted d P (.error (.fault e) m)

/-- From some fuel on, an action always ends in the same way. -/
def Halts (d : Nat) (P : α → Prop) (x : Nat → Eval α) : Prop :=
  ∀ m : Machine, m.LoopFreeAt d →
    ∃ enough r, (∀ fuel, enough ≤ fuel → x fuel m = r) ∧ Halted d P r

/-! ## Actions -/

/-- An action that uses no fuel. -/
theorem halts_of_halted {x : Eval α} (h : ∀ m : Machine, m.LoopFreeAt d → Halted d P (x m)) :
    Halts d P fun _ => x :=
  fun m hm => ⟨0, x m, fun _ _ => rfl, h m hm⟩

theorem halts_pure {a : α} (h : P a) : Halts d P fun _ => pure a :=
  halts_of_halted fun _ hm => .ok hm h

/-- Once the first action has enough fuel, the second goes on from one machine only. -/
theorem Halts.bind {x : Nat → Eval α} {f : Nat → α → Eval β} (hx : Halts d P x)
    (hf : ∀ a, P a → Halts d Q fun n => f n a) : Halts d Q fun n => x n >>= f n := by
  intro m hm
  obtain ⟨enough, r, hr, hend⟩ := hx m hm
  cases hend with
  | @ok a m' hm' ha =>
    obtain ⟨enough', r', hr', hend'⟩ := hf a ha m' hm'
    refine ⟨max enough enough', r', fun fuel hfuel => ?_, hend'⟩
    obtain ⟨h, h'⟩ := Nat.max_le.mp hfuel
    exact (bind_of_ok (hr fuel h) _).trans (hr' fuel h')
  | @fault e m' hm' =>
    exact ⟨enough, _, fun fuel hfuel => bind_of_error (hr fuel hfuel) _, .fault hm'⟩

/-- One level of nesting takes one unit of fuel. -/
theorem Halts.succ {x y : Nat → Eval α} (hx : Halts d P x) (h : ∀ n, y (n + 1) = x n) :
    Halts d P y := by
  intro m hm
  obtain ⟨enough, r, hr, hend⟩ := hx m hm
  refine ⟨enough + 1, r, fun fuel hfuel => ?_, hend⟩
  cases fuel with
  | zero => exact absurd hfuel (Nat.not_succ_le_zero enough)
  | succ n => exact h n ▸ hr n (Nat.le_of_succ_le_succ hfuel)

theorem halts_inspect (f : Store → α) : Halts d (fun _ => True) fun _ => inspect f :=
  halts_of_halted fun _ hm => .ok hm trivial

/-- A function or method is looked up in the store. -/
theorem halts_found {f : Store → Option Closure}
    (h : ∀ s : Store, s.LoopFree → ∀ g, f s = some g → g.routine.loopFree) :
    Halts d (fun found => ∀ g, found = some g → g.routine.loopFree) fun _ => inspect f :=
  halts_of_halted fun m hm => .ok hm (h m.store hm.store)

theorem halts_currentScope : Halts d (fun _ => True) fun _ => currentScope :=
  halts_of_halted fun _ hm => .ok hm trivial

theorem halts_fail (t : Token) (f : RuntimeFault) : Halts d P fun _ => fail t f :=
  halts_of_halted fun _ hm => .fault hm

theorem halts_lift {x : Except Diagnostic α} : Halts d (fun _ => True) fun _ => lift x := by
  cases x with
  | ok a => exact halts_pure trivial
  | error e => exact halts_of_halted fun _ hm => .fault hm

theorem halts_liftAt (t : Token) (x : Except RuntimeFault α) :
    Halts d (fun _ => True) fun _ => liftAt t x := by
  cases x with
  | ok a => exact halts_pure trivial
  | error f => exact halts_fail t f

/-- A change of the scopes, the natives or the instances. -/
theorem halts_modifyStore {f : Store → Store} (hf : ∀ s, (f s).functions = s.functions)
    (hc : ∀ s, (f s).classes = s.classes) : Halts d (fun _ => True) fun _ => modifyStore f :=
  halts_of_halted fun _ hm => .ok ⟨hm.depth, hm.store.congr (hf _) (hc _)⟩ trivial

theorem halts_newScope (parent : ScopeId) : Halts d (fun _ => True) fun _ => newScope parent :=
  halts_of_halted fun _ hm => .ok ⟨hm.depth, hm.store.congr rfl rfl⟩ trivial

theorem halts_newInstance (c : ClassId) : Halts d (fun _ => True) fun _ => newInstance c :=
  halts_of_halted fun _ hm => .ok ⟨hm.depth, hm.store.congr rfl rfl⟩ trivial

theorem halts_newFunction {f : Closure} (h : f.routine.loopFree) :
    Halts d (fun _ => True) fun _ => newFunction f :=
  halts_of_halted fun _ hm => .ok ⟨hm.depth, hm.store.pushFunction h⟩ trivial

theorem halts_newClass {c : ClassInfo}
    (h : ∀ name f, c.methods.get? name = some f → f.routine.loopFree) :
    Halts d (fun _ => True) fun _ => newClass c :=
  halts_of_halted fun _ hm => .ok ⟨hm.depth, hm.store.pushClass h⟩ trivial

theorem halts_define (name : String) (v : Value) : Halts d (fun _ => True) fun _ => define name v :=
  halts_of_halted fun _ hm => .ok ⟨hm.depth, hm.store.congr rfl rfl⟩ trivial

theorem halts_lookUp (ref : Reference) : Halts d (fun _ => True) fun _ => lookUp ref :=
  fun m hm => halts_lift m hm

theorem halts_assign (ref : Reference) (v : Value) :
    Halts d (fun _ => True) fun _ => assign ref v := by
  refine halts_of_halted fun m hm => ?_
  rw [assign_eq ref v rfl]
  split
  · exact .ok ⟨hm.depth, hm.store.congr rfl rfl⟩ trivial
  · exact .fault hm

theorem halts_printLine (text : String) : Halts d (fun _ => True) fun _ => printLine text := by
  refine halts_of_halted fun ⟨store, scope, depth, out, clock, ticks⟩ hm => ?_
  simp only [printLine]
  split
  · exact .ok ⟨hm.depth, hm.store⟩ trivial
  · exact .fault ⟨hm.depth, hm.store⟩

theorem halts_readClock : Halts d (fun _ => True) fun _ => readClock :=
  halts_of_halted fun _ hm => .ok ⟨hm.depth, hm.store⟩ trivial

/-- An action between two changes of the machine. -/
theorem Halts.between {d' : Nat} {x y : Nat → Eval α} (hx : Halts d' P x) {m m' : Machine}
    {back : Machine → Machine} (h : ∀ n, y n m = mapMachine back (x n m')) (hm' : m'.LoopFreeAt d')
    (hback : ∀ m, m.LoopFreeAt d' → (back m).LoopFreeAt d) :
    ∃ enough r, (∀ fuel, enough ≤ fuel → y fuel m = r) ∧ Halted d P r := by
  obtain ⟨enough, r, hr, hend⟩ := hx m' hm'
  refine ⟨enough, mapMachine back r, fun fuel hfuel => by rw [h, hr fuel hfuel], ?_⟩
  cases hend with
  | ok hm' ha => exact .ok (hback _ hm') ha
  | fault hm' => exact .fault (hback _ hm')

theorem halts_within {x : Nat → Eval α} (scope : ScopeId) (hx : Halts d P x) :
    Halts d P fun n => within scope (x n) :=
  fun m hm => hx.between (fun n => within_eq scope (x n) m) ⟨hm.depth, hm.store⟩
    fun _ hm' => ⟨hm'.depth, hm'.store⟩

/-- A call runs one level deeper, or it fails at once. -/
theorem halts_nested {x : Nat → Eval α} (t : Token) (hx : d < maxDepth → Halts (d + 1) P x) :
    Halts d P fun n => nested t (x n) := by
  intro m hm
  obtain rfl := hm.depth
  by_cases hd : maxDepth ≤ m.depth
  · have hfail : ∀ n, nested t (x n) m = fail t .stackOverflow m := fun n => by
      rw [nested_eq, if_pos hd]
    exact ⟨0, _, fun fuel _ => hfail fuel, .fault hm⟩
  · have hdeeper : ∀ n, nested t (x n) m = mapMachine (fun m' => { m' with depth := m'.depth - 1 })
        (x n { m with depth := m.depth + 1 }) := fun n => by
      rw [nested_eq, if_neg hd]
    exact (hx (Nat.lt_of_not_le hd)).between hdeeper ⟨rfl, hm.store⟩ fun _ hm' =>
      ⟨congrArg (· - 1) hm'.depth, hm'.store⟩

/-! ## Objects -/

theorem halts_attach {f : Closure} (hf : f.routine.loopFree) (o : InstanceId) :
    Halts d (fun g => g.routine.loopFree) fun _ => attach f o :=
  .bind (halts_newScope _) fun _ _ =>
    .bind (halts_modifyStore (fun _ => rfl) fun _ => rfl) fun _ _ => halts_pure hf

theorem halts_boundMethod {f : Closure} (hf : f.routine.loopFree) (o : InstanceId) :
    Halts d (fun _ => True) fun _ => boundMethod f o :=
  .bind (halts_attach hf o) fun _ hg => halts_newFunction hg

theorem halts_defineAll (scope : ScopeId) (l : List (Token × Value)) :
    Halts d (fun _ => True) fun _ => defineAll scope l := by
  induction l with
  | nil => exact halts_pure trivial
  | cons b l ih => exact .bind (halts_modifyStore (fun _ => rfl) fun _ => rfl) fun _ _ => ih

theorem halts_property (o : InstanceId) (name : Token) :
    Halts d (fun _ => True) fun _ => property o name := by
  refine .bind (halts_inspect _) fun field _ => ?_
  split
  · exact halts_pure trivial
  · refine .bind (halts_found fun s hs f hf => ?_) fun f hf => ?_
    · obtain ⟨i, _, hf⟩ := Option.bind_eq_some_iff.mp hf
      exact hs.method hf
    · split
      · exact halts_boundMethod (hf _ rfl) o
      · exact halts_fail _ _

theorem halts_superMethod (keyword : Reference) (name : Token) :
    Halts d (fun _ => True) fun _ => superMethod keyword name := by
  unfold superMethod
  dsimp only
  split
  · exact halts_fail _ _
  refine .bind halts_currentScope fun scope _ => ?_
  refine .bind (halts_inspect _) fun _ _ => .bind halts_lift fun _ _ => ?_
  split
  · split
    · exact halts_fail _ _
    refine .bind (halts_inspect _) fun _ _ => .bind halts_lift fun _ _ => ?_
    split
    · refine .bind (halts_found fun s hs f hf => hs.method hf) fun f hf => ?_
      split
      · exact halts_boundMethod (hf _ rfl) _
      · exact halts_fail _ _
    · exact halts_fail _ _
  · exact halts_fail _ _

theorem halts_superclassOf (r : Option Reference) :
    Halts d (fun _ => True) fun _ => superclassOf r := by
  cases r with
  | none => exact halts_pure trivial
  | some ref =>
    refine .bind (halts_lookUp ref) fun v _ => ?_
    split
    · exact halts_pure trivial
    · exact halts_fail _ _

theorem halts_methodScope (c : Option ClassId) :
    Halts d (fun _ => True) fun _ => methodScope c := by
  cases c with
  | none => exact halts_currentScope
  | some c =>
    exact .bind halts_currentScope fun _ _ => .bind (halts_newScope _) fun _ _ =>
      .bind (halts_modifyStore (fun _ => rfl) fun _ => rfl) fun _ _ => halts_pure trivial

theorem halts_declareClass (n : Token) (r : Option Reference) {ms : List (Routine Stmt)}
    (hms : Stmt.loopFreeMethods ms) : Halts d (fun _ => True) fun _ => declareClass n r ms := by
  refine .bind (halts_superclassOf r) fun c _ => .bind (halts_methodScope c) fun scope _ => ?_
  refine .bind (halts_newClass fun name f hf => ?_) fun v _ => halts_define _ v
  exact Stmt.loopFreeMethods_iff.mp hms _ (mem_methodTable hf).2.1

/-! ## Callables -/

section Callables

variable {run : Nat → List Stmt → Eval Flow}
  (hrun : ∀ b, Stmt.loopFreeAll b → Halts d (fun _ => True) fun n => run n b)
include hrun

omit hrun in
theorem halts_callNative (f : Native) (t : Token) (args : List Value) :
    Halts d (fun _ => True) fun _ => callNative f t args := by
  cases f with
  | clock => exact halts_readClock
  | host arity run => exact .bind (halts_inspect _) fun _ _ => halts_liftAt t _

theorem halts_callFunction {f : Closure} (hf : f.routine.loopFree) (args : List Value) :
    Halts d (fun _ => True) fun n => callFunction (run n) f args := by
  refine .bind (halts_newScope _) fun scope _ => .bind (halts_defineAll _ _) fun _ _ => ?_
  refine .bind (halts_within scope (hrun _ hf)) fun flow _ => ?_
  split
  · exact fun m hm => halts_lift m hm
  · exact halts_pure trivial
  · exact halts_pure trivial

theorem halts_instantiate (c : ClassId) (args : List Value) :
    Halts d (fun _ => True) fun n => instantiate (run n) c args := by
  refine .bind (halts_newInstance c) fun o _ => ?_
  refine .bind (halts_found fun s hs f hf => hs.method hf) fun init hinit => ?_
  cases init with
  | none => exact halts_pure trivial
  | some init =>
    refine .bind (halts_attach (hinit init rfl) o) fun f hf => ?_
    exact .bind (halts_callFunction hrun hf args) fun _ _ => halts_pure trivial

theorem halts_apply (callee : Value) (t : Token) (args : List Value) :
    Halts d (fun _ => True) fun n => apply (run n) callee t args := by
  cases callee with
  | function id =>
    refine .bind (halts_found fun s hs f hf => hs.functions id f hf) fun f hf => ?_
    split
    · exact halts_callFunction hrun (hf _ rfl) args
    · exact halts_fail _ _
  | native id =>
    refine .bind (halts_inspect _) fun f _ => ?_
    split
    · exact halts_callNative _ t args
    · exact halts_fail _ _
  | cls id => exact halts_instantiate hrun id args
  | nil | bool | number | string | object => exact halts_fail _ _

end Callables

/-! ## Rules -/

/-- Every body without loops halts, run one level deeper. -/
def HaltsDeeper (d : Nat) : Prop :=
  d < maxDepth → ∀ b, Stmt.loopFreeAll b → Halts (d + 1) (fun _ => True) fun n => runAll (exec n) b

theorem halts_call (hd : HaltsDeeper d) (callee : Value) (t : Token) (args : List Value) :
    Halts d (fun _ => True) fun n => call (runAll (exec n)) callee t args := by
  refine .bind (halts_inspect _) fun arity _ => ?_
  split
  · exact halts_fail _ _
  · split
    · exact halts_fail _ _
    · exact halts_nested t fun hlt => halts_apply (hd hlt) callee t args

theorem Halts.expr {e : Expr} (h : Halts d (fun _ => True) fun n =>
    evalOver (eval n) (runAll (exec n)) e) : Halts d (fun _ => True) fun n => eval n e :=
  h.succ fun n => eval_succ n e

theorem Halts.stmt {s : Stmt} (h : Halts d (fun _ => True) fun n =>
    execOver (eval n) (exec n) n s) : Halts d (fun _ => True) fun n => exec n s :=
  h.succ fun n => exec_succ n s

mutual

theorem halts_eval (hd : HaltsDeeper d) : ∀ e, Halts d (fun _ => True) fun n => eval n e
  | .literal _ => .expr (halts_pure trivial)
  | .group e => .expr (halts_eval hd e)
  | .unary op e => .expr (.bind (halts_eval hd e) fun _ _ => halts_liftAt op _)
  | .binary op a b =>
    .expr (.bind (halts_eval hd a) fun _ _ => .bind (halts_eval hd b) fun _ _ => halts_liftAt op _)
  | .logical op a b => by
    refine .expr (.bind (halts_eval hd a) fun v _ => ?_)
    split
    · exact halts_pure trivial
    · exact halts_eval hd b
  | .var r => .expr (halts_lookUp r)
  | .assign r e =>
    .expr (.bind (halts_eval hd e) fun v _ => .bind (halts_assign r v) fun _ _ =>
      halts_pure trivial)
  | .call f t args =>
    .expr (.bind (halts_eval hd f) fun callee _ => .bind (halts_evalAll hd args) fun vs _ =>
      halts_call hd callee t vs)
  | .get o n => by
    refine .expr (.bind (halts_eval hd o) fun v _ => ?_)
    split
    · exact halts_property _ n
    · exact halts_fail _ _
  | .set o n e => by
    refine .expr (.bind (halts_eval hd o) fun v _ => ?_)
    split
    · exact .bind (halts_eval hd e) fun _ _ =>
        .bind (halts_modifyStore (fun _ => rfl) fun _ => rfl) fun _ _ => halts_pure trivial
    · exact halts_fail _ _
  | .receiver r => .expr (halts_lookUp r)
  | .inherited k n => .expr (halts_superMethod k n)

theorem halts_evalAll (hd : HaltsDeeper d) :
    ∀ es, Halts d (fun _ => True) fun n => evalAll (eval n) es
  | [] => halts_pure trivial
  | e :: es =>
    .bind (halts_eval hd e) fun _ _ => .bind (halts_evalAll hd es) fun _ _ => halts_pure trivial

end

theorem halts_evalOption (hd : HaltsDeeper d) (e : Option Expr) :
    Halts d (fun _ => True) fun n => evalOption (eval n) e := by
  cases e with
  | none => exact halts_pure trivial
  | some e => exact halts_eval hd e

mutual

theorem halts_exec (hd : HaltsDeeper d) :
    ∀ s : Stmt, s.loopFree → Halts d (fun _ => True) fun n => exec n s
  | .expression e, _ => .stmt (.bind (halts_eval hd e) fun _ _ => halts_pure trivial)
  | .print e, _ =>
    .stmt (.bind (halts_eval hd e) fun _ _ => .bind (halts_inspect _) fun text _ =>
      .bind (halts_printLine text) fun _ _ => halts_pure trivial)
  | .declare n e, _ =>
    .stmt (.bind (halts_evalOption hd e) fun v _ => .bind (halts_define _ v) fun _ _ =>
      halts_pure trivial)
  | .block b, h =>
    .stmt (.bind halts_currentScope fun _ _ => .bind (halts_newScope _) fun scope _ =>
      halts_within scope (halts_runAll hd b h))
  | .branch c s none, h => by
    refine .stmt (.bind (halts_eval hd c) fun v _ => ?_)
    split
    · exact halts_exec hd s h
    · exact halts_pure trivial
  | .branch c s (some a), h => by
    obtain ⟨hs, ha⟩ := Bool.and_eq_true_iff.mp h
    refine .stmt (.bind (halts_eval hd c) fun v _ => ?_)
    split
    · exact halts_exec hd s hs
    · exact halts_exec hd a ha
  | .function ⟨_, _, _⟩, h =>
    .stmt (.bind halts_currentScope fun _ _ => .bind (halts_newFunction h) fun f _ =>
      .bind (halts_define _ f) fun _ _ => halts_pure trivial)
  | .leave _ e, _ => .stmt (.bind (halts_evalOption hd e) fun _ _ => halts_pure trivial)
  | .classDecl n r ms, h =>
    .stmt (.bind (halts_declareClass n r h) fun _ _ => halts_pure trivial)

theorem halts_runAll (hd : HaltsDeeper d) :
    ∀ b, Stmt.loopFreeAll b → Halts d (fun _ => True) fun n => runAll (exec n) b
  | [], _ => halts_pure trivial
  | s :: b, h => by
    obtain ⟨hs, hb⟩ := Bool.and_eq_true_iff.mp h
    refine .bind (halts_exec hd s hs) fun flow _ => ?_
    cases flow with
    | normal => exact halts_runAll hd b hb
    | returned v => exact halts_pure trivial

end

/-- By induction on how many levels of calls are left. -/
theorem haltsDeeper (left d : Nat) (h : maxDepth ≤ d + left) : HaltsDeeper d := by
  induction left generalizing d with
  | zero => exact fun hlt => absurd h (Nat.not_le_of_lt hlt)
  | succ left ih => exact fun _ => halts_runAll (ih (d + 1) (by omega))

theorem flushed_congr {x y : Eval Flow} {m : Machine} (h : x m = y m) :
    flushed x m = flushed y m := by
  unfold flushed
  rw [h]

theorem Halted.flushed {P : Flow → Prop} {x : Eval Flow} {m : Machine} (h : Halted d P (x m)) :
    Halted d (fun _ => True) (flushed x m) := by
  unfold Eval.flushed
  generalize x m = r at h
  cases h with
  | ok hm _ =>
    dsimp only
    split
    · exact .ok hm trivial
    · exact .fault hm
  | fault hm =>
    dsimp only
    split <;> exact .fault hm

/-- Programs without loops halt, at any depth of calls. -/
theorem halts_interpret {p : Program} (hp : Stmt.loopFreeAll p) (d : Nat) :
    Halts d (fun _ => True) fun fuel => interpret fuel p := by
  intro m hm
  obtain ⟨enough, r, hr, hend⟩ :=
    halts_runAll (haltsDeeper maxDepth d (Nat.le_add_left _ _)) p hp m hm
  have hlast : runAll (exec enough) p m = r := hr enough (Nat.le_refl _)
  refine ⟨enough, interpret enough p m, fun fuel hfuel => ?_, (hlast ▸ hend : Halted ..).flushed⟩
  exact flushed_congr ((hr fuel hfuel).trans hlast.symm)

end Eval

/-- A program without loops terminates on a machine whose functions and methods have none: from
some fuel on its runs are all the same, they end with a result or a fault, and they leave no
loops behind. If programs led to the machine, the searches for methods along superclasses come
to an end all the while. And no `while` or `for` was written where the program was read
from. -/
theorem interpret_of_loopFree {m : Machine} (hm : m.store.LoopFree) {p : Program}
    (hp : Stmt.loopFreeAll p) :
    (∃ enough r, (∀ fuel, enough ≤ fuel → Eval.interpret fuel p m = r) ∧
      ((∃ m', r = .ok () m') ∨ ∃ d m', r = .error (.fault d) m') ∧
      (Eval.after r).store.LoopFree) ∧
    (∀ P out clock, m.Reachable P out clock → ∀ watch fuel,
      (Eval.moment watch fuel p m).store.Founded) ∧
    ∀ tokens, Program.ofTokens tokens = (p, []) →
      ∀ t ∈ Program.tokens tokens, ¬ t.Is .whileWord ∧ ¬ t.Is .forWord := by
  refine ⟨?_, fun P out clock hreach watch fuel => ?_, fun tokens htokens t ht => ?_⟩
  · obtain ⟨enough, r, hr, hend⟩ := Eval.halts_interpret hp m.depth m ⟨rfl, hm⟩
    refine ⟨enough, r, hr, ?_⟩
    cases hend with
    | ok hm' _ => exact ⟨.inl ⟨_, rfl⟩, hm'.store⟩
    | fault hm' => exact ⟨.inr ⟨_, _, rfl⟩, hm'.store⟩
  · have hsound := hreach.sound fun p _ => Stmt.over_all_list p
    have hw : ∀ n m e, watch n m = some e → watch n m = some e := fun _ _ _ h => h
    have hled := Eval.leads_program hw fuel hsound (Stmt.over_all_list p)
    exact (Store.Steps.sound hled.steps.1 hsound.store).founded
  · rw [Program.loopFree_of_ofTokens htokens, List.all_eq_true] at hp
    simpa [Token.beginsLoop] using hp t ht

/-- An initializer and a function that call what they are passed, without end. -/
theorem interpret_of_loopFree_endless :
    let program := (Program.ofTokens (scan
      "class A \x7b init(f) \x7b f(f); \x7d \x7d fun g(h) \x7b return A(h).k; \x7d A(g);").1).1
    let m := Machine.start .unlimited fun _ => 0
    Stmt.loopFreeAll program = true ∧ m.store.LoopFree ∧
    (∃ enough r, (∀ fuel, enough ≤ fuel → Eval.interpret fuel program m = r) ∧
      ((∃ m', r = .ok () m') ∨ ∃ d m', r = .error (.fault d) m') ∧
      (Eval.after r).store.LoopFree) ∧
    ∀ watch fuel, (Eval.moment watch fuel program m).store.Founded := by
  intro program m
  have hp : Stmt.loopFreeAll program = true := by decide +kernel
  have hm : m.store.LoopFree := Machine.loopFree_start _ _
  clear_value program
  obtain ⟨hhalts, hfounded, _⟩ := interpret_of_loopFree hm hp
  exact ⟨hp, hm, hhalts, hfounded Program.Written .unlimited (fun _ => 0) .start⟩

end Treewalk
