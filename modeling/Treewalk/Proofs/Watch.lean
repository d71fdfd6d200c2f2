import Treewalk.Evaluation

/-!
# Watching a run

A run evaluates expressions and executes statements one after the other and one
inside the other. `evalWatched` and `execWatched` are the evaluators with a watch
at every such moment: the watch sees the node that is about to run and the
machine, and may stop the run there. A run comes to a node in a machine
(`Visits`) if a watch that stops nowhere else changes what becomes of it.

The watched evaluators are tied over the same rules (`evalOver`, `execOver`) as
the evaluators themselves, so nothing that runs goes unseen.

Code may carry more than its rule needs, such as the number of each node. Then a node is
read before its rule runs (`CodeReading`), and the rule hands the parts on as they are
(`evalRead`, `execRead`).
-/

namespace Treewalk

/-- What runs at a moment of a run. -/
inductive Node where
  | expr (e : Expr)
  | stmt (s : Stmt)

/-- How code is read before it runs. -/
structure CodeReading where
  expr : Expr → Expr
  stmt : Stmt → Stmt

/-- Code as it stands. -/
def CodeReading.plain : CodeReading where
  expr e := e
  stmt s := s

/-- Sees a node and the machine before the node runs, and may stop the run. -/
abbrev Watch := Node → Machine → Option Stop

namespace Eval

/-- The machine that an action leaves behind, however it ended. -/
def after {α : Type} : EStateM.Result Stop Machine α → Machine
  | .ok _ m => m
  | .error _ m => m

theorem eval_zero (e : Expr) : eval 0 e = exhausted := by
  rw [eval]

theorem exec_zero (s : Stmt) : exec 0 s = exhausted := by
  rw [exec]

theorem eval_succ (n : Nat) (e : Expr) : eval (n + 1) e = evalOver (eval n) (runAll (exec n)) e := by
  rw [eval]
  exact funext fun _ => descend_eq _ _

theorem exec_succ (n : Nat) (s : Stmt) : exec (n + 1) s = execOver (eval n) (exec n) n s := by
  rw [exec]
  exact funext fun _ => descend_eq _ _

/-- What runs a program: at the end the output is flushed, whatever happened. -/
def flushed (x : Eval Flow) : Eval Unit := fun m =>
  match x m with
  | .error .exhausted m => .error .exhausted m
  | .error (.fault d) m =>
    match m.out.flush with
    | .ok () => .error (.fault d) m
    | .error f => .error (.fault (.channel f)) m
  | .ok _ m =>
    match m.out.flush with
    | .ok () => .ok () m
    | .error f => .error (.fault (.channel f)) m

theorem interpret_eq (fuel : Nat) (program : Program) :
    interpret fuel program = flushed (runAll (exec fuel) program) := rfl

/-- Flushing leaves the machine alone. -/
theorem after_flushed (x : Eval Flow) (m : Machine) : after (flushed x m) = after (x m) := by
  unfold flushed
  split
  · next h => rw [h]; rfl
  · next h =>
    rw [h]
    split <;> rfl
  · next h =>
    rw [h]
    split <;> rfl

/-- Runs an action, unless the watch stops the run before it. -/
def watched {α : Type} (watch : Watch) (node : Node) (action : Eval α) : Eval α := fun m =>
  match watch node m with
  | some stop => .error stop m
  | none => action m

mutual

def evalWatched (watch : Watch) : Nat → Expr → Eval Value
  | 0, _ => exhausted
  | n + 1, e =>
    watched watch (.expr e) (evalOver (evalWatched watch n) (runAll (execWatched watch n)) e)

def execWatched (watch : Watch) : Nat → Stmt → Eval Flow
  | 0, _ => exhausted
  | n + 1, s => watched watch (.stmt s) (execOver (evalWatched watch n) (execWatched watch n) n s)

end

/-- The run of a program from `m` comes to `node` in the machine `now`. -/
def Visits (fuel : Nat) (program : Program) (m : Machine) (node : Node) (now : Machine) : Prop :=
  ∃ watch : Watch, (∀ n m', watch n m' ≠ none → n = node ∧ m' = now) ∧
    runAll (execWatched watch fuel) program m ≠ runAll (exec fuel) program m

/-- A watch that never stops the run. -/
def silent : Watch := fun _ _ => none

mutual

/-- The watched evaluators on code that is read node by node. The watch sees the code. -/
def evalRead (reading : CodeReading) (watch : Watch) : Nat → Expr → Eval Value
  | 0, _ => exhausted
  | n + 1, e => watched watch (.expr e)
    (evalOver (evalRead reading watch n) (runAll (execRead reading watch n)) (reading.expr e))

def execRead (reading : CodeReading) (watch : Watch) : Nat → Stmt → Eval Flow
  | 0, _ => exhausted
  | n + 1, s => watched watch (.stmt s)
    (execOver (evalRead reading watch n) (execRead reading watch n) n (reading.stmt s))

end

/-- The run of code that is read comes to `node` in the machine `now`. -/
def VisitsRead (reading : CodeReading) (fuel : Nat) (program : Program) (m : Machine) (node : Node)
    (now : Machine) : Prop :=
  ∃ watch : Watch, (∀ n m', watch n m' ≠ none → n = node ∧ m' = now) ∧
    runAll (execRead reading watch fuel) program m ≠ runAll (execRead reading silent fuel) program m

theorem watched_silent {α : Type} (node : Node) (action : Eval α) :
    watched silent node action = action := rfl

theorem watched_of_none {α : Type} {watch : Watch} {node : Node} {m : Machine} (action : Eval α)
    (h : watch node m = none) : watched watch node action m = action m := by
  simp only [watched, h]

/-- Watched without a stop, evaluation is evaluation. -/
theorem watched_eq (n : Nat) :
    (∀ e, evalWatched silent n e = eval n e) ∧ ∀ s, execWatched silent n s = exec n s := by
  induction n with
  | zero => exact ⟨fun e => by rw [evalWatched, eval_zero], fun s => by rw [execWatched, exec_zero]⟩
  | succ n ih =>
    have he : evalWatched silent n = eval n := funext ih.1
    have hs : execWatched silent n = exec n := funext ih.2
    refine ⟨fun e => ?_, fun s => ?_⟩
    · rw [evalWatched, eval_succ, watched_silent, he, hs]
    · rw [execWatched, exec_succ, watched_silent, he, hs]

/-- Read as it stands, code runs like code. -/
theorem read_plain (watch : Watch) (n : Nat) :
    (∀ e, evalRead .plain watch n e = evalWatched watch n e) ∧
      ∀ s, execRead .plain watch n s = execWatched watch n s := by
  induction n with
  | zero =>
    exact ⟨fun e => by rw [evalRead, evalWatched], fun s => by rw [execRead, execWatched]⟩
  | succ n ih =>
    have he : evalRead .plain watch n = evalWatched watch n := funext ih.1
    have hs : execRead .plain watch n = execWatched watch n := funext ih.2
    refine ⟨fun e => ?_, fun s => ?_⟩
    · rw [evalRead, evalWatched, he, hs]
      rfl
    · rw [execRead, execWatched, he, hs]
      rfl

/-- If no watch that stays silent wherever `P` holds ever stops the run, the run
comes to no node without `P`. -/
theorem Visits.of_silent {P : Node → Machine → Prop} {fuel : Nat} {program : Program} {m : Machine}
    (h : ∀ watch : Watch, (∀ n m', P n m' → watch n m' = none) →
      runAll (execWatched watch fuel) program m = runAll (exec fuel) program m)
    {node : Node} {now : Machine} (hv : Visits fuel program m node now) : P node now := by
  obtain ⟨watch, honly, hne⟩ := hv
  refine Classical.byContradiction fun hp => hne (h watch fun n m' hP => ?_)
  refine Classical.byContradiction fun hw => ?_
  obtain ⟨rfl, rfl⟩ := honly n m' hw
  exact hp hP

/-- If every watch that stops at a node in a machine, and at no other node, stops
the run, and the run would not stop by itself, it comes to the node. -/
theorem Visits.intro {fuel : Nat} {program : Program} {m now last : Machine} {node : Node}
    {flow : Flow} (hstop : ∀ watch : Watch, watch node now = some .exhausted →
      (∀ n m', n ≠ node → watch n m' = none) →
      ∃ m', runAll (execWatched watch fuel) program m = .error .exhausted m')
    (hrun : runAll (exec fuel) program m = .ok flow last) : Visits fuel program m node now := by
  classical
  let watch : Watch := fun n m' => if n = node ∧ m' = now then some .exhausted else none
  refine ⟨watch, fun n m' h => ?_, ?_⟩
  · exact Classical.byContradiction fun hne => h (if_neg hne)
  · obtain ⟨m', h⟩ := hstop watch (if_pos ⟨rfl, rfl⟩) fun n m' hne => if_neg fun h => hne h.1
    rw [h, hrun]
    exact nofun

end Eval

end Treewalk
