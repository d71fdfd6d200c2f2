import Treewalk.Proofs.Lockstep.Declarations

/-!
# Evaluation in step

The rules of evaluation, gone through once: evaluators that run alike trees in
step make rules that do (`evalOver_sim`, `execOver_sim`), so by induction on the
fuel the evaluators do (`evaluators`). Both runs may be watched; the watches have to
stop together at every node that the runs come to in step.
-/

namespace Treewalk.Correspondence

variable {C : Correspondence} {w : C.World} {s : ScopeId} {κ κ' : C.Ctx}

/-- The same flow; what follows a statement stands in the surroundings `κ`. -/
def Flows (C : Correspondence) (κ : C.Ctx) (s : ScopeId) (w : C.World) (f f' : Flow) : Prop :=
  f = f' ∧ (f = .normal → C.stands w κ s)

/-- Evaluators that run alike trees in step. -/
structure Evaluators (C : Correspondence) (ev ev' : Expr → Eval Value) (ex ex' : Stmt → Eval Flow) :
    Prop where
  eval {w : C.World} {κ : C.Ctx} {s : ScopeId} {e e' : Expr} :
    C.stands w κ s → C.expr κ e e' → C.Sim w s C.Same (ev e) (ev' e')
  exec {w : C.World} {κ κ' : C.Ctx} {s : ScopeId} {t t' : Stmt} :
    C.stands w κ s → C.stmt κ t t' κ' → C.Sim w s (C.Flows κ' s) (ex t) (ex' t')

variable {ev ev' : Expr → Eval Value} {ex ex' : Stmt → Eval Flow}

/-! ## Lists, options and loops -/

theorem evalAll_sim (h : C.Evaluators ev ev' ex ex') (hκ : C.stands w κ s) {es es' : List Expr}
    (hes : List.Forall₂ (C.expr κ) es es') :
    C.Sim w s C.Same (Eval.evalAll ev es) (Eval.evalAll ev' es') := by
  induction hes generalizing w with
  | nil => exact sim_pure rfl
  | cons he _ ih =>
    refine sim_bind (h.eval hκ he) fun w₁ v v' hle hv => ?_
    refine sim_bind (ih (C.stands_mono hle hκ)) fun w₂ vs vs' _ hvs => ?_
    rw [show v = v' from hv, show vs = vs' from hvs]
    exact sim_pure rfl

theorem evalOption_sim (h : C.Evaluators ev ev' ex ex') (hκ : C.stands w κ s) {e e' : Option Expr}
    (he : Option.Rel (C.expr κ) e e') :
    C.Sim w s C.Same (Eval.evalOption ev e) (Eval.evalOption ev' e') := by
  cases he with
  | some he => exact h.eval hκ he
  | none => exact sim_pure rfl

theorem runAll_sim (h : C.Evaluators ev ev' ex ex') (hκ : C.stands w κ s) {b b' : List Stmt}
    (hb : C.Stmts κ b b') : C.Sim w s C.Same (Eval.runAll ex b) (Eval.runAll ex' b') := by
  induction hb generalizing w with
  | nil => exact sim_pure rfl
  | cons ht _ ih =>
    refine sim_bind (h.exec hκ ht) fun w₁ f f' hle hf => ?_
    obtain ⟨rfl, hκ'⟩ := hf
    cases f with
    | normal => exact ih (hκ' rfl)
    | returned v => exact sim_pure rfl

theorem bodies (h : C.Evaluators ev ev' ex ex') : C.Bodies (Eval.runAll ex) (Eval.runAll ex') :=
  fun _ _ _ _ _ hκ hb => runAll_sim h hκ hb

theorem whileTrue_sim {c c' : Eval Value} {b b' : Eval Flow}
    (hc : ∀ w', C.le w w' → C.Sim w' s C.Same c c')
    (hb : ∀ w', C.le w w' → C.Sim w' s C.Same b b') (n : Nat) :
    C.Sim w s C.Same (Eval.whileTrue c b n) (Eval.whileTrue c' b' n) := by
  induction n generalizing w with
  | zero => exact sim_exhausted
  | succ n ih =>
    refine sim_bind (hc w (C.le_refl w)) fun w₁ v v' hle₁ hv => ?_
    rw [show v = v' from hv]
    split
    · refine sim_bind (hb w₁ hle₁) fun w₂ f f' hle₂ hf => ?_
      rw [show f = f' from hf]
      cases f' with
      | normal =>
        have hle := C.le_trans hle₁ hle₂
        exact ih (fun w' h => hc w' (C.le_trans hle h)) fun w' h => hb w' (C.le_trans hle h)
      | returned v => exact sim_pure rfl
    · exact sim_pure rfl

/-! ## Expressions -/

theorem evalOver_sim (h : C.Evaluators ev ev' ex ex') (hκ : C.stands w κ s) {e e' : Expr}
    (hee : C.expr κ e e') :
    C.Sim w s C.Same (Eval.evalOver ev (Eval.runAll ex) (C.reading.expr e))
      (Eval.evalOver ev' (Eval.runAll ex') e') := by
  have hparts := C.expr_parts hee
  generalize hread : C.reading.expr e = x at hparts ⊢
  cases hparts with
  | literal v => exact sim_pure rfl
  | group he => exact h.eval hκ he
  | unary hop he =>
    refine sim_bind (h.eval hκ he) fun w₁ v v' _ hv => ?_
    rw [show v = v' from hv, ← C.kind_eq hop]
    exact sim_liftAt fun _ => C.fault_unary hee hread
  | binary hop ha hb =>
    refine sim_bind (h.eval hκ ha) fun w₁ a a' hle ha => ?_
    refine sim_bind (h.eval (C.stands_mono hle hκ) hb) fun w₂ b b' _ hb => ?_
    rw [show a = a' from ha, show b = b' from hb, ← C.kind_eq hop]
    exact sim_liftAt fun _ => C.fault_binary hee hread
  | logical hop ha hb =>
    refine sim_bind (h.eval hκ ha) fun w₁ a a' hle ha => ?_
    rw [show a = a' from ha, C.kind_eq hop]
    split
    · exact sim_pure rfl
    · exact h.eval (C.stands_mono hle hκ) hb
  | var hr => exact lookUp_sim hκ hr
  | assign _ he =>
    refine sim_bind (h.eval hκ he) fun w₁ v v' hle hv => ?_
    rw [show v = v' from hv]
    exact sim_bind (assign_sim (C.stands_mono hle hκ) hee hread v') fun _ _ _ _ _ => sim_pure rfl
  | call hf hp hargs =>
    refine sim_bind (h.eval hκ hf) fun w₁ f f' hle hf => ?_
    refine sim_bind (evalAll_sim h (C.stands_mono hle hκ) hargs) fun w₂ vs vs' _ hvs => ?_
    rw [show f = f' from hf, show vs = vs' from hvs]
    exact call_sim (bodies h) f' hp vs'
  | get ho hn =>
    refine sim_bind (h.eval hκ ho) fun w₁ o o' _ ho => ?_
    rw [show o = o' from ho]
    cases o' with
    | object id => exact property_sim id hn
    | nil | bool | number | string | function | native | cls => exact sim_fail (C.fault_token rfl hn)
  | set ho hn hv =>
    refine sim_bind (h.eval hκ ho) fun w₁ o o' hle ho => ?_
    rw [show o = o' from ho]
    cases o' with
    | object id =>
      refine sim_bind (h.eval (C.stands_mono hle hκ) hv) fun w₂ v v' _ hv => ?_
      rw [show v = v' from hv, C.lexeme_eq hn]
      exact sim_bind (setField_sim id _ v') fun _ _ _ _ _ => sim_pure rfl
    | nil | bool | number | string | function | native | cls => exact sim_fail (C.fault_token rfl hn)
  | receiver hk => exact lookUp_sim hκ hk
  | inherited => exact superMethod_sim hκ hee hread

/-! ## Statements -/

/-- What runs in a new scope leaves the surroundings as they were. -/
theorem block_sim (h : C.Evaluators ev ev' ex ex') (hκ : C.stands w κ s) {κ₀ : C.Ctx}
    (ho : C.opens κ κ₀) {b b' : List Stmt} (hb : C.Stmts κ₀ b b') :
    C.Sim w s C.Same (Eval.execOver ev ex 0 (.block b)) (Eval.execOver ev' ex' 0 (.block b')) := by
  intro m m' hm
  obtain ⟨w', hle, hσ, hκ₀⟩ := C.block hm.store.scopes hκ ho
  have e : ∀ (ev : Expr → Eval Value) (ex : Stmt → Eval Flow) (b : List Stmt) {m : Machine},
      m.scope = s → Eval.execOver ev ex 0 (.block b) m =
        Eval.within m.store.scopes.next (Eval.runAll ex b)
          { m with store := { m.store with scopes := m.store.scopes.push (some s) } } := by
    rintro ev ex b m rfl
    rfl
  rw [e ev ex b hm.scope, e ev' ex' b' hm.scope', ← C.next_eq hm.store.scopes]
  exact Ends.mono hle (sim_within (runAll_sim h hκ₀ hb) _ _ (hm.withScopes hle hσ))

theorem execOver_sim (h : C.Evaluators ev ev' ex ex') (hκ : C.stands w κ s) {t t' : Stmt}
    (ht : C.StmtParts κ t t' κ') (n : Nat) :
    C.Sim w s (C.Flows κ' s) (Eval.execOver ev ex n t) (Eval.execOver ev' ex' n t') := by
  -- most statements leave the surroundings as they are
  have keep : ∀ {x y : Eval Flow}, C.Sim w s C.Same x y → C.Sim w s (C.Flows κ s) x y :=
    fun hxy => hxy.imp fun _ _ _ hle hf => ⟨hf, fun _ => C.stands_mono hle hκ⟩
  cases ht with
  | expression he => exact keep (sim_bind (h.eval hκ he) fun _ _ _ _ _ => sim_pure rfl)
  | print he =>
    refine keep (sim_bind (h.eval hκ he) fun w₁ v v' _ hv => ?_)
    rw [show v = v' from hv]
    refine sim_bind (P := C.Same) (sim_inspect fun _ _ hst => hst.text v') fun w₂ x x' _ hx => ?_
    rw [show x = x' from hx]
    exact sim_bind (printLine_sim x') fun _ _ _ _ _ => sim_pure rfl
  | declare he hd =>
    refine sim_bind (evalOption_sim h hκ he) fun w₁ v v' hle hv => ?_
    rw [show v = v' from hv]
    refine sim_bind (define_sim (C.stands_mono hle hκ) hd v') fun _ _ _ _ hκ' => ?_
    exact sim_pure ⟨rfl, fun _ => hκ'⟩
  | block ho hb => exact keep (block_sim h hκ ho hb)
  | branch hc hs ha =>
    refine sim_bind (h.eval hκ hc) fun w₁ v v' hle hv => ?_
    have hκ₁ := C.stands_mono hle hκ
    rw [show v = v' from hv]
    split
    · exact h.exec hκ₁ hs
    · cases ha with
      | some ha => exact h.exec hκ₁ ha
      | none => exact sim_pure ⟨rfl, fun _ => hκ₁⟩
  | loop hc hs =>
    refine keep (whileTrue_sim (fun w' hle => h.eval (C.stands_mono hle hκ) hc) (fun w' hle => ?_) n)
    exact (h.exec (C.stands_mono hle hκ) hs).imp fun _ _ _ _ hf => hf.1
  | function hd hr =>
    rw [Eval.execOver_function, Eval.execOver_function]
    refine sim_bind (declareFunction_sim hκ hd hr) fun _ _ _ _ hκ' => ?_
    exact sim_pure ⟨rfl, fun _ => hκ'⟩
  | leave he =>
    refine keep (sim_bind (evalOption_sim h hκ he) fun w₁ v v' _ hv => ?_)
    rw [show v = v' from hv]
    exact sim_pure rfl
  | base hn hd hms =>
    refine sim_bind (declareBase_sim hκ hn hd hms) fun _ _ _ _ hκ' => ?_
    exact sim_pure ⟨rfl, fun _ => hκ'⟩
  | derived hn hr hd hms =>
    refine sim_bind (declareDerived_sim hκ hn hr hd hms) fun _ _ _ _ hκ' => ?_
    exact sim_pure ⟨rfl, fun _ => hκ'⟩

/-! ## Runs -/

/-- The watches stop together at every node that two runs come to in step. -/
structure Alike (C : Correspondence) (watch watch' : Watch) : Prop where
  expr {w : C.World} {κ : C.Ctx} {s : ScopeId} {e e' : Expr} {m m' : Machine} :
    C.Machines w s m m' → C.stands w κ s → C.expr κ e e' →
      Option.Rel C.Stops (watch (.expr e) m) (watch' (.expr e') m')
  stmt {w : C.World} {κ κ' : C.Ctx} {s : ScopeId} {t t' : Stmt} {m m' : Machine} :
    C.Machines w s m m' → C.stands w κ s → C.stmt κ t t' κ' →
      Option.Rel C.Stops (watch (.stmt t) m) (watch' (.stmt t') m')

theorem alike_silent : C.Alike Eval.silent Eval.silent :=
  ⟨fun _ _ _ => .none, fun _ _ _ => .none⟩

theorem watched_ends {α β : Type} {Q : C.World → α → β → Prop} {watch watch' : Watch}
    {node node' : Node} {m m' : Machine} {x : Eval α} {y : Eval β} (hm : C.Machines w s m m')
    (hstop : Option.Rel C.Stops (watch node m) (watch' node' m')) (h : C.Ends w s Q (x m) (y m')) :
    C.Ends w s Q (Eval.watched watch node x m) (Eval.watched watch' node' y m') := by
  unfold Eval.watched
  generalize watch node m = stop at hstop ⊢
  generalize watch' node' m' = stop' at hstop ⊢
  cases hstop with
  | none => exact h
  | some hstop => exact .error (C.le_refl w) hm hstop

/-- Alike trees run in step, for any fuel. -/
theorem evaluators {watch watch' : Watch} (hwatch : C.Alike watch watch') (n : Nat) :
    C.Evaluators (Eval.evalRead C.reading watch n) (Eval.evalWatched watch' n)
      (Eval.execRead C.reading watch n) (Eval.execWatched watch' n) := by
  induction n with
  | zero =>
    refine ⟨fun _ _ => ?_, fun _ _ => ?_⟩
    · rw [Eval.evalRead, Eval.evalWatched]
      exact sim_exhausted
    · rw [Eval.execRead, Eval.execWatched]
      exact sim_exhausted
  | succ n ih =>
    refine ⟨fun hκ he m m' hm => ?_, fun hκ ht m m' hm => ?_⟩
    · rw [Eval.evalRead, Eval.evalWatched]
      exact watched_ends hm (hwatch.expr hm hκ he) (evalOver_sim ih hκ he m m' hm)
    · rw [Eval.execRead, Eval.execWatched]
      exact watched_ends hm (hwatch.stmt hm hκ ht) (execOver_sim ih hκ (C.stmt_parts ht) n m m' hm)

theorem runAll_watched_sim {watch watch' : Watch} (hwatch : C.Alike watch watch')
    (hκ : C.stands w κ s) {b b' : List Stmt} (hb : C.Stmts κ b b') (fuel : Nat) :
    C.Sim w s C.Same (Eval.runAll (Eval.execRead C.reading watch fuel) b)
      (Eval.runAll (Eval.execWatched watch' fuel) b') :=
  runAll_sim (evaluators hwatch fuel) hκ hb

/-- The evaluators themselves, without a watch. -/
theorem evaluators_silent (n : Nat) :
    C.Evaluators (Eval.evalRead C.reading Eval.silent n) (Eval.eval n)
      (Eval.execRead C.reading Eval.silent n) (Eval.exec n) := by
  have h := evaluators (C.alike_silent) n
  rwa [show Eval.evalWatched Eval.silent n = Eval.eval n from funext (Eval.watched_eq n).1,
    show Eval.execWatched Eval.silent n = Eval.exec n from funext (Eval.watched_eq n).2] at h

/-- The evaluators on code that is read as it stands. -/
theorem evaluators_plain (hplain : C.reading = .plain) (n : Nat) :
    C.Evaluators (Eval.eval n) (Eval.eval n) (Eval.exec n) (Eval.exec n) := by
  have h := C.evaluators_silent n
  have he : Eval.evalRead .plain Eval.silent n = Eval.eval n :=
    funext fun e => ((Eval.read_plain _ n).1 e).trans ((Eval.watched_eq n).1 e)
  have hs : Eval.execRead .plain Eval.silent n = Eval.exec n :=
    funext fun s => ((Eval.read_plain _ n).2 s).trans ((Eval.watched_eq n).2 s)
  rwa [hplain, he, hs] at h

theorem runAll_read_sim (hκ : C.stands w κ s) {b b' : List Stmt} (hb : C.Stmts κ b b')
    (fuel : Nat) : C.Sim w s C.Same (Eval.runAll (Eval.execRead C.reading Eval.silent fuel) b)
      (Eval.runAll (Eval.exec fuel) b') :=
  runAll_sim (evaluators_silent fuel) hκ hb

theorem runAll_exec_sim (hplain : C.reading = .plain) (hκ : C.stands w κ s) {b b' : List Stmt}
    (hb : C.Stmts κ b b') (fuel : Nat) : C.Sim w s C.Same (Eval.runAll (Eval.exec fuel) b)
      (Eval.runAll (Eval.exec fuel) b') :=
  runAll_sim (evaluators_plain hplain fuel) hκ hb

/-- Actions in step that end with a flush of the output. -/
theorem flushed_sim {x y : Eval Flow} (h : C.Sim w s C.Same x y) :
    C.Sim w s C.Same (Eval.flushed x) (Eval.flushed y) := by
  intro m m' hm
  have hxy := h m m' hm
  unfold Eval.flushed
  generalize x m = r at hxy ⊢
  generalize y m' = r' at hxy ⊢
  cases hxy with
  | ok hle hm _ =>
    simp only [← hm.out]
    split
    · exact .ok hle hm rfl
    · exact .error hle hm (.fault (C.fault_channel _))
  | error hle hm he =>
    cases he with
    | exhausted => exact .error hle hm .exhausted
    | fault hd =>
      simp only [← hm.out]
      split
      · exact .error hle hm (.fault hd)
      · exact .error hle hm (.fault (C.fault_channel _))

/-- Alike programs end in the same way. -/
theorem interpret_sim (hplain : C.reading = .plain) (hκ : C.stands w κ s) {b b' : List Stmt}
    (hb : C.Stmts κ b b') (fuel : Nat) :
    C.Sim w s C.Same (Eval.interpret fuel b) (Eval.interpret fuel b') := by
  rw [Eval.interpret_eq, Eval.interpret_eq]
  exact flushed_sim (runAll_exec_sim hplain hκ hb fuel)

end Treewalk.Correspondence
