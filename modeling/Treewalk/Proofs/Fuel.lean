import Treewalk.Proofs.Moments

/-!
# Runs without fuel

A run that ends before the fuel does ends in the same way with more fuel (`Eval.exec_of_le`).
So evaluation is a relation in which no fuel occurs: `Expr.Evaluates` and `Stmt.Executes`
hold of a result if some fuel leads to it, and of one result at most.

The rules for two statements in a block and for a loop are the usual ones, in both
directions. A loop is a number of turns (`Rounds`), each in front of a condition that holds,
and then a last condition or turn that ends it (`Ceases`).
-/

namespace Treewalk

/-- How an action ended, and the machine it left. -/
abbrev Ending (α : Type) := EStateM.Result Stop Machine α

namespace Eval

variable {α β : Type}

/-- It is not the fuel that ended the action. -/
def Finished (r : Ending α) : Prop :=
  ∀ m, r ≠ .error .exhausted m

theorem finished_ok (a : α) (m : Machine) : Finished (.ok a m) :=
  fun _ h => by cases h

theorem finished_error {e : Stop} {m : Machine} :
    Finished (.error e m : Ending α) ↔ e ≠ .exhausted := by
  constructor
  · rintro h rfl
    exact h m rfl
  · intro h m' he
    cases he
    exact h rfl

theorem Finished.mapMachine {r : Ending α} (h : Finished r) (f : Machine → Machine) :
    Finished (mapMachine f r) := by
  cases r with
  | ok a m => exact finished_ok a (f m)
  | error e m => exact finished_error.mpr (finished_error.mp h)

/-! ## More fuel -/

/-- Where the first action finishes, the second does the same. -/
def Extends (x y : Eval α) : Prop :=
  ∀ m, Finished (x m) → y m = x m

theorem extends_exhausted (y : Eval α) : Extends exhausted y :=
  fun m h => absurd rfl (h m)

theorem Extends.bind {x y : Eval α} {f g : α → Eval β} (hx : Extends x y)
    (hf : ∀ a, Extends (f a) (g a)) : Extends (x >>= f) (y >>= g) := by
  intro m h
  cases hr : x m with
  | ok a m' =>
    rw [bind_of_ok hr] at h ⊢
    have hy : y m = .ok a m' := (hx m (hr ▸ finished_ok a m')).trans hr
    rw [bind_of_ok hy]
    exact hf a m' h
  | error e m' =>
    rw [bind_of_error hr] at h ⊢
    have hend : Finished (x m) := hr ▸ finished_error.mpr (finished_error.mp h)
    exact bind_of_error ((hx m hend).trans hr) g

/-- An action between two changes of the machine. -/
theorem Extends.between {x y : Eval α} (hxy : Extends x y) {m : Machine} {back : Machine → Machine}
    (h : Finished (mapMachine back (x m))) : mapMachine back (y m) = mapMachine back (x m) := by
  refine congrArg _ (hxy m fun m' he => ?_)
  rw [he] at h
  exact h (back m') rfl

theorem Extends.within {x y : Eval α} (hxy : Extends x y) (scope : ScopeId) :
    Extends (within scope x) (within scope y) := by
  intro m h
  rw [within_eq] at h ⊢
  rw [within_eq]
  exact hxy.between h

theorem Extends.nested {x y : Eval α} (hxy : Extends x y) (t : Token) :
    Extends (nested t x) (nested t y) := by
  intro m h
  rw [nested_eq] at h ⊢
  rw [nested_eq]
  by_cases hd : maxDepth ≤ m.depth
  · rw [if_pos hd, if_pos hd]
  · rw [if_neg hd] at h
    rw [if_neg hd, if_neg hd]
    exact hxy.between h

/-- What the action finishes with the fuel `n` it finishes with one unit more. -/
def Lasts (n : Nat) (x : Nat → Eval α) : Prop :=
  Extends (x n) (x (n + 1))

theorem lasts_congruence (n : Nat) : Congruence fun {α : Type} => @Lasts α n where
  const _ _ _ := rfl
  bind hx hf := hx.bind hf
  within scope hx := hx.within scope
  nested t hx := hx.nested t

theorem extends_whileTrue {c c' : Eval Value} {b b' : Eval Flow} (hc : Extends c c')
    (hb : Extends b b') (n : Nat) : Extends (whileTrue c b n) (whileTrue c' b' (n + 1)) := by
  induction n with
  | zero => exact extends_exhausted _
  | succ n ih =>
    refine hc.bind fun v => ?_
    split
    · refine hb.bind fun flow => ?_
      cases flow with
      | normal => exact ih
      | returned v => exact fun _ _ => rfl
    · exact fun _ _ => rfl

theorem lasts (n : Nat) : (∀ e, Lasts n fun k => eval k e) ∧ ∀ s, Lasts n fun k => exec k s := by
  induction n with
  | zero =>
    refine ⟨fun e => ?_, fun s => ?_⟩
    · show Extends (eval 0 e) _
      rw [eval_zero]
      exact extends_exhausted _
    · show Extends (exec 0 s) _
      rw [exec_zero]
      exact extends_exhausted _
  | succ n ih =>
    have hrules := lasts_congruence n
    refine ⟨fun e => ?_, fun s => ?_⟩
    · show Extends (eval (n + 1) e) (eval (n + 1 + 1) e)
      rw [eval_succ, eval_succ]
      exact hrules.evalOver (hrules.runAll ih.2) ih.1 e
    · show Extends (exec (n + 1) s) (exec (n + 1 + 1) s)
      rw [exec_succ, exec_succ]
      have hloop : ∀ c s, Lasts n fun k => whileTrue (eval k c) (exec k s) k :=
        fun c s => extends_whileTrue (ih.1 c) (ih.2 s) n
      exact hrules.execOver ih.1 ih.2 hloop s fun e _ => (ih.1 e).bind fun _ _ _ => rfl

theorem Lasts.of_le {x : Nat → Eval α} (h : ∀ n, Lasts n x) {n k : Nat}
    (hle : n ≤ k) : Extends (x n) (x k) := by
  induction hle with
  | refl => exact fun _ _ => rfl
  | step _ ih =>
    intro m hm
    have hk := ih m hm
    exact (h _ m (hk ▸ hm)).trans hk

theorem eval_of_le {n k : Nat} (hle : n ≤ k) {e : Expr} {m : Machine} {r : Ending Value}
    (hr : Finished r) (h : eval n e m = r) : eval k e m = r :=
  (Lasts.of_le (fun n => (lasts n).1 e) hle m (h ▸ hr)).trans h

theorem exec_of_le {n k : Nat} (hle : n ≤ k) {s : Stmt} {m : Machine} {r : Ending Flow}
    (hr : Finished r) (h : exec n s m = r) : exec k s m = r :=
  (Lasts.of_le (fun n => (lasts n).2 s) hle m (h ▸ hr)).trans h

end Eval

/-! ## Results that some fuel leads to -/

/-- The expression, evaluated from `m`, ends with `r`. -/
def Expr.Evaluates (e : Expr) (m : Machine) (r : Ending Value) : Prop :=
  Eval.Finished r ∧ ∃ fuel, Eval.eval fuel e m = r

/-- The statement, executed from `m`, ends with `r`. -/
def Stmt.Executes (s : Stmt) (m : Machine) (r : Ending Flow) : Prop :=
  Eval.Finished r ∧ ∃ fuel, Eval.exec fuel s m = r

theorem Stmt.Executes.unique {s : Stmt} {m : Machine} {r r' : Ending Flow} (h : s.Executes m r)
    (h' : s.Executes m r') : r = r' := by
  obtain ⟨hr, n, h⟩ := h
  obtain ⟨hr', n', h'⟩ := h'
  rw [← Eval.exec_of_le (Nat.le_max_left n n') hr h,
    ← Eval.exec_of_le (Nat.le_max_right n n') hr' h']

/-! ## Blocks of two statements -/

/-- The machine in a new scope inside the current one. -/
def Machine.enter (m : Machine) : Machine :=
  { m with store := m.store.pushScope (some m.scope), scope := m.store.scopes.next }

namespace Eval

/-- The result with the machine back in a scope. -/
def backTo {α : Type} (scope : ScopeId) (r : Ending α) : Ending α :=
  mapMachine (fun m => { m with scope }) r

/-- The statement after this one is executed. -/
def Proceeds (r : Ending Flow) : Prop :=
  ∃ m, r = .ok .normal m

theorem finished_backTo {α : Type} {scope : ScopeId} {r : Ending α} :
    Finished (backTo scope r) ↔ Finished r := by
  constructor
  · rintro h m rfl
    exact h _ rfl
  · exact fun h => h.mapMachine _

theorem exec_block (n : Nat) (b : List Stmt) (m : Machine) :
    exec (n + 1) (.block b) m = backTo m.scope (runAll (exec n) b m.enter) := by
  rw [exec_succ]
  exact within_eq _ _ _

theorem runAll_singleton (ex : Stmt → Eval Flow) (s : Stmt) (m : Machine) :
    runAll ex [s] m = ex s m := by
  cases h : ex s m with
  | ok f m₁ =>
    rw [runAll, bind_of_ok h]
    cases f <;> rfl
  | error e m₁ => rw [runAll, bind_of_error h]

theorem runAll_pair (ex : Stmt → Eval Flow) (s t : Stmt) (m : Machine) :
    runAll ex [s, t] m = match ex s m with
      | .ok .normal m₁ => ex t m₁
      | r => r := by
  cases h : ex s m with
  | ok f m₁ =>
    rw [runAll, bind_of_ok h]
    cases f with
    | normal => exact runAll_singleton ex t m₁
    | returned v => rfl
  | error e m₁ => rw [runAll, bind_of_error h]

end Eval

open Eval

/-- Two statements in a block: the second follows if the first proceeds, and the block is left
for the scope around it either way. -/
theorem Stmt.executes_pair_iff {s t : Stmt} {m : Machine} {r : Ending Flow} :
    (Stmt.block [s, t]).Executes m r ↔
      (∃ m₁ r₁, s.Executes m.enter (.ok .normal m₁) ∧ t.Executes m₁ r₁ ∧ r = backTo m.scope r₁) ∨
      ∃ r₁, s.Executes m.enter r₁ ∧ ¬ Proceeds r₁ ∧ r = backTo m.scope r₁ := by
  constructor
  · rintro ⟨hr, fuel, hrun⟩
    cases fuel with
    | zero =>
      rw [exec_zero] at hrun
      exact absurd hrun.symm (hr m)
    | succ n =>
      rw [exec_block, runAll_pair] at hrun
      subst hrun
      rw [finished_backTo] at hr
      split at hr
      · next m₁ hs => exact .inl ⟨m₁, _, ⟨finished_ok _ _, n, hs⟩, ⟨hr, n, rfl⟩, rfl⟩
      · next hstop => exact .inr ⟨_, ⟨hr, n, rfl⟩, fun ⟨m₁, h⟩ => hstop m₁ h, rfl⟩
  · rintro (⟨m₁, r₁, ⟨_, n, hs⟩, ⟨hr, n', ht⟩, rfl⟩ | ⟨r₁, ⟨hr, n, hs⟩, hstop, rfl⟩)
    · refine ⟨finished_backTo.mpr hr, max n n' + 1, ?_⟩
      rw [exec_block, runAll_pair, exec_of_le (Nat.le_max_left n n') (finished_ok _ _) hs]
      exact congrArg (backTo m.scope) (exec_of_le (Nat.le_max_right n n') hr ht)
    · refine ⟨finished_backTo.mpr hr, n + 1, ?_⟩
      rw [exec_block, runAll_pair, hs]
      split
      · exact absurd ⟨_, rfl⟩ hstop
      · rfl

theorem Stmt.executes_expression_iff {e : Expr} {m : Machine} {r : Ending Flow} :
    (Stmt.expression e).Executes m r ↔ (∃ v m₁, e.Evaluates m (.ok v m₁) ∧ r = .ok .normal m₁) ∨
      ∃ x m₁, e.Evaluates m (.error x m₁) ∧ r = .error x m₁ := by
  constructor
  · rintro ⟨hr, fuel, hrun⟩
    cases fuel with
    | zero =>
      rw [exec_zero] at hrun
      exact absurd hrun.symm (hr m)
    | succ n =>
      rw [exec_succ, execOver] at hrun
      cases he : eval n e m with
      | ok v m₁ =>
        rw [bind_of_ok he] at hrun
        exact .inl ⟨v, m₁, ⟨finished_ok _ _, n, he⟩, hrun.symm⟩
      | error x m₁ =>
        rw [bind_of_error he] at hrun
        subst hrun
        exact .inr ⟨x, m₁, ⟨finished_error.mpr (finished_error.mp hr), n, he⟩, rfl⟩
  · rintro (⟨v, m₁, ⟨_, n, he⟩, rfl⟩ | ⟨x, m₁, ⟨hr, n, he⟩, rfl⟩)
    · exact ⟨finished_ok _ _, n + 1, by rw [exec_succ, execOver, bind_of_ok he]; rfl⟩
    · exact ⟨finished_error.mpr (finished_error.mp hr), n + 1, by
        rw [exec_succ, execOver, bind_of_error he]⟩

/-! ## Loops -/

/-- From `m`, after so many turns, each of them in front of a condition that held, the machine
is the last one. -/
inductive Rounds (condition : Machine → Ending Value → Prop) (turn : Machine → Ending Flow → Prop)
    (m : Machine) : Nat → Machine → Prop
  | start : Rounds condition turn m 0 m
  | again {k : Nat} {v : Value} {m₁ m₂ m₃ : Machine} : Rounds condition turn m k m₁ →
    condition m₁ (.ok v m₂) → v.truthy = true → turn m₂ (.ok .normal m₃) →
    Rounds condition turn m (k + 1) m₃

/-- A condition that does not hold or fails, or a turn after which none follows, and what the
loop ends with. -/
inductive Ceases (condition : Machine → Ending Value → Prop) (turn : Machine → Ending Flow → Prop)
    (m : Machine) : Ending Flow → Prop
  | ends {v : Value} {m₁ : Machine} : condition m (.ok v m₁) → v.truthy = false →
    Ceases condition turn m (.ok .normal m₁)
  | fails {x : Stop} {m₁ : Machine} : condition m (.error x m₁) →
    Ceases condition turn m (.error x m₁)
  | leaves {v : Value} {m₁ : Machine} {r : Ending Flow} : condition m (.ok v m₁) →
    v.truthy = true → turn m₁ r → ¬ Proceeds r → Ceases condition turn m r

theorem Rounds.cons {condition : Machine → Ending Value → Prop}
    {turn : Machine → Ending Flow → Prop} {m m₁ m₂ m₃ : Machine} {k : Nat} {v : Value}
    (hc : condition m (.ok v m₁)) (hv : v.truthy = true) (ht : turn m₁ (.ok .normal m₂))
    (h : Rounds condition turn m₂ k m₃) : Rounds condition turn m (k + 1) m₃ := by
  induction h with
  | start => exact .again .start hc hv ht
  | again _ hc' hv' ht' ih => exact .again ih hc' hv' ht'

namespace Eval

theorem whileTrue_succ (c : Eval Value) (b : Eval Flow) (n : Nat) (m : Machine) :
    whileTrue c b (n + 1) m = match c m with
      | .ok v m₁ =>
        if v.truthy then
          match b m₁ with
          | .ok .normal m₂ => whileTrue c b n m₂
          | r => r
        else .ok .normal m₁
      | .error x m₁ => .error x m₁ := by
  rw [whileTrue]
  cases hc : c m with
  | error x m₁ => rw [bind_of_error hc]
  | ok v m₁ =>
    rw [bind_of_ok hc]
    dsimp only
    split
    · cases hb : b m₁ with
      | error x m₂ => rw [bind_of_error hb]
      | ok f m₂ =>
        rw [bind_of_ok hb]
        cases f <;> rfl
    · rfl

/-- What a loop does, turn by turn. -/
theorem rounds_of_whileTrue {c : Eval Value} {b : Eval Flow} {n : Nat} {m : Machine}
    (h : Finished (whileTrue c b n m)) : ∃ k m₁,
      Rounds (fun m r => Finished r ∧ c m = r) (fun m r => Finished r ∧ b m = r) m k m₁ ∧
      Ceases (fun m r => Finished r ∧ c m = r) (fun m r => Finished r ∧ b m = r) m₁
        (whileTrue c b n m) := by
  induction n generalizing m with
  | zero => exact absurd rfl (h m)
  | succ n ih =>
    rw [whileTrue_succ] at h ⊢
    cases hc : c m with
    | error x m₁ =>
      rw [hc] at h
      dsimp only at h
      exact ⟨0, m, .start, .fails ⟨finished_error.mpr (finished_error.mp h), hc⟩⟩
    | ok v m₁ =>
      rw [hc] at h
      dsimp only at h ⊢
      have hcond : Finished (.ok v m₁) ∧ c m = .ok v m₁ := ⟨finished_ok _ _, hc⟩
      by_cases hv : v.truthy = true
      · rw [if_pos hv] at h ⊢
        split at h
        · next m₂ hb =>
          obtain ⟨k, m₃, hrep, hend⟩ := ih h
          exact ⟨k + 1, m₃, hrep.cons hcond hv ⟨finished_ok _ _, hb⟩, hend⟩
        · next hstop =>
          exact ⟨0, m, .start, .leaves hcond hv ⟨h, rfl⟩ fun ⟨m₂, hb⟩ => hstop m₂ hb⟩
      · rw [if_neg hv]
        exact ⟨0, m, .start, .ends hcond (Bool.not_eq_true _ ▸ hv)⟩

end Eval

/-- With enough fuel a loop goes through its turns. -/
theorem Rounds.exists_whileTrue {c : Expr} {s : Stmt} {m m₁ : Machine} {k : Nat}
    (h : Rounds c.Evaluates s.Executes m k m₁) : ∃ enough, ∀ n, enough ≤ n → ∀ left,
      whileTrue (eval n c) (exec n s) (left + k) m = whileTrue (eval n c) (exec n s) left m₁ := by
  induction h with
  | start => exact ⟨0, fun _ _ _ => rfl⟩
  | @again k v m₁ m₂ m₃ _ hc hv hs ih =>
    obtain ⟨enough, ih⟩ := ih
    obtain ⟨hfc, nc, hc⟩ := hc
    obtain ⟨hfs, ns, hs⟩ := hs
    refine ⟨max enough (max nc ns), fun n hn left => ?_⟩
    obtain ⟨hn, hnc, hns⟩ : enough ≤ n ∧ nc ≤ n ∧ ns ≤ n := by omega
    rw [show left + (k + 1) = left + 1 + k by omega, ih n hn, whileTrue_succ,
      eval_of_le hnc hfc hc]
    dsimp only
    rw [if_pos hv, exec_of_le hns hfs hs]

/-- With enough fuel a loop ends, if there is at least one more turn to come. -/
theorem Ceases.exists_whileTrue {c : Expr} {s : Stmt} {m : Machine} {r : Ending Flow}
    (h : Ceases c.Evaluates s.Executes m r) : Finished r ∧ ∃ enough, ∀ n, enough ≤ n → ∀ left,
      whileTrue (eval n c) (exec n s) (left + 1) m = r := by
  cases h with
  | ends hc hv =>
    obtain ⟨hf, nc, hc⟩ := hc
    refine ⟨finished_ok _ _, nc, fun n hn left => ?_⟩
    rw [whileTrue_succ, eval_of_le hn hf hc]
    simp [hv]
  | fails hc =>
    obtain ⟨hf, nc, hc⟩ := hc
    refine ⟨finished_error.mpr (finished_error.mp hf), nc, fun n hn left => ?_⟩
    rw [whileTrue_succ, eval_of_le hn hf hc]
  | leaves hc hv hs hstop =>
    obtain ⟨hfc, nc, hc⟩ := hc
    obtain ⟨hfs, ns, hs⟩ := hs
    refine ⟨hfs, max nc ns, fun n hn left => ?_⟩
    obtain ⟨hnc, hns⟩ := Nat.max_le.mp hn
    rw [whileTrue_succ, eval_of_le hnc hfc hc]
    dsimp only
    rw [if_pos hv, exec_of_le hns hfs hs]
    split
    · exact absurd ⟨_, rfl⟩ hstop
    · rfl

section

variable {condition condition' : Machine → Ending Value → Prop}
  {turn turn' : Machine → Ending Flow → Prop} (hc : ∀ m r, condition m r → condition' m r)
  (ht : ∀ m r, turn m r → turn' m r)
include hc ht

theorem Rounds.imp {m m₁ : Machine} {k : Nat} (h : Rounds condition turn m k m₁) :
    Rounds condition' turn' m k m₁ := by
  induction h with
  | start => exact .start
  | again _ hcond hv hturn ih => exact .again ih (hc _ _ hcond) hv (ht _ _ hturn)

theorem Ceases.imp {m : Machine} {r : Ending Flow} (h : Ceases condition turn m r) :
    Ceases condition' turn' m r := by
  cases h with
  | ends hcond hv => exact .ends (hc _ _ hcond) hv
  | fails hcond => exact .fails (hc _ _ hcond)
  | leaves hcond hv hturn hstop => exact .leaves (hc _ _ hcond) hv (ht _ _ hturn) hstop

end

/-- A loop goes through some turns and then ends. -/
theorem Stmt.executes_loop_iff {c : Expr} {s : Stmt} {m : Machine} {r : Ending Flow} :
    (Stmt.loop c s).Executes m r ↔
      ∃ k m₁, Rounds c.Evaluates s.Executes m k m₁ ∧ Ceases c.Evaluates s.Executes m₁ r := by
  constructor
  · rintro ⟨hr, fuel, hrun⟩
    cases fuel with
    | zero =>
      rw [exec_zero] at hrun
      exact absurd hrun.symm (hr m)
    | succ n =>
      rw [exec_succ, execOver] at hrun
      subst hrun
      obtain ⟨k, m₁, hrep, hend⟩ := rounds_of_whileTrue hr
      have hc : ∀ m r, Finished r ∧ eval n c m = r → c.Evaluates m r := fun _ _ h => ⟨h.1, n, h.2⟩
      have hs : ∀ m r, Finished r ∧ exec n s m = r → s.Executes m r := fun _ _ h => ⟨h.1, n, h.2⟩
      exact ⟨k, m₁, hrep.imp hc hs, hend.imp hc hs⟩
  · rintro ⟨k, m₁, hrep, hend⟩
    obtain ⟨enough, hrun⟩ := hrep.exists_whileTrue
    obtain ⟨hr, enough', hlast⟩ := hend.exists_whileTrue
    -- the fuel bounds the turns too, so there has to be more of it than turns
    let n := max enough enough' + 1 + k
    refine ⟨hr, n + 1, ?_⟩
    rw [exec_succ, execOver, hrun n (by omega), hlast n (by omega)]

end Treewalk
