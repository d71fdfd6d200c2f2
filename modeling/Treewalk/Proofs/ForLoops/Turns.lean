import Treewalk.Proofs.ControlState
import Treewalk.Proofs.Fuel
import Treewalk.Proofs.Sparing

/-!
# The turns of a `for` statement

A `for` statement is read as a loop inside blocks. Here it has rules of its own
(`ForLoop.Runs`), which speak about its four clauses only: the initializer is executed once in
a scope around everything else, the condition stands in front of every turn, the increment
after every turn whose body proceeds, and a body that does not proceed ends the loop. The tree
ends exactly as the rules say (`ForLoop.runs_iff`), and if the turns go on for ever it comes to
every one of them (`ForLoop.exists_visits_condition`).

A turn with an increment has a scope of its own. Nothing ever binds a name there
(`ForLoop.hollow_turn`), so from inside of it names are found where they are found from the
scope around all turns (`Scopes.Sees`).
-/

namespace Treewalk

open Eval

namespace ForLoop

/-! ## The direct loop -/

/-- The condition, which holds if it is left out. -/
inductive Condition : Option Expr → Machine → Ending Value → Prop
  | absent {m : Machine} : Condition none m (.ok (.bool true) m)
  | written {c : Expr} {m : Machine} {r : Ending Value} : c.Evaluates m r → Condition (some c) m r

/-- One turn. With an increment it has a scope of its own, and the increment is evaluated there
after a body that proceeds. -/
inductive Turn (body : Stmt) : Option Expr → Machine → Ending Flow → Prop
  | plain {m : Machine} {r : Ending Flow} : body.Executes m r → Turn body none m r
  | advances {e : Expr} {m m₁ m₂ : Machine} {v : Value} : body.Executes m.enter (.ok .normal m₁) →
    e.Evaluates m₁ (.ok v m₂) → Turn body (some e) m (backTo m.scope (.ok .normal m₂))
  | fails {e : Expr} {m m₁ m₂ : Machine} {x : Stop} : body.Executes m.enter (.ok .normal m₁) →
    e.Evaluates m₁ (.error x m₂) → Turn body (some e) m (backTo m.scope (.error x m₂))
  | leaves {e : Expr} {m : Machine} {r : Ending Flow} : body.Executes m.enter r → ¬ Proceeds r →
    Turn body (some e) m (backTo m.scope r)

/-- The turns from the first condition on, and how they end. -/
def Loops (c e : Option Expr) (body : Stmt) (m : Machine) (r : Ending Flow) : Prop :=
  ∃ k m₁, Rounds (Condition c) (Turn body e) m k m₁ ∧ Ceases (Condition c) (Turn body e) m₁ r

/-- A `for` statement. An initializer is executed in a scope around the turns, which is left
however they end; without one there is no such scope. -/
inductive Runs (c e : Option Expr) (body : Stmt) : Option Stmt → Machine → Ending Flow → Prop
  | bare {m : Machine} {r : Ending Flow} : Loops c e body m r → Runs c e body none m r
  | initialized {s : Stmt} {m m₁ : Machine} {r : Ending Flow} :
    s.Executes m.enter (.ok .normal m₁) → Loops c e body m₁ r →
    Runs c e body (some s) m (backTo m.scope r)
  | stops {s : Stmt} {m : Machine} {r : Ending Flow} : s.Executes m.enter r → ¬ Proceeds r →
    Runs c e body (some s) m (backTo m.scope r)

/-! ## The tree and the direct loop -/

theorem condition_iff {c : Option Expr} {m : Machine} {r : Ending Value} :
    (c.getD (.literal (.bool true))).Evaluates m r ↔ Condition c m r := by
  cases c with
  | some c =>
    refine ⟨.written, fun h => ?_⟩
    cases h with | written h => exact h
  | none =>
    have htrue : ∀ n, eval (n + 1) (.literal (.bool true)) m = .ok (.bool true) m := fun n => by
      rw [eval_succ]
      rfl
    constructor
    · rintro ⟨hr, fuel, rfl⟩
      cases fuel with
      | zero => exact absurd (by rw [eval_zero]; rfl) (hr m)
      | succ n =>
        rw [Option.getD_none, htrue]
        exact .absent
    · rintro ⟨⟩
      exact ⟨finished_ok _ _, 1, htrue 0⟩

/-- The body of the loop that a `for` statement is read as. -/
def turn (body : Stmt) : Option Expr → Stmt
  | none => body
  | some e => .block [body, .expression e]

theorem turn_iff {body : Stmt} {e : Option Expr} {m : Machine} {r : Ending Flow} :
    (turn body e).Executes m r ↔ Turn body e m r := by
  cases e with
  | none =>
    refine ⟨.plain, fun h => ?_⟩
    cases h with | plain h => exact h
  | some e =>
    simp only [turn, Stmt.executes_pair_iff, Stmt.executes_expression_iff]
    constructor
    · rintro (⟨m₁, r₁, hb, ⟨v, m₂, he, rfl⟩ | ⟨x, m₂, he, rfl⟩, rfl⟩ | ⟨r₁, hb, hstop, rfl⟩)
      · exact .advances hb he
      · exact .fails hb he
      · exact .leaves hb hstop
    · intro h
      cases h with
      | advances hb he => exact .inl ⟨_, _, hb, .inl ⟨_, _, he, rfl⟩, rfl⟩
      | fails hb he => exact .inl ⟨_, _, hb, .inr ⟨_, _, he, rfl⟩, rfl⟩
      | leaves hb hstop => exact .inr ⟨_, hb, hstop, rfl⟩

/-- The loop that a `for` statement is read as. -/
def loop (c e : Option Expr) (body : Stmt) : Stmt :=
  .loop (c.getD (.literal (.bool true))) (turn body e)

theorem loop_iff {c e : Option Expr} {body : Stmt} {m : Machine} {r : Ending Flow} :
    (loop c e body).Executes m r ↔ Loops c e body m r := by
  have hc := fun m r => (@condition_iff c m r)
  have ht := fun m r => (@turn_iff body e m r)
  rw [loop, Stmt.executes_loop_iff]
  constructor
  · rintro ⟨k, m₁, hrounds, hend⟩
    exact ⟨k, m₁, hrounds.imp (fun m r => (hc m r).mp) (fun m r => (ht m r).mp),
      hend.imp (fun m r => (hc m r).mp) (fun m r => (ht m r).mp)⟩
  · rintro ⟨k, m₁, hrounds, hend⟩
    exact ⟨k, m₁, hrounds.imp (fun m r => (hc m r).mpr) (fun m r => (ht m r).mpr),
      hend.imp (fun m r => (hc m r).mpr) (fun m r => (ht m r).mpr)⟩

theorem forLoop_eq (init : Option Stmt) (c e : Option Expr) (body : Stmt) :
    Stmt.forLoop init c e body =
      match init with
      | none => loop c e body
      | some s => .block [s, loop c e body] := by
  cases init <;> cases e <;> rfl

/-- The tree of a `for` statement ends exactly as the statement does. -/
theorem runs_iff {init : Option Stmt} {c e : Option Expr} {body : Stmt} {m : Machine}
    {r : Ending Flow} : (Stmt.forLoop init c e body).Executes m r ↔ Runs c e body init m r := by
  rw [forLoop_eq]
  cases init with
  | none =>
    rw [loop_iff]
    refine ⟨.bare, fun h => ?_⟩
    cases h with | bare h => exact h
  | some s =>
    simp only [Stmt.executes_pair_iff, loop_iff]
    constructor
    · rintro (⟨m₁, r₁, hs, hloop, rfl⟩ | ⟨r₁, hs, hstop, rfl⟩)
      · exact .initialized hs hloop
      · exact .stops hs hstop
    · intro h
      cases h with
      | initialized hs hloop => exact .inl ⟨_, _, hs, hloop, rfl⟩
      | stops hs hstop => exact .inr ⟨_, hs, hstop, rfl⟩

end ForLoop

/-! ## Scopes that get no name -/

theorem Stmt.Executes.scope_eq {s : Stmt} {m : Machine} {r : Ending Flow} (h : s.Executes m r) :
    (after r).scope = m.scope := by
  obtain ⟨_, fuel, rfl⟩ := h
  exact (restores_of_tracks (fun k => (tracks_framed _ fuel k).2 s) m).scope

theorem Expr.Evaluates.scope_eq {e : Expr} {m : Machine} {r : Ending Value}
    (h : e.Evaluates m r) : (after r).scope = m.scope := by
  obtain ⟨_, fuel, rfl⟩ := h
  exact (restores_of_tracks (fun k => (tracks_framed _ fuel k).1 e) m).scope

/-- The scope `k` is directly inside `outer` and binds nothing. -/
structure Scopes.Hollow (σ : Scopes) (k outer : ScopeId) : Prop where
  lt : k < σ.next
  parent : σ.parent? k = some outer
  binds : ∀ name, σ.binds k name = false

theorem Scopes.Spares.hollow {σ σ' : Scopes} {k outer : ScopeId} (h : σ.Spares k σ')
    (hk : σ.Hollow k outer) : σ'.Hollow k outer :=
  ⟨Nat.lt_of_lt_of_le hk.lt h.next, h.parent.trans hk.parent,
    fun name => (h.binds name).trans (hk.binds name)⟩

theorem Machine.hollow_enter (m : Machine) :
    m.enter.store.scopes.Hollow m.store.scopes.next m.scope := by
  refine ⟨?_, ?_, fun name => ?_⟩
  · show _ < Scopes.next (Scopes.push ..)
    rw [Scopes.next_push]
    exact Nat.lt_succ_self _
  · show Scopes.parent? (Scopes.push ..) _ = _
    rw [Scopes.parent?_push, if_pos rfl]
  · show Scopes.binds (Scopes.push ..) _ _ = _
    rw [Scopes.binds, Scopes.value?_push, Scopes.value?_of_next_le (Nat.le_refl _)]
    rfl

/-- Whatever is run from `m` on, stopped anywhere and in any scopes but `k`, leads to the
machine. -/
inductive Machine.Later (k : ScopeId) (m : Machine) : Machine → Prop
  | now : m.Later k m
  | run {m' : Machine} (w : Watch) (fuel : Nat) (s : Stmt) : m.Later k m' → m'.scope ≠ k →
    m.Later k (after (execWatched w fuel s m'))
  | move {m' m'' : Machine} : m.Later k m' → m''.store = m'.store → m.Later k m''

theorem Machine.Later.hollow {k outer : ScopeId} {m m' : Machine} (h : m.Later k m')
    (hk : m.store.scopes.Hollow k outer) : m'.store.scopes.Hollow k outer := by
  induction h with
  | now => exact hk
  | run w fuel s _ hne ih =>
    exact (((spares_run w fuel k False).2 s False.elim _ ih.lt hne).scopes).hollow ih
  | move _ hstore ih => exact hstore ▸ ih

/-- From the scopes inside `k` everything outside of it looks as it does from `outer`: names are
read and assigned in the same scopes. -/
def Scopes.Sees (σ : Scopes) (k outer : ScopeId) : Prop :=
  ∀ scope j, σ.ancestor? scope j = some k → ∀ d (t : Token),
    σ.getAt scope (j + 1 + d) t = σ.getAt outer d t ∧
    σ.ownerAt? scope (j + 1 + d) t.lexeme = σ.ownerAt? outer d t.lexeme

theorem Scopes.ancestor?_add (σ : Scopes) (scope : ScopeId) (a b : Nat) :
    σ.ancestor? scope (a + b) = (σ.ancestor? scope a).bind fun s => σ.ancestor? s b := by
  induction a generalizing scope with
  | zero => rw [Nat.zero_add]; rfl
  | succ a ih =>
    rw [Nat.add_right_comm, ancestor?, ancestor?, Option.bind_assoc]
    exact congrArg _ (funext ih)

theorem Scopes.sees_of_parent? {σ : Scopes} {k outer : ScopeId} (h : σ.parent? k = some outer) :
    σ.Sees k outer := by
  intro scope j hj d t
  have hsame : σ.ancestor? scope (j + 1 + d) = σ.ancestor? outer d := by
    rw [Nat.add_assoc, ancestor?_add, hj, Nat.add_comm 1, Option.bind_some, ancestor?, h,
      Option.bind_some]
  have howner : σ.ownerAt? scope (j + 1 + d) t.lexeme = σ.ownerAt? outer d t.lexeme := by
    rw [ownerAt?, ownerAt?, hsame]
  exact ⟨by rw [getAt, getAt, howner], howner⟩

namespace ForLoop

variable {init : Option Stmt} {c e : Option Expr} {body : Stmt}

/-- The machine in front of the first condition. -/
inductive Starts : Option Stmt → Machine → Machine → Prop
  | bare {m : Machine} : Starts none m m
  | initialized {s : Stmt} {m m₁ : Machine} : s.Executes m.enter (.ok .normal m₁) →
    Starts (some s) m m₁

/-- The scope that the turns of a `for` statement are in. -/
def scope (init : Option Stmt) (m : Machine) : ScopeId :=
  match init with
  | none => m.scope
  | some _ => m.store.scopes.next

theorem Starts.scope_eq {m m₁ : Machine} (h : Starts init m m₁) : m₁.scope = scope init m := by
  cases h with
  | bare => rfl
  | initialized h => exact h.scope_eq

theorem Condition.scope_eq {m : Machine} {r : Ending Value} (h : Condition c m r) :
    (after r).scope = m.scope := by
  cases h with
  | absent => rfl
  | written h => exact h.scope_eq

theorem Turn.scope_eq {m : Machine} {r : Ending Flow} (h : Turn body e m r) :
    (after r).scope = m.scope := by
  cases h with
  | plain h => exact h.scope_eq
  | advances | fails => rfl
  | @leaves _ _ r => cases r <;> rfl

/-- All turns are in one scope. -/
theorem scope_of_rounds {m m₁ : Machine} {k : Nat}
    (h : Rounds (Condition c) (Turn body e) m k m₁) : m₁.scope = m.scope := by
  induction h with
  | start => rfl
  | again _ hc _ ht ih => exact (ht.scope_eq.trans hc.scope_eq).trans ih

theorem inert_forLoop (h : body.Inert) : (Stmt.forLoop init c e body).Inert := by
  rw [forLoop_eq]
  cases init with
  | some s => trivial
  | none =>
    cases e with
    | some e => trivial
    | none => exact h

/-- Nothing that runs in the scope of a turn binds a name there, and nothing that runs later. -/
theorem hollow_turn (h : body.Inert) {e : Expr} {m m' : Machine} {w : Watch} {fuel : Nat}
    (hlater : (after (runAll (execWatched w fuel) [body, .expression e] m.enter)).Later
      m.store.scopes.next m') : m'.store.scopes.Hollow m.store.scopes.next m.scope := by
  refine hlater.hollow ?_
  have hinert : ∀ s ∈ [body, .expression e], True → s.Inert := by
    intro s hs _
    rcases List.mem_pair.mp hs with rfl | rfl
    · exact h
    · trivial
  have hsp := spares_runAll fun s hs =>
    (spares_run w fuel m.store.scopes.next True).2 s (hinert s hs)
  exact (hsp m.enter m.hollow_enter.lt fun _ => trivial).scopes.hollow m.hollow_enter

end ForLoop

/-! ## Every turn is a part of the run -/

section

variable {node : Node} {now : Machine} {stop : Stop} {w : Watch}
  (hat : w node now = some stop) (honly : ∀ n m, w n m ≠ none → n = node ∧ m = now)
include hat honly

/-- A watch that stops at one moment only changes nothing, or it stops the action. -/
theorem Eval.Heeds.unchanged_or_error {α : Type} {x : Watch → Eval α} (hx : Heeds x)
    (m : Machine) : x w m = x silent m ∨ ∃ m', x w m = .error stop m' := by
  have hwithin : w.Within fun n m => n = node ∧ m = now := honly
  cases hx (fun n m => n = node ∧ m = now) m with
  | unchanged h => exact .inl (h w hwithin)
  | stopped hD h =>
    obtain ⟨rfl, rfl⟩ := hD
    exact .inr ⟨_, h w stop hwithin hat⟩

theorem Eval.exec_or_error (n : Nat) (s : Stmt) (m : Machine) :
    execWatched w n s m = exec n s m ∨ ∃ m', execWatched w n s m = .error stop m' := by
  rw [← (watched_eq n).2 s]
  exact ((heeds_watched n).2 s).unchanged_or_error hat honly m

theorem Eval.eval_or_error (n : Nat) (e : Expr) (m : Machine) :
    evalWatched w n e m = eval n e m ∨ ∃ m', evalWatched w n e m = .error stop m' := by
  rw [← (watched_eq n).1 e]
  exact ((heeds_watched n).1 e).unchanged_or_error hat honly m

end

/-- With enough fuel a watched loop goes through its turns, or it is stopped there. -/
theorem Rounds.exists_watched {c : Expr} {s : Stmt} {m m₁ : Machine} {k : Nat}
    (h : Rounds c.Evaluates s.Executes m k m₁) : ∃ enough, ∀ n, enough ≤ n →
      ∀ (node : Node) (now : Machine) (stop : Stop) (w : Watch), w node now = some stop →
      (∀ n m, w n m ≠ none → n = node ∧ m = now) → ∀ left,
      let run := whileTrue (evalWatched w n c) (execWatched w n s)
      run (left + k) m = run left m₁ ∨ ∃ m', run (left + k) m = .error stop m' := by
  induction h with
  | start => exact ⟨0, fun _ _ _ _ _ _ _ _ _ => .inl rfl⟩
  | @again k v m₁ m₂ m₃ _ hc hv hs ih =>
    obtain ⟨enough, ih⟩ := ih
    obtain ⟨hfc, nc, hc⟩ := hc
    obtain ⟨hfs, ns, hs⟩ := hs
    refine ⟨max enough (max nc ns), fun n hn node now stop w hat honly left => ?_⟩
    intro run
    obtain ⟨hn, hnc, hns⟩ : enough ≤ n ∧ nc ≤ n ∧ ns ≤ n := by omega
    have hone : run (left + 1) m₁ = run left m₃ ∨ ∃ m', run (left + 1) m₁ = .error stop m' := by
      dsimp only [run]
      rw [whileTrue_succ]
      rcases eval_or_error hat honly n c m₁ with he | ⟨m', he⟩
      · rw [he, eval_of_le hnc hfc hc]
        dsimp only
        rw [if_pos hv]
        rcases exec_or_error hat honly n s m₂ with he | ⟨m', he⟩
        · rw [he, exec_of_le hns hfs hs]
          exact .inl rfl
        · rw [he]
          exact .inr ⟨m', rfl⟩
      · rw [he]
        exact .inr ⟨m', rfl⟩
    rw [show left + (k + 1) = left + 1 + k by omega]
    rcases ih n hn node now stop w hat honly (left + 1) with hturns | hstopped
    · rw [show run (left + 1 + k) m = run (left + 1) m₁ from hturns]
      exact hone
    · exact .inr hstopped

namespace ForLoop

variable {init : Option Stmt} {c e : Option Expr} {body : Stmt}

/-- A watch at the condition of a loop stops it there. -/
theorem exists_stopped {m m₁ : Machine} {k : Nat} (h : Rounds (Condition c) (Turn body e) m k m₁) :
    ∃ enough, ∀ n, enough ≤ n → ∀ (stop : Stop) (w : Watch),
      w (.expr (c.getD (.literal (.bool true)))) m₁ = some stop →
      (∀ n m, w n m ≠ none → n = .expr (c.getD (.literal (.bool true))) ∧ m = m₁) →
      ∃ m', execWatched w n (loop c e body) m = .error stop m' := by
  obtain ⟨enough, hrun⟩ := Rounds.exists_watched
    (h.imp (fun m r => (@condition_iff c m r).mpr) fun m r => (@turn_iff body e m r).mpr)
  refine ⟨enough + k + 3, fun n hn stop w hat honly => ?_⟩
  obtain ⟨left, rfl⟩ : ∃ left, n = left + 1 + 1 + k + 1 := ⟨n - k - 3, by omega⟩
  have hsilent : w (.stmt (loop c e body)) m = none :=
    Classical.byContradiction fun hw => by cases (honly _ _ hw).1
  rw [execWatched, watched_of_none _ hsilent, loop, execOver]
  rcases hrun (left + 1 + 1 + k) (by omega) _ m₁ stop w hat honly (left + 1 + 1) with
    hturns | hstopped
  · rw [hturns, whileTrue_succ, show left + 1 + 1 + k = (left + 1 + k) + 1 by omega, evalWatched,
      watched, hat]
    exact ⟨m₁, rfl⟩
  · exact hstopped

/-- The run of a `for` statement comes to the condition in front of every turn, whether or not
there is an end to the turns. -/
theorem exists_visits_condition {m m₁ m₂ : Machine} {k : Nat} (hstart : Starts init m m₁)
    (hrounds : Rounds (Condition c) (Turn body e) m₁ k m₂) :
    ∃ fuel, Visits fuel [.forLoop init c e body] m
      (.expr (c.getD (.literal (.bool true)))) m₂ := by
  classical
  obtain ⟨enough, hstop⟩ := exists_stopped hrounds
  -- a watch at this moment only, whatever it stops the run with
  have hstopped : ∃ fuel, ∀ (stop : Stop) (w : Watch),
      w (.expr (c.getD (.literal (.bool true)))) m₂ = some stop →
      (∀ n m, w n m ≠ none → n = .expr (c.getD (.literal (.bool true))) ∧ m = m₂) →
      ∃ m', execWatched w fuel (.forLoop init c e body) m = .error stop m' := by
    rw [forLoop_eq]
    cases hstart with
    | bare => exact ⟨enough, hstop enough (Nat.le_refl _)⟩
    | @initialized s _ _ hs =>
      obtain ⟨hf, n, hs⟩ := hs
      refine ⟨max enough n + 1, fun stop w hat honly => ?_⟩
      have hsilent : w (.stmt (.block [s, loop c e body])) m = none :=
        Classical.byContradiction fun hw => by cases (honly _ _ hw).1
      obtain ⟨m', hloop⟩ := hstop (max enough n) (Nat.le_max_left _ _) stop w hat honly
      rw [execWatched, watched_of_none _ hsilent]
      show ∃ m', within _ (runAll (execWatched w (max enough n)) _) _ = _
      simp only [within_eq]
      show ∃ m', backTo _ (runAll (execWatched w (max enough n)) [s, loop c e body] m.enter) = _
      rw [runAll_pair]
      rcases exec_or_error hat honly (max enough n) s m.enter with he | ⟨m'', he⟩
      · rw [he, exec_of_le (Nat.le_max_right _ _) hf hs]
        dsimp only
        rw [hloop]
        exact ⟨_, rfl⟩
      · rw [he]
        exact ⟨_, rfl⟩
  obtain ⟨fuel, hstopped⟩ := hstopped
  obtain ⟨stop, hne⟩ := exists_stop_ne (runAll (exec fuel) [.forLoop init c e body] m)
  let w : Watch := fun n m' =>
    if n = .expr (c.getD (.literal (.bool true))) ∧ m' = m₂ then some stop else none
  have honly : ∀ n m', w n m' ≠ none → n = .expr (c.getD (.literal (.bool true))) ∧ m' = m₂ :=
    fun n m' hn => Classical.byContradiction fun hne => hn (if_neg hne)
  refine ⟨fuel, w, honly, fun heq => ?_⟩
  obtain ⟨m', he⟩ := hstopped stop w (if_pos ⟨rfl, rfl⟩) honly
  rw [runAll, bind_of_error he] at heq
  exact hne m' heq.symm

end ForLoop

end Treewalk
