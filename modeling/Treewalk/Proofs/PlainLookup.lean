import Treewalk.Proofs.Lookup.Runs

/-!
# Lookup along the whole chain

`evalPlain` and `execPlain` make no use of recorded distances: a variable, the target of an
assignment and a superclass are searched outward from the current scope. A program that
declares each local name at one place, apart from its globals, and that records a distance
wherever a local name occurs, runs in the same way with them (`plain_lookup_agrees`).
-/

namespace Treewalk

namespace Eval

/-! ## Evaluation without distances -/

/-- The value of a variable, searched outward. -/
def search (name : Token) : Eval Value := fun m =>
  lift (m.store.scopes.get m.scope name) m

/-- Rebinds a variable where the search outward finds it. -/
def reassign (name : Token) (v : Value) : Eval Unit := fun m =>
  match m.store.scopes.assign m.scope name v with
  | .ok scopes => .ok () { m with store := { m.store with scopes } }
  | .error d => .error (.fault d) m

def superclassPlain : Option Reference → Eval (Option ClassId)
  | none => pure none
  | some ref => do
    match ← search ref.name with
    | .cls id => pure (some id)
    | _ => fail ref.name .superclassNotClass

def declareClassPlain (name : Token) (superclass : Option Reference)
    (methods : List (Routine Stmt)) : Eval Unit := do
  declareOver name methods (← superclassPlain superclass)

/-- `evalOver` without recorded distances; `this` and `super` keep theirs. -/
def evalPlainOver (eval : Expr → Eval Value) (run : List Stmt → Eval Flow) : Expr → Eval Value
  | .var ref => search ref.name
  | .assign target value => do
    let v ← eval value
    reassign target.name v
    pure v
  | e => evalOver eval run e

def execPlainOver (eval : Expr → Eval Value) (exec : Stmt → Eval Flow) (n : Nat) : Stmt → Eval Flow
  | .classDecl name superclass methods => do
    declareClassPlain name superclass methods
    pure .normal
  | s => execOver eval exec n s

mutual

def evalPlain : Nat → Expr → Eval Value
  | 0, _ => exhausted
  | n + 1, e => evalPlainOver (evalPlain n) (runAll (execPlain n)) e

def execPlain : Nat → Stmt → Eval Flow
  | 0, _ => exhausted
  | n + 1, s => execPlainOver (evalPlain n) (execPlain n) n s

end

def interpretPlain (fuel : Nat) (program : Program) : Eval Unit :=
  flushed (runAll (execPlain fuel) program)

theorem bind_congr {α β : Type} {x y : Eval α} {m : Machine} (h : x m = y m) (f : α → Eval β) :
    (x >>= f) m = (y >>= f) m := by
  show EStateM.bind x f m = EStateM.bind y f m
  rw [EStateM.bind, EStateM.bind, h]

end Eval

/-! ## Both evaluations in step -/

section

open Correspondence

variable {G : List String} {w : (locatedRuns G).World} {κ : List (List String)} {s : ScopeId}
  {m : Machine}

theorem search_eq (hm : (locatedRuns G).Machines w s m m) (hκ : (locatedRuns G).stands w κ s)
    {r : Reference} (hr : r.Located G κ) : Eval.search r.name m = Eval.lookUp r m := by
  obtain ⟨hw, _, hb⟩ := hm.store.scopes
  rw [Eval.lookUp_eq r hm.scope, Scopes.find_eq, Eval.search, Scopes.get, hm.scope, ← hw,
    hb.owner?_eq hκ hr]

theorem reassign_eq (hm : (locatedRuns G).Machines w s m m) (hκ : (locatedRuns G).stands w κ s)
    {r : Reference} (hr : r.Located G κ) (v : Value) :
    Eval.reassign r.name v m = Eval.assign r v m := by
  obtain ⟨hw, _, hb⟩ := hm.store.scopes
  rw [Eval.assign_eq r v hm.scope, Eval.reassign, Scopes.assign, hm.scope, ← hw,
    hb.owner?_eq hκ hr]
  cases w.scopes.target? s r.depth r.name.lexeme with
  | none => rfl
  | some id => simp only [Scopes.update, hw, Store.define]

/-- The superclass is looked up before anything else happens. -/
theorem declareClassPlain_eq (hm : (locatedRuns G).Machines w s m m)
    (hκ : (locatedRuns G).stands w κ s) (name : Token) {superclass : Option Reference}
    (hr : ∀ r ∈ superclass, r.Located G κ) (methods : List (Routine Stmt)) :
    Eval.declareClassPlain name superclass methods m =
      Eval.declareClass name superclass methods m := by
  rw [Eval.declareClass_eq, Eval.declareClassPlain]
  refine Eval.bind_congr ?_ _
  cases superclass with
  | none => rfl
  | some r => exact Eval.bind_congr (search_eq hm hκ (hr r rfl)) _

variable {ev ev' : Expr → Eval Value} {ex ex' : Stmt → Eval Flow}

theorem evalPlainOver_sim (h : (locatedRuns G).Evaluators ev ev' ex ex')
    (hκ : (locatedRuns G).stands w κ s) {e : Expr} (he : e.Located G κ) :
    (locatedRuns G).Sim w s (locatedRuns G).Same (Eval.evalOver ev (Eval.runAll ex) e)
      (Eval.evalPlainOver ev' (Eval.runAll ex') e) := by
  have hover := evalOver_sim h hκ (e := e) ⟨rfl, he⟩
  cases e with
  | var r =>
    intro m m' hm
    cases locatedRuns_diagonal.machine_eq hm
    have heq : Eval.evalPlainOver ev' (Eval.runAll ex') (.var r) m = Eval.lookUp r m :=
      search_eq hm hκ he
    rw [heq]
    exact hover m m hm
  | assign r e =>
    refine sim_bind (h.eval hκ ⟨rfl, he.2⟩) fun w₁ v v' hle hv => ?_
    rw [show v = v' from hv]
    have hκ₁ := (locatedRuns G).stands_mono hle hκ
    refine sim_bind (P := (locatedRuns G).Same) (fun m m' hm => ?_) fun _ _ _ _ _ => sim_pure rfl
    cases locatedRuns_diagonal.machine_eq hm
    rw [reassign_eq hm hκ₁ he.1]
    exact assign_sim hκ₁ (e := e) ⟨rfl, he⟩ rfl v' m m hm
  | literal | group | unary | binary | logical | call | get | set | receiver | inherited => exact hover

theorem execPlainOver_sim (h : (locatedRuns G).Evaluators ev ev' ex ex')
    (hκ : (locatedRuns G).stands w κ s) {t : Stmt} (ht : t.Located G κ) (n : Nat) :
    (locatedRuns G).Sim w s ((locatedRuns G).Flows κ s) (Eval.execOver ev ex n t)
      (Eval.execPlainOver ev' ex' n t) := by
  have hover := execOver_sim h hκ (stmtParts_located ht) n
  cases t with
  | classDecl name superclass methods =>
    intro m m' hm
    cases locatedRuns_diagonal.machine_eq hm
    have hr : ∀ r ∈ superclass, r.Located G κ := by
      rintro r rfl
      exact ht.2.1
    have heq : Eval.execPlainOver ev' ex' n (.classDecl name superclass methods) m =
        Eval.execOver ev' ex' n (.classDecl name superclass methods) m :=
      Eval.bind_congr (declareClassPlain_eq hm hκ name hr methods) _
    rw [heq]
    exact hover m m hm
  | expression | print | declare | block | branch | loop | function | leave => exact hover

theorem evaluators_plain (n : Nat) : (locatedRuns G).Evaluators (Eval.eval n) (Eval.evalPlain n)
    (Eval.exec n) (Eval.execPlain n) := by
  induction n with
  | zero =>
    refine ⟨fun _ _ => ?_, fun _ _ => ?_⟩
    · rw [Eval.eval_zero, Eval.evalPlain]
      exact sim_exhausted
    · rw [Eval.exec_zero, Eval.execPlain]
      exact sim_exhausted
  | succ n ih =>
    refine ⟨fun hκ he => ?_, fun hκ ht => ?_⟩
    · obtain ⟨rfl, he⟩ := he
      rw [Eval.eval_succ, Eval.evalPlain]
      exact evalPlainOver_sim ih hκ he
    · obtain ⟨rfl, rfl, ht⟩ := ht
      rw [Eval.exec_succ, Eval.execPlain]
      exact execPlainOver_sim ih hκ ht n

end

/-! ## Programs -/

/-- Each name that is declared in some local scope is declared at one place and is no global,
and each of its occurrences has a recorded distance. -/
structure Program.SinglyDeclared (p : Program) : Prop where
  nodup : (Stmt.innerAll p).Nodup
  notGlobal : ∀ name ∈ Stmt.innerAll p, name ∉ "clock" :: Stmt.label (Stmt.declaredAll p)
  recorded : ∀ r ∈ p.occurrences, r.name.lexeme ∈ Stmt.innerAll p → r.depth ≠ none

instance (p : Program) : Decidable p.SinglyDeclared :=
  decidable_of_iff ((Stmt.innerAll p).Nodup ∧
      (∀ name ∈ Stmt.innerAll p, name ∉ "clock" :: Stmt.label (Stmt.declaredAll p)) ∧
      ∀ r ∈ p.occurrences, r.name.lexeme ∈ Stmt.innerAll p → r.depth ≠ none)
    ⟨fun h => ⟨h.1, h.2.1, h.2.2⟩, fun h => ⟨h.nodup, h.notGlobal, h.recorded⟩⟩

theorem Accepts.isLocated {source : String} {read resolved : Program}
    (h : Accepts source read resolved) (hp : resolved.SinglyDeclared) :
    Stmt.LocatedAll ("clock" :: Stmt.label (Stmt.declaredAll resolved)) [] resolved := by
  have hscoped := Program.resolve_eq_iff.mp h.scoping
  have hapart : Apart (Stmt.innerAll resolved) ("clock" :: Stmt.label (Stmt.declaredAll resolved)) []
      (Stmt.innerAll resolved) := ⟨hp.nodup, List.Subset.refl _, hp.notGlobal⟩
  have hrecorded : ∀ r ∈ Stmt.collectAll [] resolved, r.Recorded (Stmt.innerAll resolved) := by
    refine fun r hr => ⟨h.spelled _ ?_, hp.recorded r (List.mem_reverse.mpr hr)⟩
    rw [← Stmt.ScopedAll.tokens_eq hscoped]
    exact (Stmt.name_mem_tokensAll resolved hr).resolve_left nofun
  exact hscoped.isLocated (Program.bare_of_ofTokens h.syntactic) .nil hapart
    (fun n hn => List.mem_cons_of_mem _ (List.mem_map.mpr ⟨n, hn, rfl⟩)) hrecorded

/-- Looking variables up at their recorded distances and searching them outward come to the
same: the run of an accepted unit in a fresh machine ends with the same result, the same
diagnostic and the same machine, its output included. -/
theorem plain_lookup_agrees {source : String} {read resolved : Program}
    (hs : Accepts source read resolved) (hp : resolved.SinglyDeclared) (fuel : Nat) (out : Sink)
    (clock : Nat → Float) :
    Eval.interpretPlain fuel resolved (.start out clock) =
      Eval.interpret fuel resolved (.start out clock) := by
  let G := "clock" :: Stmt.label (Stmt.declaredAll resolved)
  have hm := machines_start (G := G) List.mem_cons_self out clock
  have hκ := Tagged.stands_globals ⟨(Machine.start out clock).store.scopes, fun _ => G⟩
  have hrun := Correspondence.runAll_sim (evaluators_plain fuel) hκ (stmts_located (hs.isLocated hp))
  rw [Eval.interpret_eq]
  exact (locatedRuns_diagonal.ends_eq (Correspondence.flushed_sim hrun _ _ hm)).symm

/-- A closure that assigns to a parameter around it, and a class with a local superclass. -/
theorem plain_lookup_agrees_closure :
    let source := "fun f(n) \x7b class A \x7b\x7d class B < A \x7b\x7d " ++
      "fun g() \x7b n = B; return n; \x7d g(); return g; \x7d print f(nil)();"
    let read := (Program.ofTokens (scan source).1).1
    let resolved := read.resolve.1
    Accepts source read resolved ∧ resolved.SinglyDeclared ∧
      Eval.interpretPlain 20 resolved (.start .unlimited fun _ => 0) =
        Eval.interpret 20 resolved (.start .unlimited fun _ => 0) := by
  intro source read resolved
  have h : ((scan source).2 = [] ∧ (Program.ofTokens (scan source).1).2 = [] ∧
      read.resolve.2 = []) ∧ resolved.SinglyDeclared := by decide +kernel
  have hs : Accepts source read resolved := accepts_of_faults h.1
  exact ⟨hs, h.2, plain_lookup_agrees hs h.2 20 .unlimited fun _ => 0⟩

end Treewalk
