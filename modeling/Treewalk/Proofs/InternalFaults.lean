import Treewalk.Proofs.Scoping.Runs
import Treewalk.Proofs.Sequence

/-!
# Faults that accepted units never raise

Some branches of evaluation are there for trees that no accepted unit has: a `return`
outside of functions, an operator that is none, a `this` or `super` that no class is
around. The units of a session take none of them (`internal_branches_unreachable`). Nothing
catches a fault while a unit runs, so one that is raised anywhere is how the run ends.
-/

namespace Treewalk

open Resolver

/-- What a node relies on when it runs: `this` is an instance, `super` a class right around
the scope of an instance, an operator is one. -/
def Node.Relies : Node → Machine → Prop
  | .expr (.receiver k), m => ∃ o, Eval.lookUp k m = .ok (.object o) m
  | .expr (.inherited k _), m => ∃ d c o, k.depth = some (d + 1) ∧
    m.store.scopes.getAt m.scope (d + 1) k.name = .ok (.cls c) ∧
    m.store.scopes.getAt m.scope d (.named "this" k.name.line) = .ok (.object o)
  | .expr (.unary op _), _ => ∀ v, Value.unary op.kind v ≠ .error .invalidUnary
  | .expr (.binary op _ _), _ => ∀ u v, Value.binary op.kind u v ≠ .error .invalidBinary
  | _, _ => True

/-- Every initializer in the store finds its instance. -/
def Machine.Initializes (m : Machine) : Prop :=
  ∀ (id : FunctionId) (f : Closure), m.store.functions[id]? = some f → f.role = .initializer →
    ∃ o, Eval.receiverOf f m = .ok (.object o) m

variable {U : Nat → Visit → Prop} {k : Nat} {κ : List (Bindings Bool)}

theorem ResolvedExpr.relies {e : Expr} (h : ResolvedExpr U k κ e) {m : Machine}
    (hκ : m.store.scopes.Stands κ m.scope) (ht : m.store.scopes.Typed) : (Node.expr e).Relies m := by
  cases e with
  | receiver k =>
    obtain ⟨hlex, i, hi, hthis⟩ := h.receiver
    obtain ⟨o, ho⟩ := hκ.receiver ht hlex hthis
    refine ⟨o, ?_⟩
    simp only [Eval.lookUp, hi, ho]
    rfl
  | inherited k m =>
    obtain ⟨hlex, i, hi, hthis, hsuper⟩ := h.inherited
    obtain ⟨c, hc⟩ := hκ.superclass ht hlex hsuper
    obtain ⟨o, ho⟩ := hκ.receiver ht (t := .named "this" k.name.line) rfl hthis
    exact ⟨i, c, o, hi, hc, ho⟩
  | unary op e => exact h.unary_sign.unary
  | binary op a b => exact h.binary_operator.binary
  | literal | group | logical | var | assign | call | get | set => trivial

theorem Machine.Initializes.of_machines {w : (resolvedRuns U).World} {s : ScopeId}
    {m m' : Machine} (h : (resolvedRuns U).Machines w s m m') : m'.Initializes := by
  intro id f hf hrole
  have hfs := h.store.functions id
  rw [hf] at hfs
  generalize m.store.functions[id]? = g at hfs
  cases hfs with | some hfs =>
  obtain ⟨κ, hκ, _, hnames⟩ := hfs.routine
  obtain ⟨i, hi, hthis⟩ := (hnames (hfs.role.trans hrole)).2 (.inl rfl)
  cases hi
  rw [hfs.scope] at hκ
  have hw : w = m'.store.scopes := h.store.scopes.1.trans h.store.scopes.2.1
  obtain ⟨o, ho⟩ := Scopes.Stands.receiver (t := .named "this" f.routine.name.line) (hw ▸ hκ)
    (.of_machines h) rfl hthis
  refine ⟨o, ?_⟩
  simp only [Eval.receiverOf, ho]
  rfl

section Units

variable {out : Sink} {clock : Nat → Float} {units : List Program} {m : Machine} {source : String}
  {read resolved : Program}

/-- Whatever accepted units ran before, an accepted unit ends with no internal fault. -/
theorem Reached.not_internal (hm : Reached out clock units m) (hs : Accepts source read resolved)
    {fuel : Nat} {d : Diagnostic} {m' : Machine}
    (hrun : Eval.runAll (Eval.exec fuel) resolved m = .error (.fault d) m') : ¬ d.Internal := by
  obtain ⟨w, m₁, hm, hκ⟩ := hm.machines
  have hends := Correspondence.runAll_read_sim hκ (hs.stmts (held_true 0 _)) fuel m₁ m hm
  rw [hrun] at hends
  generalize Eval.runAll _ _ m₁ = result at hends
  cases hends with | error _ _ hstop =>
  cases hstop with | fault hd =>
  obtain ⟨rfl, hd⟩ := hd
  exact hd

/-- Whenever an accepted unit comes to a node, the node finds what it relies on, and so does
every initializer. -/
theorem Reached.relies (hm : Reached out clock units m) (hs : Accepts source read resolved)
    {fuel : Nat} {node : Node} {now : Machine} (hv : Eval.Visits fuel resolved m node now) :
    node.Relies now ∧ now.Initializes := by
  obtain ⟨w, m₁, hm, hκ⟩ := hm.machines
  refine resolvedRuns_numbers.image.of_visits (P := fun node m' => node.Relies m' ∧ m'.Initializes)
    ?_ (fun h _ _ => ⟨trivial, .of_machines h⟩) hm hκ (hs.stmts (held_true 0 _)) hv
  rintro w κ s _ e m m' h hκ ⟨k, _, he⟩
  exact ⟨he.relies (.of_machines h hκ) (.of_machines h), .of_machines h⟩

end Units

/-- Units in a session never take the branches that are there for broken trees. A unit is
rejected and nothing runs, or it is accepted and runs: no statement at the top level returns,
the run ends with no internal fault, and whenever it comes to a node, the node finds what it
relies on and so does every initializer. -/
theorem internal_branches_unreachable {out diagnostics : Sink} {clock : Nat → Float} {s : Session}
    (hs : Session.Opened out diagnostics clock s) (fuel : Nat) (source : String) :
    ((s.run fuel source).1 = .rejected ∧ (s.run fuel source).2.machine = s.machine) ∨
    ∃ read resolved, Accepts source read resolved ∧ s.run fuel source = s.execute fuel resolved ∧
      (∀ stmt ∈ resolved, Eval.Falls (Eval.exec fuel stmt)) ∧
      (∀ d m', Eval.runAll (Eval.exec fuel) resolved s.machine = .error (.fault d) m' →
        ¬ d.Internal) ∧
      ∀ node now, Eval.Visits fuel resolved s.machine node now →
        node.Relies now ∧ now.Initializes := by
  obtain ⟨units, hm⟩ := hs.reached
  rcases s.run_cases fuel source with hrejected | ⟨_, read, resolved, ha, hrun⟩
  · exact .inl hrejected
  · exact .inr ⟨read, resolved, ha, hrun,
      Eval.falls_of_mem fuel (Eval.exec_falls fuel) (Program.resolve_eq_iff.mp ha.scoping),
      fun _ _ h => hm.not_internal ha h, fun _ _ hv => hm.relies ha hv⟩

/-- A class whose initializer uses `super` and one whose initializer uses `this`, with
operators of both kinds. -/
theorem internal_branches_unreachable_initializers :
    let source := "class A \x7b init() \x7b this.a = !nil; \x7d \x7d " ++
      "class B < A \x7b init() \x7b super.init(); \x7d \x7d B().a == nil;"
    let s := Session.start .unlimited .unlimited fun _ => 0
    (s.run 20 source).1 = .completed ∧
    ∃ read resolved, Accepts source read resolved ∧ s.run 20 source = s.execute 20 resolved ∧
      (∀ stmt ∈ resolved, Eval.Falls (Eval.exec 20 stmt)) ∧
      (∀ d m', Eval.runAll (Eval.exec 20) resolved s.machine = .error (.fault d) m' →
        ¬ d.Internal) ∧
      ∀ node now, Eval.Visits 20 resolved s.machine node now →
        node.Relies now ∧ now.Initializes := by
  intro source s
  have hcompleted : (s.run 20 source).1 = .completed := by decide +kernel
  refine ⟨hcompleted, (internal_branches_unreachable .start 20 source).resolve_left ?_⟩
  rintro ⟨hrejected, _⟩
  cases hcompleted.symm.trans hrejected

end Treewalk
