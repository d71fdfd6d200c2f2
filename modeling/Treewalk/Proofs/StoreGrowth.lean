import Treewalk.Proofs.Evolution.Runs
import Treewalk.Proofs.Grammar.Vocabulary
import Treewalk.Proofs.Scoping.Keywords

/-!
# The store only grows

At any two moments of a history of programs, the store of the later one has all that the
earlier one had, linked as it was (`Store.Grows`), and at each of them the chain of every
scope and the line of every class come to an end (`Store.Founded`). This holds of any trees.
If they were read from source, `this` and `super` are bound once in a scope and for good.

The moments are those at which a watch can stop a run (`Eval.moment`), the end of the run
among them.
-/

namespace Treewalk

open Resolver

/-! ## Vocabularies of all trees and of written ones -/

/-- The vocabulary of all trees. -/
def Vocabulary.all : Vocabulary := ⟨fun _ => True, fun _ => True⟩

/-- The vocabulary of trees that were read: no variable is named like a reserved word. -/
def Vocabulary.written : Vocabulary := ⟨fun _ => True, fun name => ¬ Implicit name⟩

theorem Vocabulary.binds_all (t : Token) : Vocabulary.all.Binds t := ⟨trivial, trivial⟩

mutual

theorem Expr.over_all : ∀ e : Expr, e.Over .all
  | .literal v => .literal v
  | .unary _ e => .unary trivial e.over_all
  | .binary _ a b => .binary trivial a.over_all b.over_all
  | .logical _ a b => .logical trivial a.over_all b.over_all
  | .group e => .group e.over_all
  | .var _ => .var (Vocabulary.binds_all _)
  | .assign _ e => .assign (Vocabulary.binds_all _) e.over_all
  | .call f _ args => .call f.over_all trivial (Expr.over_all_list args)
  | .get o _ => .get o.over_all trivial
  | .set o _ v => .set o.over_all trivial v.over_all
  | .receiver _ => .receiver trivial
  | .inherited _ _ => .inherited trivial trivial

theorem Expr.over_all_list : ∀ es : List Expr, ∀ e ∈ es, e.Over .all
  | [] => List.forall_mem_nil _
  | e :: es => List.forall_mem_cons.mpr ⟨e.over_all, Expr.over_all_list es⟩

end

mutual

theorem Stmt.over_all : ∀ s : Stmt, s.Over .all
  | .expression e => .expression e.over_all
  | .print e => .print e.over_all
  | .declare _ _ => .declare (Vocabulary.binds_all _) fun x _ => x.over_all
  | .block b => .block (Stmt.over_all_list b)
  | .branch c s none => .branch c.over_all s.over_all nofun
  | .branch c s (some a) =>
    .branch c.over_all s.over_all fun _ h => Option.some.inj h ▸ a.over_all
  | .loop c s => .loop c.over_all s.over_all
  | .function ⟨_, _, b⟩ =>
    .function (Vocabulary.binds_all _) (fun p _ => Vocabulary.binds_all p) (Stmt.over_all_list b)
  | .leave _ _ => .leave trivial fun x _ => x.over_all
  | .classDecl _ _ ms =>
    Stmt.over_classDecl (Vocabulary.binds_all _) (fun _ _ => trivial) (Stmt.over_all_methods ms)

theorem Stmt.over_all_list : ∀ b : List Stmt, ∀ s ∈ b, s.Over .all
  | [] => List.forall_mem_nil _
  | s :: b => List.forall_mem_cons.mpr ⟨s.over_all, Stmt.over_all_list b⟩

theorem Stmt.over_all_methods : ∀ ms : List (Routine Stmt), ∀ m ∈ ms, m.Over .all
  | [] => List.forall_mem_nil _
  | ⟨_, _, b⟩ :: ms => List.forall_mem_cons.mpr
    ⟨⟨trivial, fun p _ => Vocabulary.binds_all p, Stmt.over_all_list b⟩, Stmt.over_all_methods ms⟩

end

/-- The trees that are read from source, whatever was reported, and those that resolving
makes of them. -/
inductive Program.Written : Program → Prop
  | read (source : String) : Written (Program.ofTokens (scan source).1).1
  | resolved {p : Program} : Written p → Written p.resolve.1

theorem Program.Written.over {p : Program} (h : p.Written) : p.Over .written := by
  induction h with
  | read source =>
    refine (Program.ofTokens_over (fun t ht => ⟨trivial, fun hn => ?_⟩) trivial).1
    rw [scan_fst] at ht
    rcases List.mem_append.mp ht with ht | ht
    · rintro (heq | heq)
      · exact lexeme_ne_of_name ht hn (s := .thisWord) (by decide) heq
      · exact lexeme_ne_of_name ht hn (s := .superWord) (by decide) heq
    · cases List.mem_singleton.mp ht
      cases hn
  | resolved _ ih => exact (Program.resolve_over ih).1

/-! ## Histories and their moments -/

/-- The machines that programs with `P` lead to from a new one, each run to its end or to
what stopped it. -/
inductive Machine.Reachable (P : Program → Prop) (out : Sink) (clock : Nat → Float) :
    Machine → Prop
  | start : Reachable P out clock (.start out clock)
  | run {m : Machine} {p : Program} (fuel : Nat) : Reachable P out clock m → P p →
    Reachable P out clock (Eval.after (Eval.interpret fuel p m))

/-- The machine where the watch stops the run of a program, or where the run ends. -/
def Eval.moment (watch : Watch) (fuel : Nat) (p : Program) (m : Machine) : Machine :=
  after (runAll (execWatched watch fuel) p m)

theorem Machine.Reachable.sound {P : Program → Prop} {V : Vocabulary} (hP : ∀ p, P p → p.Over V)
    {out : Sink} {clock : Nat → Float} {m : Machine} (h : m.Reachable P out clock) : m.Sound V := by
  induction h with
  | start => exact sound_start out clock
  | run fuel _ hp ih =>
    rw [Eval.interpret_eq, Eval.after_flushed]
    exact (Eval.ends_exec ih (hP _ hp) fuel).leads.sound ih

/-- From the start of a run to a moment of it, and on to a later one. -/
theorem Machine.Reachable.steps {P : Program → Prop} {V : Vocabulary} (hP : ∀ p, P p → p.Over V)
    {out : Sink} {clock : Nat → Float} {m : Machine} (hm : m.Reachable P out clock) {p : Program}
    (hp : P p) (fuel : Nat) {first later : Watch}
    (hw : ∀ n m e, later n m = some e → first n m = some e) :
    m.store.Steps V (Eval.moment first fuel p m).store ∧
      (Eval.moment first fuel p m).store.Steps V (Eval.moment later fuel p m).store :=
  (Eval.leads_program hw fuel (hm.sound hP) (hP p hp)).steps

/-- Chains come to an end: of scopes at the globals, of classes at one without a superclass,
and the search for a method at the class that has it or at the last one. -/
structure Store.Founded (s : Store) : Prop where
  chain : ∀ id < s.scopes.next, ∃ chain, s.scopes.Chain id chain
  outermost : s.scopes.parent? Machine.globals = none
  lineage : ∀ id < s.classes.size, ∃ line, s.Lineage id line
  finds : ∀ id < s.classes.size, ∀ name, s.Finds name id (s.method? id name)

theorem Store.Sound.founded {V : Vocabulary} {s : Store} (h : s.Sound V) : s.Founded :=
  ⟨fun _ => h.chain, h.rooted.parent, fun _ => h.lineage, fun _ hlt name => h.finds name hlt⟩

/-- What `this` and `super` are bound to stays. -/
def Store.KeepsImplicit (s s' : Store) : Prop :=
  ∀ id name v, Implicit name → s.scopes.value? id name = some v → s'.scopes.value? id name = some v

theorem Store.Steps.keepsImplicit {s s' : Store} (h : s.Steps .written s') : s.KeepsImplicit s' :=
  fun _ _ _ himplicit hv => Steps.fixed h (fun hn => hn himplicit) hv

/-- From a machine that any trees led to, through a run of any tree up to a moment and on to
a later one, the store only grows, and its chains come to an end throughout. For trees that
were read from source the bindings of `this` and `super` are final. -/
theorem store_only_grows {P : Program → Prop} {out : Sink} {clock : Nat → Float} {m : Machine}
    (hm : m.Reachable P out clock) {p : Program} (hp : P p) (fuel : Nat) {first later : Watch}
    (hw : ∀ n m e, later n m = some e → first n m = some e) :
    let now := (Eval.moment first fuel p m).store
    let next := (Eval.moment later fuel p m).store
    m.store.Grows now ∧ now.Grows next ∧ m.store.Founded ∧ now.Founded ∧ next.Founded ∧
      ((∀ p, P p → p.Written) → m.store.KeepsImplicit now ∧ now.KeepsImplicit next) := by
  have hall : ∀ p, P p → p.Over .all := fun p _ => Stmt.over_all_list p
  have hsound := (hm.sound hall).store
  obtain ⟨h₁, h₂⟩ := hm.steps hall hp fuel hw
  have hnow := Store.Steps.sound h₁ hsound
  refine ⟨Store.Steps.grows h₁, Store.Steps.grows h₂, hsound.founded, hnow.founded,
    (Store.Steps.sound h₂ hnow).founded, fun hwritten => ?_⟩
  obtain ⟨h₁, h₂⟩ := hm.steps (fun p hp => (hwritten p hp).over) hp fuel hw
  exact ⟨h₁.keepsImplicit, h₂.keepsImplicit⟩

/-- A class that is declared anew below its own descendant, in a program that is run again
and stopped at a superclass. -/
theorem store_only_grows_redeclared :
    let program := (Program.ofTokens (scan "class A {} class B < A {} class A < B {}").1).1
    let m := Eval.after (Eval.interpret 8 program (.start .unlimited fun _ => 0))
    let atSuperclass : Watch := fun node _ => match node with
      | .stmt (.classDecl _ (some _) _) => some .exhausted
      | _ => none
    let now := (Eval.moment atSuperclass 8 program m).store
    let next := (Eval.moment Eval.silent 8 program m).store
    (now.classes.toList.map fun c => (c.name, c.superclass)) =
      [("A", none), ("B", some 0), ("A", some 1), ("A", none)] ∧
    (next.classes.toList.map fun c => (c.name, c.superclass)) =
      [("A", none), ("B", some 0), ("A", some 1), ("A", none), ("B", some 3), ("A", some 4)] ∧
    m.store.Grows now ∧ now.Grows next ∧ m.store.Founded ∧ now.Founded ∧ next.Founded ∧
      m.store.KeepsImplicit now ∧ now.KeepsImplicit next := by
  intro program m atSuperclass now next
  have hp : program.Written := .read _
  have hm : m.Reachable Program.Written .unlimited fun _ => 0 := .run 8 .start hp
  have hw : ∀ n m e, Eval.silent n m = some e → atSuperclass n m = some e := fun _ _ _ h => nomatch h
  obtain ⟨h₁, h₂, hm', hnow, hnext, hkeeps⟩ := store_only_grows hm hp 8 hw
  obtain ⟨h₁', h₂'⟩ := hkeeps fun _ h => h
  exact ⟨by decide +kernel, by decide +kernel, h₁, h₂, hm', hnow, hnext, h₁', h₂'⟩

end Treewalk
