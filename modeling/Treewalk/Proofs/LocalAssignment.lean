import Treewalk.Proofs.ScopeAgreement

/-!
# Assigning to a local

An assignment with a recorded distance finds its variable there
(`local_assignment_succeeds`), with one exception: a variable's own initializer may
assign to the variable, which is declared by then and not yet defined. The resolver
refuses to read a variable in its initializer but does not look at assignments, so
such a unit is accepted and stops when it runs (`local_assignment_in_initializer`).
-/

namespace Treewalk

open Resolver

variable {U : Nat → Visit → Prop} {k : Nat} {κ : List (Bindings Bool)}

/-- Where the scope at its distance binds the target, an assignment rebinds it there. -/
theorem Eval.eval_assign {n : Nat} {r : Reference} {e : Expr} {now after : Machine} {value : Value}
    (he : Eval.eval n e now = .ok value after) {d : Nat} (hd : r.depth = some d) {id : ScopeId}
    (hid : after.store.scopes.ownerAt? after.scope d r.name.lexeme = some id) :
    Eval.eval (n + 1) (.assign r e) now =
      .ok value { after with store := after.store.define id r.name.lexeme value } := by
  have hassign : Eval.assign r value after =
      .ok () { after with store := after.store.define id r.name.lexeme value } := by
    simp only [Eval.assign, hd, hid]
  rw [Eval.eval_succ]
  show EStateM.bind _ _ _ = _
  rw [EStateM.bind, he]
  show EStateM.bind _ _ _ = _
  rw [EStateM.bind, hassign]
  rfl

/-- An assignment whose target may be read finds it at the recorded distance, also
once its value has been evaluated. -/
theorem ResolvedExpr.assign_finds {r : Reference} {e : Expr} (h : ResolvedExpr U k κ (.assign r e))
    {w : (resolvedRuns U).World} {s : ScopeId} {m now : Machine}
    (hm : (resolvedRuns U).Machines w s m now) (hκ : (resolvedRuns U).stands w κ s) :
    ∃ v, U k v ∧ Agrees now (.expr (.assign r e)) v ∧
      ∀ d, r.depth = some d → Readable v.scopes r.name →
        ∀ n value after, Eval.eval n e now = .ok value after →
          ∃ id, after.store.scopes.ownerAt? after.scope d r.name.lexeme = some id := by
  have hparts := exprParts_resolved h
  obtain ⟨body, scopes, e₀, hc, _, hbare, _, hs, hU⟩ := h.origin
  refine ⟨⟨.expr (.assign r e), scopes⟩, hs.of_held hU, hs.agrees (.of_machines hm hκ) hc hbare,
    fun d hd hread n value after he => ?_⟩
  rw [Expr.number] at hparts
  cases hparts with | assign _ hvalue =>
  cases hs with | assign _ =>
  cases hbare with | assign _ _ =>
  rw [located_name] at hread ⊢
  obtain ⟨names, hn, hmark⟩ := hc.marks_located hread hd
  -- evaluating the value forgets no binding
  have hends := ((resolvedRuns U).evaluators_silent n).eval hκ hvalue m now hm
  rw [he] at hends
  generalize Eval.evalRead _ _ n _ m = result at hends
  cases hends with | ok hle hm' _ =>
  have hafter : after.store.scopes.Stands κ after.scope :=
    .of_machines hm' ((resolvedRuns U).stands_mono hle hκ)
  obtain ⟨id, hid, _⟩ := (hafter.imp hc.marks).ownerAt? hn hmark
  exact ⟨id, hid⟩

/-- An assignment to a local succeeds. Whenever a run of accepted units comes to an assignment
with a recorded distance, by its number `k`, the resolver came to the node of that number with
open scopes that agree with the running ones; unless the target was still being initialized in
them, the scope at that distance binds it once the value is there, and the assignment rebinds it
and yields the value. -/
theorem local_assignment_succeeds {out : Sink} {clock : Nat → Float} {units : List Program}
    {m : Machine} (hm : Reached out clock units m) {source : String} {read resolved : Program}
    (hs : Accepts source read resolved) :
    (∃ m', NumberedReached out clock units m' ∧ m'.strip = m) ∧
    ∀ m', NumberedReached out clock units m' → m'.strip = m → ∀ fuel,
      Eval.Follows fuel (resolved.numbered units) m' resolved m ∧
      ∀ k r e now, Eval.VisitsAt fuel (resolved.numbered units) m' k (.expr (.assign r e)) now →
        ∃ v, (visitsOf (read :: units))[k]? = some v ∧ Agrees now (.expr (.assign r e)) v ∧
          ∀ d, r.depth = some d → Readable v.scopes r.name →
            ∀ n value after, Eval.eval n e now = .ok value after →
              ∃ id, after.store.scopes.ownerAt? after.scope d r.name.lexeme = some id ∧
                Eval.eval (n + 1) (.assign r e) now =
                  .ok value { after with store := after.store.define id r.name.lexeme value } := by
  refine ⟨hm.exists_numbered, ?_⟩
  rintro m' hm' rfl fuel
  refine ⟨hm'.follows hs fuel, fun k r e now hv => ?_⟩
  obtain ⟨v, hk, hagrees, hfinds⟩ := hm'.of_visitsAt hs
    (P := fun k node now => ∀ r e, node = .expr (.assign r e) →
      ∃ v, numberIn (read :: units) k v ∧ Agrees now node v ∧
        ∀ d, r.depth = some d → Readable v.scopes r.name →
          ∀ n value after, Eval.eval n e now = .ok value after →
            ∃ id, after.store.scopes.ownerAt? after.scope d r.name.lexeme = some id)
    (fun hm hκ he r e heq => by cases heq; exact he.assign_finds hm hκ)
    (fun _ _ _ _ _ heq => by cases heq) hv r e rfl
  refine ⟨v, hk, hagrees, fun d hd hread n value after he => ?_⟩
  obtain ⟨id, hid⟩ := hfinds d hd hread n value after he
  exact ⟨id, hid, Eval.eval_assign he hd hid⟩

/-- Whether a run comes to its end. -/
def Eval.completes : EStateM.Result Stop Machine Flow → Bool
  | .ok _ _ => true
  | .error _ _ => false

/-- `fun f() { var a = a = nil; } fun g() { var a; a = nil; } g();` has one and the same assignment
as number 2 and as number 7. It runs as number 7, and succeeds. -/
theorem local_assignment_succeeds_apart :
    let a : Token := ⟨.identifier, "a", 1⟩
    let f : Token := ⟨.identifier, "f", 1⟩
    let g : Token := ⟨.identifier, "g", 1⟩
    let set : Option Nat → Expr := fun depth => .assign ⟨a, depth⟩ (.literal .nil)
    let unit : Option Nat → Program := fun depth =>
      [.function ⟨f, [], [.declare a (some (set depth))]⟩,
        .function ⟨g, [], [.declare a none, .expression (set depth)]⟩,
        .expression (.call (.var ⟨g, none⟩) ⟨.symbol .rightParen, ")", 1⟩ [])]
    let start : Machine := .start .unlimited fun _ => 0
    let node (k : Nat) : Option Node := (visitsOf [unit none])[k]?.map Visit.node
    Accepts "fun f() \x7b var a = a = nil; \x7d fun g() \x7b var a; a = nil; \x7d g();"
        (unit none) (unit (some 0)) ∧
      node 2 = some (.expr (set (some 0))) ∧ node 7 = some (.expr (set (some 0))) ∧
      ∃ now id, Eval.VisitsAt 6 (Program.numbered [] (unit (some 0))) start 7
          (.expr (set (some 0))) now ∧
        Eval.eval 2 (set (some 0)) now =
          .ok .nil { now with store := now.store.define id "a" .nil } := by
  intro a f g set unit start node
  have hscan : scan "fun f() \x7b var a = a = nil; \x7d fun g() \x7b var a; a = nil; \x7d g();" =
      ([⟨.symbol .funWord, "fun", 1⟩, f, ⟨.symbol .leftParen, "(", 1⟩, ⟨.symbol .rightParen, ")", 1⟩,
      ⟨.symbol .leftBrace, "\x7b", 1⟩, ⟨.symbol .varWord, "var", 1⟩, a, ⟨.symbol .equal, "=", 1⟩, a,
      ⟨.symbol .equal, "=", 1⟩, ⟨.symbol .nilWord, "nil", 1⟩, ⟨.symbol .semicolon, ";", 1⟩,
      ⟨.symbol .rightBrace, "\x7d", 1⟩, ⟨.symbol .funWord, "fun", 1⟩, g,
      ⟨.symbol .leftParen, "(", 1⟩, ⟨.symbol .rightParen, ")", 1⟩, ⟨.symbol .leftBrace, "\x7b", 1⟩,
      ⟨.symbol .varWord, "var", 1⟩, a, ⟨.symbol .semicolon, ";", 1⟩, a, ⟨.symbol .equal, "=", 1⟩,
      ⟨.symbol .nilWord, "nil", 1⟩, ⟨.symbol .semicolon, ";", 1⟩, ⟨.symbol .rightBrace, "\x7d", 1⟩,
      g, ⟨.symbol .leftParen, "(", 1⟩, ⟨.symbol .rightParen, ")", 1⟩, ⟨.symbol .semicolon, ";", 1⟩,
      .endOfFile 1], []) := by
    decide +kernel
  have hs : Accepts "fun f() \x7b var a = a = nil; \x7d fun g() \x7b var a; a = nil; \x7d g();"
      (unit none) (unit (some 0)) := .of_tokens hscan (by cbv) rfl
  have hstop : Eval.runAll (Eval.execRead .numbers (stopAt 7) 6)
      (Program.numbered [] (unit (some 0))) start ≠
        Eval.runAll (Eval.execRead .numbers Eval.silent 6)
          (Program.numbered [] (unit (some 0))) start := by
    refine ne_of_apply_ne Eval.completes ?_
    decide +kernel
  obtain ⟨_, now, hv⟩ := Eval.exists_visitsAt hstop
  -- the node of number 7 is the assignment, and there `a` is defined
  obtain ⟨v, hk, hagrees⟩ := NumberedReached.start.agrees hs hv
  have hset : some v.node = some (.expr (set (some 0))) := congrArg (Option.map Visit.node) hk.symm
  rw [← hagrees.node_eq, Option.some.inj hset] at hv
  obtain ⟨v, hk, _, hfinds⟩ :=
    ((local_assignment_succeeds .start hs).2 start .start (Machine.strip_start _ _) 6).2 7 _ _ _ hv
  have hscopes : some v.scopes = some (bound [.empty] a) := congrArg (Option.map Visit.scopes) hk.symm
  have hread : Readable v.scopes a := by
    rw [Option.some.inj hscopes]
    rintro _ ⟨⟩
    decide
  obtain ⟨id, _, heval⟩ := hfinds 0 rfl hread 1 .nil now rfl
  exact ⟨hs, rfl, rfl, now, id, hv, heval⟩

/-- An accepted unit may stop at an assignment to a local: in `{ var a = a = "x"; }` the
target has a recorded distance, but the scope there does not bind it yet. -/
theorem local_assignment_in_initializer :
    let a : Token := ⟨.identifier, "a", 1⟩
    let start : Machine := .start .unlimited fun _ => 0
    let unit : Option Nat → Program := fun depth =>
      [.block [.declare a (some (.assign ⟨a, depth⟩ (.literal (.string "x")))), .print (.var ⟨a, depth⟩)]]
    Accepts "\x7b var a = a = \"x\"; print a; \x7d" (unit none) (unit (some 0)) ∧
      Eval.interpret 5 (unit (some 0)) start = .error (.fault (Scopes.undefined a))
        { start with store := start.store.pushScope (some 0) } := by
  intro a start unit
  have hscan : scan "\x7b var a = a = \"x\"; print a; \x7d" = ([⟨.symbol .leftBrace, "\x7b", 1⟩,
      ⟨.symbol .varWord, "var", 1⟩, a, ⟨.symbol .equal, "=", 1⟩, a, ⟨.symbol .equal, "=", 1⟩,
      ⟨.string "x", "\"x\"", 1⟩, ⟨.symbol .semicolon, ";", 1⟩, ⟨.symbol .printWord, "print", 1⟩, a,
      ⟨.symbol .semicolon, ";", 1⟩, ⟨.symbol .rightBrace, "\x7d", 1⟩, .endOfFile 1], []) := by
    decide +kernel
  exact ⟨.of_tokens hscan rfl rfl, rfl⟩

end Treewalk
