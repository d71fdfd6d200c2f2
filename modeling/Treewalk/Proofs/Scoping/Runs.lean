import Treewalk.Proofs.Scoping.Chains
import Treewalk.Proofs.Scoping.Keywords

/-!
# Runs of resolved programs

What is known at every moment of a run of accepted units, as a correspondence of the run
of the numbered units with the run itself (`resolvedRuns`): a context is a stack of open
scopes, a piece of numbered code is related to the code in the contexts that the resolver
came to it in, with that number (`ResolvedExpr`, `ResolvedStmt`), and a context stands at
a running scope if the chain from there binds its marks (`Scopes.Stands`). Closures in the
store keep the context they were declared in, so the general simulation carries the
invariant through every later call and through later units.

The numbers change nothing (`NumberedReached.strip`, `NumberedReached.follows`), and the
number of a node that runs is that of its visit.

Scopes bind `this` to instances and `super` to classes (`Scopes.Typed`), and both are
looked up only where they are marked. So of the faults that turn on the form of a tree
only undefined variables are left (`Diagnostic.Internal`).
-/

namespace Treewalk

open Resolver

/-! ## What was resolved -/

/-- The open scopes `κ'` mark at most what `κ` does, and only the innermost may
have a declaration that is not complete. -/
structure Covers (κ κ' : List (Bindings Bool)) : Prop where
  marks : List.Forall₂ (fun names names' => ∀ name,
    names'.get? name = some true → names.get? name = some true) κ κ'
  settled : Settled κ'.tail

/-- An expression as it was read and as it was resolved. All visits on the way are
among those that `U` holds of, with the numbers from `k` on. -/
structure Expr.Resolves (U : Nat → Visit → Prop) (k : Nat) (body : ClassBody)
    (κ : List (Bindings Bool)) (e e' : Expr) : Prop where
  bare : e.Bare
  spelled : ∀ t ∈ e.tokens, t.Spelled
  scoping : Expr.Scoped body κ e e'
  visits : Held U k (e.visits body ⟨κ, []⟩)

structure Stmt.Resolves (U : Nat → Visit → Prop) (k : Nat) (place : Place)
    (κ : List (Bindings Bool)) (s s' : Stmt) (κ' : List (Bindings Bool)) : Prop where
  bare : s.Bare
  spelled : ∀ t ∈ s.tokens, t.Spelled
  scoping : Stmt.Scoped place κ s s' κ'
  visits : Held U k (s.visits place ⟨κ, []⟩)

/-- An expression that was resolved under open scopes that `κ` covers, as number `k`. -/
structure ResolvedExpr (U : Nat → Visit → Prop) (k : Nat) (κ : List (Bindings Bool))
    (e : Expr) : Prop where
  origin : ∃ body scopes e₀, Covers κ scopes ∧ Placed body scopes ∧
    Expr.Resolves U k body scopes e₀ e

structure ResolvedStmt (U : Nat → Visit → Prop) (k : Nat) (κ : List (Bindings Bool)) (s : Stmt)
    (κ' : List (Bindings Bool)) : Prop where
  settled : Settled κ
  origin : ∃ place s₀, Placed (Place.classBody place) κ ∧ Stmt.Resolves U k place κ s₀ s κ'

/-- `this` and `super` are used at the distance of a scope that binds them, and are not
declared. -/
def resolvedLikeness (U : Nat → Visit → Prop) : Likeness where
  Ctx := List (Bindings Bool)
  reading := .numbers
  token _ := Eq
  names κ d t t' := t = t' ∧ (Implicit t.lexeme → ∃ i, d = some i ∧ Shows κ i t.lexeme)
  expr κ x e := ∃ k, x = e.number id k ∧ ResolvedExpr U k κ e
  stmt κ x s κ' := ∃ k, x = s.number id k ∧ ResolvedStmt U k κ s κ'
  declares κ n n' κ' := n = n' ∧ ¬ Implicit n.lexeme ∧ κ' = bound κ n
  opens κ κ₀ := κ₀ = .empty :: κ
  enters κ ps ps' κ₀ := ps = ps' ∧ (∀ p ∈ ps, ¬ Implicit p.lexeme) ∧ Params (.empty :: κ) ps κ₀
  receives κ := thisScope :: κ
  inherits κ := superScope :: κ

variable {U : Nat → Visit → Prop} {k : Nat} {κ κ' : List (Bindings Bool)}

theorem Covers.refl (h : Settled κ) : Covers κ κ :=
  ⟨List.forall₂_same.mpr fun _ _ _ h => h, fun names hn => h names (List.mem_of_mem_tail hn)⟩

/-- While a variable is initialized it is declared and not marked. -/
theorem covers_mark (h : Settled κ) {name : Token} (hf : Fresh κ name) :
    Covers κ (mark κ name false) := by
  cases κ with
  | nil => exact .refl h
  | cons scope rest =>
    refine ⟨.cons (fun key hk => ?_) (List.forall₂_same.mpr fun _ _ _ h => h), h.tail⟩
    rw [Bindings.get?_insert] at hk
    split at hk
    · cases hk
    · exact hk

theorem Covers.shows (h : Covers κ κ') {i : Nat} {name : String} (hs : Shows κ' i name) :
    Shows κ i name := by
  obtain ⟨names', hi, hn⟩ := hs
  obtain ⟨names, hi', hmarks⟩ : ∃ names, κ[i]? = some names ∧ ∀ name,
      names'.get? name = some true → names.get? name = some true := by
    have hm := h.marks
    clear h
    induction hm generalizing i with
    | nil => simp at hi
    | @cons names _ κ _ hm _ ih =>
      cases i with
      | zero =>
        obtain rfl : _ = names' := by simpa using hi
        exact ⟨names, rfl, hm⟩
      | succ i => exact ih (by simpa using hi)
  exact ⟨names, hi', hmarks name hn⟩

/-! ## Its parts -/

/-- A variable is not named `this` or `super`. -/
theorem ref_variable {r : Reference} (h : ¬ Implicit r.name.lexeme) :
    (resolvedLikeness U).Ref κ r r :=
  ⟨rfl, rfl, fun himplicit => absurd himplicit h⟩

namespace ResolvedExpr

theorem assign_name {r : Reference} {e : Expr} (h : ResolvedExpr U k κ (.assign r e)) :
    ¬ Implicit r.name.lexeme := by
  obtain ⟨body, scopes, e₀, hc, hp, hbare, ht, hs, hU⟩ := h.origin
  cases hs with | assign _ =>
  cases hbare with | assign hn _ =>
  rw [located_name]
  exact not_implicit (ht _ List.mem_cons_self) hn

theorem receiver {r : Reference} (h : ResolvedExpr U k κ (.receiver r)) :
    r.name.lexeme = "this" ∧ ∃ i, r.depth = some i ∧ Shows κ i "this" := by
  obtain ⟨body, scopes, e₀, hc, hp, hbare, ht, hs, hU⟩ := h.origin
  cases hs with | receiver hbody =>
  cases hbare with | receiver hk =>
  have hlex := (ht _ List.mem_cons_self).symbol hk
  obtain ⟨i, hi, hthis⟩ := hp.receiver hbody hlex
  rw [located_name]
  exact ⟨hlex, i, hi, hc.shows hthis⟩

theorem inherited {r : Reference} {m : Token} (h : ResolvedExpr U k κ (.inherited r m)) :
    r.name.lexeme = "super" ∧
      ∃ i, r.depth = some (i + 1) ∧ Shows κ i "this" ∧ Shows κ (i + 1) "super" := by
  obtain ⟨body, scopes, e₀, hc, hp, hbare, ht, hs, hU⟩ := h.origin
  cases hs with | inherited hbody =>
  cases hbare with | inherited _ hk =>
  subst hbody
  have hlex := (ht _ List.mem_cons_self).symbol hk
  obtain ⟨i, hi, hthis, hsuper⟩ := hp.inherited hlex
  rw [located_name]
  exact ⟨hlex, i, hi, hc.shows hthis, hc.shows hsuper⟩

theorem unary_sign {op : Token} {e : Expr} (h : ResolvedExpr U k κ (.unary op e)) : op.IsSign := by
  obtain ⟨body, scopes, e₀, hc, hp, hbare, ht, hs, hU⟩ := h.origin
  cases hs with | unary _ =>
  cases hbare with | unary hop _ => exact hop

theorem binary_operator {op : Token} {a b : Expr} (h : ResolvedExpr U k κ (.binary op a b)) :
    op.IsOperator := by
  obtain ⟨body, scopes, e₀, hc, hp, hbare, ht, hs, hU⟩ := h.origin
  cases hs with | binary _ _ =>
  cases hbare with | binary hop _ _ => exact hop

end ResolvedExpr

theorem exprs_resolved {body : ClassBody} {scopes : List (Bindings Bool)} (hc : Covers κ scopes)
    (hp : Placed body scopes) {es₀ es : List Expr} (h : Expr.ScopedAll body scopes es₀ es)
    (hb : ∀ a ∈ es₀, a.Bare) (ht : ∀ t ∈ Expr.tokensAll es₀, t.Spelled)
    (hU : Held U k (Expr.visitsAll body ⟨scopes, []⟩ es₀)) :
    List.Forall₂ ((resolvedLikeness U).expr κ) (Expr.numberAll id k es) es := by
  induction es₀ generalizing es k with
  | nil =>
    cases h
    exact .nil
  | cons e₀ es₀ ih =>
    cases h with | cons he hes =>
    rw [Expr.visitsAll, he.resolve_eq, held_append, he.length_visits] at hU
    rw [Expr.tokensAll, List.forall_mem_append] at ht
    obtain ⟨hbe, hbes⟩ := List.forall_mem_cons.mp hb
    rw [Expr.numberAll]
    exact .cons ⟨k, rfl, body, scopes, _, hc, hp, hbe, ht.1, he, hU.1⟩ (ih hes hbes ht.2 hU.2)

theorem exprParts_resolved {e : Expr} (h : ResolvedExpr U k κ e) :
    (resolvedLikeness U).ExprParts κ (CodeReading.numbers.expr (e.number id k)) e := by
  obtain ⟨body, scopes, e₀, hc, hp, hbare, ht, hs, hU⟩ := h.origin
  -- the resolver comes to the parts with the same open scopes
  have part : ∀ {a₀ a k}, a₀.Bare → (∀ t ∈ a₀.tokens, t.Spelled) → Expr.Scoped body scopes a₀ a →
      Held U k (a₀.visits body ⟨scopes, []⟩) → (resolvedLikeness U).expr κ (a.number id k) a :=
    fun hb ht ha hv => ⟨_, rfl, body, scopes, _, hc, hp, hb, ht, ha, hv⟩
  cases hs with
  | literal v =>
    rw [Expr.number]
    exact .literal v
  | var _ =>
    cases hbare with | var hn =>
    rw [Expr.number]
    refine .var (ref_variable ?_)
    rw [located_name]
    exact not_implicit (ht _ List.mem_cons_self) hn
  | receiver _ =>
    obtain ⟨hlex, i, hi, hthis⟩ := h.receiver
    rw [Expr.number]
    exact .receiver ⟨rfl, rfl, fun _ => ⟨i, hi, hlex ▸ hthis⟩⟩
  | inherited _ =>
    obtain ⟨hlex, i, hi, hthis, hsuper⟩ := h.inherited
    rw [Expr.number]
    refine .inherited ⟨rfl, rfl, fun _ => ⟨i + 1, hi, hlex ▸ hsuper⟩⟩ rfl (fun d hd => ?_) rfl
    obtain rfl : i = d := by simpa [hi] using hd
    exact ⟨rfl, fun _ => ⟨i, rfl, hthis⟩⟩
  | group he =>
    cases hbare with | group hb =>
    rw [Expr.visits, held_cons] at hU
    rw [Expr.number]
    exact .group (part hb ht he hU.2)
  | unary he =>
    cases hbare with | unary _ hb =>
    rw [Expr.visits, held_cons] at hU
    rw [Expr.number]
    exact .unary rfl (part hb (List.forall_mem_cons.mp ht).2 he hU.2)
  | get he =>
    cases hbare with | get hb =>
    rw [Expr.visits, held_cons] at hU
    rw [Expr.number]
    exact .get (part hb (List.forall_mem_cons.mp ht).2 he hU.2) rfl
  | assign he =>
    cases hbare with | assign _ hb =>
    rw [Expr.visits, held_cons] at hU
    rw [Expr.number]
    exact .assign (ref_variable h.assign_name) (part hb (List.forall_mem_cons.mp ht).2 he hU.2)
  | binary ha hb =>
    cases hbare with | binary _ hba hbb =>
    rw [Expr.visits, ha.resolve_eq, held_cons, held_append, ha.length_visits] at hU
    rw [Expr.tokens, List.forall_mem_cons, List.forall_mem_append] at ht
    rw [Expr.number]
    exact .binary rfl (part hba ht.2.1 ha hU.2.1) (part hbb ht.2.2 hb hU.2.2)
  | logical ha hb =>
    cases hbare with | logical hba hbb =>
    rw [Expr.visits, ha.resolve_eq, held_cons, held_append, ha.length_visits] at hU
    rw [Expr.tokens, List.forall_mem_cons, List.forall_mem_append] at ht
    rw [Expr.number]
    exact .logical rfl (part hba ht.2.1 ha hU.2.1) (part hbb ht.2.2 hb hU.2.2)
  | set ho hv =>
    cases hbare with | set hbo hbv =>
    rw [Expr.visits, hv.resolve_eq, held_cons, held_append, hv.length_visits] at hU
    rw [Expr.tokens, List.forall_mem_cons, List.forall_mem_append] at ht
    rw [Expr.number]
    exact .set (part hbo ht.2.1 ho hU.2.2) rfl (part hbv ht.2.2 hv hU.2.1)
  | call hf hargs =>
    cases hbare with | call hbf hbargs =>
    rw [Expr.visits, hf.resolve_eq, held_cons, held_append, hf.length_visits] at hU
    rw [Expr.tokens, List.forall_mem_cons, List.forall_mem_append] at ht
    rw [Expr.number]
    exact .call (part hbf ht.2.1 hf hU.2.1) rfl (exprs_resolved hc hp hargs hbargs ht.2.2 hU.2.2)

theorem expr?_resolved {body : ClassBody} {scopes : List (Bindings Bool)} (hc : Covers κ scopes)
    (hp : Placed body scopes) {e₀ e : Option Expr} (h : Option.Rel (Expr.Scoped body scopes) e₀ e)
    (hb : ∀ x ∈ e₀, x.Bare) (ht : ∀ t ∈ Expr.tokens? e₀, t.Spelled)
    (hU : Held U k (Expr.visits? body ⟨scopes, []⟩ e₀)) :
    Option.Rel ((resolvedLikeness U).expr κ) (e.map (·.number id k)) e := by
  cases h with
  | none => exact .none
  | some he => exact .some ⟨k, rfl, body, scopes, _, hc, hp, hb _ rfl, ht, he, hU⟩

/-- What follows a statement stands in the same class. -/
theorem Stmt.Scoped.placed : ∀ {place : Place} {κ κ' : List (Bindings Bool)} {s s' : Stmt},
    Stmt.Scoped place κ s s' κ' → s.Bare → (∀ t ∈ s.tokens, t.Spelled) →
    ∀ {body : ClassBody}, Placed body κ → Placed body κ'
  | _, _, _, _, _, .expression _, _, _, _, h | _, _, _, _, _, .print _, _, _, _, h
  | _, _, _, _, _, .block _, _, _, _, h | _, _, _, _, _, .leave _ _, _, _, _, h => h
  | _, _, _, _, _, .declare _ _, .declare hn _, ht, _, h
  | _, _, _, _, _, .base _ _, .classDecl hn _ _ _, ht, _, h =>
    h.bound (not_implicit (ht _ List.mem_cons_self) hn)
  | _, _, _, _, _, .function _ _ _, .function hn _ _, ht, _, h
  | _, _, _, _, _, .derived _ _ _, .classDecl hn _ _ _, ht, _, h =>
    h.bound (not_implicit (ht _ List.mem_cons_self) hn)
  | _, _, _, _, _, .branch _ hs, .branch _ hb hq _ _, _, _, h
  | _, _, _, _, _, .loop _ hs, .loop _ hb hq, _, _, h => hs.eq_of_quiet hb hq ▸ h
  | _, _, _, _, _, .choice _ hs hs', .branch _ hb hq hb' hq', _, _, h =>
    (hs'.eq_of_quiet (hb' _ rfl) (hq' _ rfl)).trans (hs.eq_of_quiet hb hq) ▸ h

theorem stmts_resolved {place : Place} (hset : Settled κ) (hp : Placed place.classBody κ)
    {l₀ l : List Stmt} (h : Stmt.ScopedAll place κ l₀ l κ') (hb : ∀ s ∈ l₀, s.Bare)
    (ht : ∀ t ∈ Stmt.tokensAll l₀, t.Spelled)
    (hU : Held U k (Stmt.visitsAll place ⟨κ, []⟩ l₀)) :
    (resolvedLikeness U).Stmts κ (Stmt.numberAll id k l) l := by
  induction l₀ generalizing κ l k with
  | nil =>
    cases h
    exact .nil
  | cons s₀ l₀ ih =>
    cases h with | cons hs hl =>
    rw [Stmt.visitsAll, hs.resolve_eq, held_append, hs.length_visits] at hU
    rw [Stmt.tokensAll, List.forall_mem_append] at ht
    obtain ⟨hbs, hbl⟩ := List.forall_mem_cons.mp hb
    rw [Stmt.numberAll]
    exact .cons ⟨k, rfl, hset, place, _, hp, hbs, ht.1, hs, hU.1⟩
      (ih (hs.settled hset) (hs.placed hbs ht.1 hp) hl hbl ht.2 hU.2)

/-- Names that are spelled like no reserved word. -/
theorem params_not_implicit {ps : List Token} (hn : ∀ p ∈ ps, p.IsName)
    (ht : ∀ p ∈ ps, p.Spelled) : ∀ p ∈ ps, ¬ Implicit p.lexeme :=
  fun p hp => not_implicit (ht p hp) (hn p hp)

theorem methods_resolved {body : ClassBody} (hset : Settled κ) (hp : Placed body κ)
    {ms₀ ms : List (Routine Stmt)} (h : Stmt.ScopedMethods body κ ms₀ ms)
    (hn : ∀ m ∈ ms₀, ∀ p ∈ m.params, p.IsName) (hb : ∀ m ∈ ms₀, ∀ s ∈ m.body, s.Bare)
    (ht : ∀ t ∈ Stmt.tokensMethods ms₀, t.Spelled)
    (hU : Held U k (Stmt.visitsMethods body ⟨κ, []⟩ ms₀)) :
    List.Forall₂ ((resolvedLikeness U).Routines κ) (Stmt.numberMethods id k ms) ms := by
  induction ms₀ generalizing ms k with
  | nil =>
    cases h
    exact .nil
  | cons m₀ ms₀ ih =>
    cases h with | cons hps hbody hrest =>
    rw [Stmt.visitsMethods, enterMethod_eq hps, leaveMethod_eq hbody, held_append,
      hbody.length_visits] at hU
    simp only [Stmt.tokensMethods, Stmt.tokensRoutine, List.forall_mem_append,
      List.forall_mem_cons] at ht
    obtain ⟨hnm, hnms⟩ := List.forall_mem_cons.mp hn
    obtain ⟨hbm, hbms⟩ := List.forall_mem_cons.mp hb
    have hset₁ := (hset.cons complete_empty).params hps
    have himplicit := params_not_implicit hnm ht.1.2.1
    rw [Stmt.numberMethods]
    exact .cons ⟨rfl, _, ⟨rfl, himplicit, hps⟩,
      stmts_resolved hset₁ (hp.push.params hps himplicit) hbody hbm ht.1.2.2 hU.1⟩
      (ih hrest hnms hbms ht.2 hU.2)

theorem stmtParts_resolved {s : Stmt} (h : ResolvedStmt U k κ s κ') :
    (resolvedLikeness U).StmtParts κ (CodeReading.numbers.stmt (s.number id k)) s κ' := by
  obtain ⟨hset, place, s₀, hp, hbare, ht, hs, hU⟩ := h
  have hc := Covers.refl hset
  cases hs with
  | expression he =>
    cases hbare with | expression hb =>
    rw [Stmt.visits, held_cons] at hU
    rw [Stmt.number]
    exact .expression ⟨_, rfl, _, _, _, hc, hp, hb, ht, he, hU.2⟩
  | print he =>
    cases hbare with | print hb =>
    rw [Stmt.visits, held_cons] at hU
    rw [Stmt.number]
    exact .print ⟨_, rfl, _, _, _, hc, hp, hb, ht, he, hU.2⟩
  | declare hf he =>
    cases hbare with | declare hn hb =>
    rw [Stmt.visits, declare_eq hf, held_cons] at hU
    obtain ⟨htn, hte⟩ := List.forall_mem_cons.mp ht
    have hname := not_implicit htn hn
    rw [Stmt.number]
    exact .declare (expr?_resolved (covers_mark hset hf) (hp.mark hname false) he hb hte hU.2)
      ⟨rfl, hname, rfl⟩
  | block hb =>
    cases hbare with | block hbb =>
    rw [Stmt.visits, openScope_eq, held_cons] at hU
    rw [Stmt.number]
    exact .block rfl (stmts_resolved (hset.cons complete_empty) hp.push hb hbb ht hU.2)
  | branch he hs =>
    cases hbare with | branch hbc hbt hq _ _ =>
    rw [Stmt.visits, he.resolve_eq, held_cons, held_append, he.length_visits] at hU
    rw [Stmt.tokens, List.forall_mem_append] at ht
    obtain rfl := hs.eq_of_quiet hbt hq
    rw [Stmt.number]
    exact .branch ⟨_, rfl, _, _, _, hc, hp, hbc, ht.1, he, hU.2.1⟩
      ⟨_, rfl, hset, _, _, hp, hbt, ht.2, hs, hU.2.2⟩ .none
  | choice he hs ha =>
    cases hbare with | branch hbc hbt hq hba hqa =>
    obtain rfl := hs.eq_of_quiet hbt hq
    obtain rfl := ha.eq_of_quiet (hba _ rfl) (hqa _ rfl)
    rw [Stmt.visits, he.resolve_eq, hs.resolve_eq, held_cons, held_append, held_append,
      List.length_append, he.length_visits, hs.length_visits] at hU
    rw [Stmt.tokens, List.forall_mem_append, List.forall_mem_append] at ht
    rw [Stmt.number]
    exact .branch ⟨_, rfl, _, _, _, hc, hp, hbc, ht.1, he, hU.2.1.1⟩
      ⟨_, rfl, hset, _, _, hp, hbt, ht.2.1, hs, hU.2.1.2⟩
      (.some ⟨_, rfl, hset, _, _, hp, hba _ rfl, ht.2.2, ha, hU.2.2⟩)
  | loop he hs =>
    cases hbare with | loop hbc hbt hq =>
    rw [Stmt.visits, he.resolve_eq, held_cons, held_append, he.length_visits] at hU
    rw [Stmt.tokens, List.forall_mem_append] at ht
    obtain rfl := hs.eq_of_quiet hbt hq
    rw [Stmt.number]
    exact .loop ⟨_, rfl, _, _, _, hc, hp, hbc, ht.1, he, hU.2.1⟩
      ⟨_, rfl, hset, _, _, hp, hbt, ht.2, hs, hU.2.2⟩
  | @function _ _ _ _ name params _ _ hf hps hb =>
    cases hbare with | function hn hparams hbb =>
    rw [Stmt.visits, enterFunction_eq hf hps, held_cons] at hU
    simp only [Stmt.tokens, Stmt.tokensRoutine, List.forall_mem_cons, List.forall_mem_append] at ht
    have hset₁ := ((hset.bound name).cons complete_empty).params hps
    have hname := not_implicit ht.1 hn
    have himplicit := params_not_implicit hparams ht.2.1
    have hplaced : Placed (Place.classBody ⟨true, place.classBody⟩) _ :=
      (hp.bound hname).push.params hps himplicit
    rw [Stmt.number]
    exact .function ⟨rfl, hname, rfl⟩ ⟨rfl, _, ⟨rfl, himplicit, hps⟩,
      stmts_resolved hset₁ hplaced hb hbb ht.2.2 hU.2⟩
  | leave hin he =>
    cases hbare with | leave hb =>
    rw [Stmt.visits, held_cons] at hU
    simp only [hin, ↓reduceIte] at hU
    rw [Stmt.number]
    exact .leave (expr?_resolved hc hp he hb (List.forall_mem_cons.mp ht).2 hU.2)
  | @base _ _ name _ _ hf hms =>
    cases hbare with | classDecl hn _ hps hb =>
    rw [Stmt.visits, enterClass_none_eq hf, held_cons] at hU
    obtain ⟨htn, htms⟩ := List.forall_mem_cons.mp ht
    rw [Stmt.number]
    exact .base rfl ⟨rfl, not_implicit htn hn, rfl⟩
      (methods_resolved ((hset.bound name).cons complete_thisScope) (placed_base _) hms hps hb htms
        hU.2)
  | @derived _ _ name r _ _ hf hne hms =>
    cases hbare with | classDecl hn hr hps hb =>
    rw [Stmt.visits, enterClass_some_eq hf hne, held_cons] at hU
    simp only [Stmt.tokens, List.forall_mem_cons] at ht
    obtain ⟨_, hrname⟩ := hr r rfl
    rw [Stmt.number]
    refine .derived rfl (ref_variable ?_) ⟨rfl, not_implicit ht.1 hn, rfl⟩
      (methods_resolved (((hset.bound name).cons complete_superScope).cons complete_thisScope)
        (placed_derived _) hms hps hb ht.2.2 hU.2)
    rw [located_name]
    exact not_implicit ht.2.1 hrname

/-! ## What scopes bind -/

namespace Scopes

variable {σ : Scopes} {id : ScopeId}

/-- Outside of the globals `this` is bound to instances and `super` to classes. -/
structure Typed (σ : Scopes) : Prop where
  this : ∀ id v, id ≠ Machine.globals → σ.value? id "this" = some v → ∃ o, v = .object o
  super : ∀ id v, id ≠ Machine.globals → σ.value? id "super" = some v → ∃ c, v = .cls c

theorem Typed.push (h : σ.Typed) (parent : Option ScopeId) : (σ.push parent).Typed :=
  ⟨fun id v hne hv => h.this id v hne (by rwa [value?_push] at hv),
    fun id v hne hv => h.super id v hne (by rwa [value?_push] at hv)⟩

theorem Typed.bind (h : σ.Typed) (hlt : id < σ.next) {name : String} {v : Value}
    (hthis : name = "this" → ∃ o, v = .object o) (hsuper : name = "super" → ∃ c, v = .cls c) :
    (σ.define id name v).Typed := by
  refine ⟨fun id' v' hne hv => ?_, fun id' v' hne hv => ?_⟩
  · rw [value?_define hlt] at hv
    split at hv
    · rename_i heq
      cases hv
      exact hthis heq.2
    · exact h.this id' v' hne hv
  · rw [value?_define hlt] at hv
    split at hv
    · rename_i heq
      cases hv
      exact hsuper heq.2
    · exact h.super id' v' hne hv

theorem Typed.define (h : σ.Typed) (hlt : id < σ.next) {name : String} (hn : ¬ Implicit name)
    (v : Value) : (σ.define id name v).Typed :=
  h.bind hlt (fun heq => absurd (.inl heq) hn) fun heq => absurd (.inr heq) hn

theorem Typed.bindAll (h : σ.Typed) (hlt : id < σ.next) {ps : List Token}
    (hn : ∀ p ∈ ps, ¬ Implicit p.lexeme) (args : List Value) :
    (σ.bindAll id (ps.zip args)).Typed := by
  induction ps generalizing σ args with
  | nil => exact h
  | cons p ps ih =>
    obtain ⟨hp, hn⟩ := List.forall_mem_cons.mp hn
    cases args with
    | nil => exact h
    | cons v args => exact ih (h.define hlt hp v) (by rwa [next_define]) hn args

/-- Natives may have any name, but they are globals. -/
theorem Typed.global (h : σ.Typed) (hlt : Machine.globals < σ.next) (name : String) (v : Value) :
    (σ.define Machine.globals name v).Typed := by
  have hother : ∀ id key, id ≠ Machine.globals →
      (σ.define Machine.globals name v).value? id key = σ.value? id key := fun id key hne => by
    rw [value?_define hlt, if_neg fun heq => hne heq.1.symm]
  exact ⟨fun id u hne hu => h.this id u hne (hother id _ hne ▸ hu),
    fun id u hne hu => h.super id u hne (hother id _ hne ▸ hu)⟩

/-- The value of a name that is marked at a distance. -/
theorem Stands.value (hs : σ.Stands κ id) {i : Nat} {t : Token} (h : Shows κ i t.lexeme) :
    ∃ a v, a ≠ Machine.globals ∧ σ.value? a t.lexeme = some v ∧ σ.getAt id i t = .ok v := by
  obtain ⟨names, hi, hn⟩ := h
  obtain ⟨a, ha, hbound, hne⟩ := hs.ownerAt? hi hn
  obtain ⟨v, hv⟩ := Option.isSome_iff_exists.mp hbound
  refine ⟨a, v, hne, hv, ?_⟩
  rw [Scopes.getAt, ha, valueOf]
  simp only [Option.bind_some, hv]

theorem Stands.receiver (hs : σ.Stands κ id) (ht : σ.Typed) {i : Nat} {t : Token}
    (hlex : t.lexeme = "this") (h : Shows κ i "this") : ∃ o, σ.getAt id i t = .ok (.object o) := by
  obtain ⟨a, v, hne, hv, hget⟩ := hs.value (t := t) (hlex ▸ h)
  rw [hlex] at hv
  obtain ⟨o, rfl⟩ := ht.this a v hne hv
  exact ⟨o, hget⟩

theorem Stands.superclass (hs : σ.Stands κ id) (ht : σ.Typed) {i : Nat} {t : Token}
    (hlex : t.lexeme = "super") (h : Shows κ i "super") : ∃ c, σ.getAt id i t = .ok (.cls c) := by
  obtain ⟨a, v, hne, hv, hget⟩ := hs.value (t := t) (hlex ▸ h)
  rw [hlex] at hv
  obtain ⟨c, rfl⟩ := ht.super a v hne hv
  exact ⟨c, hget⟩

end Scopes

/-! ## A run beside itself -/

/-- Faults that no program with accepted syntax and scoping shows: an operator that is
none, a misplaced `super`, a `this` or `super` that is not found. -/
inductive Diagnostic.Internal : Diagnostic → Prop
  | invalidUnary (t : Token) : Internal (.runtime t .invalidUnary)
  | invalidBinary (t : Token) : Internal (.runtime t .invalidBinary)
  | superOutsideClass (t : Token) : Internal (.runtime t .superOutsideClass)
  | undefined (t : Token) {name : String} : Implicit name →
    Internal (.runtime t (.undefinedVariable name))

theorem Diagnostic.not_internal {t : Token} {f : RuntimeFault} (h : f.ofForm = false) :
    ¬ (Diagnostic.runtime t f).Internal := by
  intro hf
  cases hf <;> cases h

theorem Token.IsSign.unary {t : Token} (h : t.IsSign) (v : Value) :
    Value.unary t.kind v ≠ .error .invalidUnary := by
  obtain ⟨s, hs, ht⟩ := h
  rw [show t.kind = .symbol s from ht]
  simp only [List.mem_cons, List.not_mem_nil, or_false] at hs
  rcases hs with rfl | rfl
  · nofun
  · cases v <;> nofun

/-- The operators that both operands of a `binary` node are evaluated for. -/
theorem Token.IsOperator.kind {t : Token} (h : t.IsOperator) :
    ∃ s, t.kind = .symbol s ∧ s ∈ [Symbol.slash, .star, .minus, .plus, .greater, .greaterEqual,
      .less, .lessEqual, .bangEqual, .equalEqual] := by
  obtain ⟨level, hlevel, s, hs, ht⟩ := h
  refine ⟨s, ht, ?_⟩
  match level, hlevel with
  | 0, _ => cases hs
  | 1, _ | 2, _ | 3, _ | 4, _ =>
    simp only [Parser.operators] at hs
    grind

theorem Token.IsOperator.binary {t : Token} (h : t.IsOperator) (u v : Value) :
    Value.binary t.kind u v ≠ .error .invalidBinary := by
  obtain ⟨s, ht, hs⟩ := h.kind
  rw [ht]
  simp only [List.mem_cons, List.not_mem_nil, or_false] at hs
  intro hfault
  rcases hs with rfl | rfl | rfl | rfl | rfl | rfl | rfl | rfl | rfl | rfl
  case inr.inr.inr.inr.inr.inr.inr.inr.inl | inr.inr.inr.inr.inr.inr.inr.inr.inr => cases hfault
  all_goals
    simp only [Value.binary, Value.arithmetic] at hfault
    split at hfault <;> cases hfault

theorem Value.unary_fault {op : Kind} {v : Value} {f : RuntimeFault}
    (h : Value.unary op v = .error f) (hf : f ≠ .invalidUnary) : f.ofForm = false := by
  unfold Value.unary at h
  split at h
  · cases h
  · split at h <;> cases h
    rfl
  · cases h
    exact absurd rfl hf

theorem Value.binary_fault {op : Kind} {u v : Value} {f : RuntimeFault}
    (h : Value.binary op u v = .error f) (hf : f ≠ .invalidBinary) : f.ofForm = false := by
  unfold Value.binary at h
  split at h
  · split at h <;> cases h
    rfl
  · cases h
  · cases h
  · split at h
    · unfold Value.arithmetic at h
      split at h <;> cases h
      exact absurd rfl hf
    · cases h
      rfl

theorem Scopes.find_error {σ : Scopes} {s : ScopeId} {d : Option Nat} {t : Token}
    {fault : Diagnostic} (h : σ.find s d t = .error fault) : fault = Scopes.undefined t := by
  rw [find_eq, valueOf] at h
  split at h <;> cases h
  rfl

/-- A run of numbered code, beside the run of the code itself. What runs in a scope was
resolved under open scopes that agree with the chain of the scope. -/
def resolvedRuns (U : Nat → Visit → Prop) : Correspondence where
  toLikeness := resolvedLikeness U
  World := Scopes
  le := Scopes.Grows
  le_refl := Scopes.Grows.refl
  le_trans := Scopes.Grows.trans
  fault d d' := d = d' ∧ ¬ d.Internal
  stands σ κ s := σ.Stands κ s
  scopes w σ σ' := w = σ ∧ σ = σ' ∧ σ.Typed
  kind_eq := congrArg Token.kind
  lexeme_eq := congrArg Token.lexeme
  fault_token hf h := by
    cases h
    exact ⟨rfl, Diagnostic.not_internal hf⟩
  fault_channel _ := ⟨rfl, nofun⟩
  fault_superclass h := by
    cases h.1
    exact ⟨rfl, Diagnostic.not_internal rfl⟩
  fault_unary := by
    rintro κ _ op op' e e' v f ⟨k, rfl, h⟩ hread hv
    obtain ⟨rfl, -⟩ := Expr.unary.inj hread
    refine ⟨rfl, Diagnostic.not_internal (Value.unary_fault hv ?_)⟩
    rintro rfl
    exact h.unary_sign.unary v hv
  fault_binary := by
    rintro κ _ op op' a a' b b' u v f ⟨k, rfl, h⟩ hread hv
    obtain ⟨rfl, -⟩ := Expr.binary.inj hread
    refine ⟨rfl, Diagnostic.not_internal (Value.binary_fault hv ?_)⟩
    rintro rfl
    exact h.binary_operator.binary u v hv
  names_this := by
    rintro t _ κ rfl
    exact ⟨rfl, fun _ => ⟨0, rfl, thisScope, rfl, Bindings.get?_insert_self _ _ _⟩⟩
  expr_parts := by
    rintro κ _ e ⟨k, rfl, h⟩
    exact exprParts_resolved h
  stmt_parts := by
    rintro κ κ' _ s ⟨k, rfl, h⟩
    exact stmtParts_resolved h
  length_eq := by
    rintro κ κ₀ ps _ ⟨rfl, _⟩
    rfl
  stands_mono := Scopes.Stands.mono
  next_eq h := congrArg Scopes.next h.2.1
  find := by
    rintro w σ _ κ s d t _ ⟨rfl, rfl, htyped⟩ hs ⟨rfl, hshows⟩
    refine .of_ok fun fault hfault => ⟨rfl, fun hinternal => ?_⟩
    -- only a name that is marked nowhere may be missing
    obtain rfl := Scopes.find_error hfault
    cases hinternal with | undefined _ himplicit =>
    obtain ⟨i, rfl, hi⟩ := hshows himplicit
    obtain ⟨_, v, _, _, hv⟩ := hs.value hi
    rw [show w.find s (some i) t = _ from hv] at hfault
    cases hfault
  inherited := by
    rintro w σ _ κ s _ r r' m m' ⟨rfl, rfl, htyped⟩ hs ⟨k, rfl, h⟩ hread
    obtain ⟨rfl, -⟩ := Expr.inherited.inj hread
    obtain ⟨hlex, i, hi, hthis, hsuper⟩ := h.inherited
    obtain ⟨c, hc⟩ := hs.superclass htyped hlex hsuper
    obtain ⟨o, ho⟩ := hs.receiver htyped (t := .named "this" r'.name.line) rfl hthis
    exact .inr ⟨i, c, o, hi, hc, ho⟩
  assign := by
    rintro w σ _ κ s _ r r' e e' v ⟨rfl, rfl, htyped⟩ _ ⟨k, rfl, h⟩ hread
    obtain ⟨rfl, -⟩ := Expr.assign.inj hread
    cases htarget : w.target? s r'.depth r'.name.lexeme with
    | none =>
      refine .inr ⟨rfl, rfl, rfl, fun hinternal => ?_⟩
      cases hinternal with | undefined _ himplicit => exact h.assign_name himplicit
    | some id =>
      have hlt := Scopes.target?_lt_next htarget
      exact .inl ⟨id, id, _, rfl, rfl, Scopes.grows_define hlt _ v, rfl, rfl,
        htyped.define hlt h.assign_name v⟩
  define := by
    rintro w σ _ κ _ s n _ v ⟨rfl, rfl, htyped⟩ hs ⟨rfl, hn, rfl⟩
    exact ⟨_, Scopes.grows_define hs.lt_next _ v, ⟨rfl, rfl, htyped.define hs.lt_next hn v⟩,
      hs.define n v⟩
  block := by
    rintro w σ _ κ _ s ⟨rfl, rfl, htyped⟩ hs rfl
    exact ⟨_, w.grows_push _, ⟨rfl, rfl, htyped.push _⟩, hs.push⟩
  call := by
    rintro w σ _ κ κ₀ s ps _ args ⟨rfl, rfl, htyped⟩ hs ⟨rfl, hn, hps⟩ hlen
    exact ⟨_, (w.grows_push _).trans (Scopes.grows_bindAll hs.push.lt_next _),
      ⟨rfl, rfl, (htyped.push _).bindAll hs.push.lt_next hn args⟩, hs.push.bindAll hps hlen⟩
  attach := by
    rintro w σ _ κ s o ⟨rfl, rfl, htyped⟩ hs
    have hdef := hs.push.define_mark (.named "this" 0) (.object o)
    have hlt := hs.push.lt_next
    exact ⟨_, (w.grows_push _).trans (Scopes.grows_define hlt _ _),
      ⟨rfl, rfl, (htyped.push _).bind hlt (fun _ => ⟨o, rfl⟩) fun heq => absurd heq (by decide)⟩, hdef⟩
  derive := by
    rintro w σ _ κ _ s n _ c v ⟨rfl, rfl, htyped⟩ hs ⟨rfl, hn, rfl⟩
    have hlt' := hs.push.lt_next
    have hg := (w.grows_push (some s)).trans (Scopes.grows_define hlt' "super" (.cls c))
    have hsuper : Scopes.Stands _ (superScope :: κ) w.next :=
      hs.push.define_mark (.named "super" 0) (.cls c)
    have htyped' := (htyped.push (some s)).bind hlt'
      (fun heq : "super" = "this" => absurd heq (by decide)) fun _ => ⟨c, rfl⟩
    have hlt := (hs.mono hg).lt_next
    have hdef := (hs.mono hg).define n v
    refine ⟨_, hg.trans (Scopes.grows_define hlt n.lexeme v), ⟨rfl, rfl, htyped'.define hlt hn v⟩,
      hdef, ?_⟩
    refine (hsuper.mono (Scopes.grows_define hlt n.lexeme v)).under ?_ hdef
    rw [Scopes.parent?_define, Scopes.parent?_define, Scopes.parent?_push, if_pos rfl]

/-- The first run is that of the numbered code. -/
theorem resolvedRuns_numbers : (resolvedRuns U).Numbers where
  reading_eq := rfl
  token_eq h := h
  enters_eq h := h.1
  expr_eq := fun ⟨k, hx, _⟩ => ⟨id, k, hx⟩
  stmt_eq := fun ⟨k, hx, _⟩ => ⟨id, k, hx⟩
  fault_eq h := h.1
  scopes_eq h := h.2.1

section

variable {w : (resolvedRuns U).World} {s : ScopeId} {m m' : Machine}

theorem Scopes.Stands.of_machines (h : (resolvedRuns U).Machines w s m m')
    (hs : (resolvedRuns U).stands w κ s) : m'.store.scopes.Stands κ m'.scope := by
  rw [h.scope', ← h.store.scopes.2.1, ← h.store.scopes.1]
  exact hs

theorem Scopes.Typed.of_machines (h : (resolvedRuns U).Machines w s m m') :
    m'.store.scopes.Typed :=
  h.store.scopes.2.1 ▸ h.store.scopes.2.2

end

/-! ## Accepted units -/

theorem Accepts.stmts {source : String} {read resolved : Program}
    (h : Accepts source read resolved) (hU : Held U k (Program.visits read)) :
    (resolvedRuns U).Stmts [] (Stmt.numberAll id k resolved) resolved := by
  have hset : Settled [] := fun _ hn => by cases hn
  have hplaced : Placed (Place.classBody ⟨false, .none⟩) [] := trivial
  exact stmts_resolved hset hplaced (Program.resolve_eq_iff.mp h.scoping)
    (Program.bare_of_ofTokens h.syntactic) h.spelled hU

/-- A unit with its nodes numbered after those of the units before. -/
def Program.numbered (earlier : List Program) (p : Program) : Program :=
  Stmt.numberAll id (visitsOf earlier).length p

/-- The machines that accepted units lead to if their nodes are numbered. -/
inductive NumberedReached (out : Sink) (clock : Nat → Float) : List Program → Machine → Prop
  | start : NumberedReached out clock [] (.start out clock)
  | run {units : List Program} {m : Machine} {source : String} {read resolved : Program}
    (fuel : Nat) : NumberedReached out clock units m → Accepts source read resolved →
    NumberedReached out clock (read :: units) (Eval.after (Eval.flushed
      (Eval.runAll (Eval.execRead .numbers Eval.silent fuel) (resolved.numbered units)) m))
  | native {units : List Program} {m : Machine} (name : String) (f : Native) :
    NumberedReached out clock units m → NumberedReached out clock units (m.defineNative name f)

/-- A machine that numbered units lead to is in step with the machine that the units lead to. -/
theorem NumberedReached.machines {out : Sink} {clock : Nat → Float} {units : List Program}
    {m : Machine} (h : NumberedReached out clock units m) (hU : Held U 0 (visitsOf units)) :
    ∃ w m', (resolvedRuns U).Machines w Machine.globals m m' ∧
      (resolvedRuns U).stands w [] Machine.globals ∧ Reached out clock units m' := by
  induction h with
  | start =>
    have hlt : Machine.globals < (Scopes.empty.push none).next := Nat.zero_lt_one
    have htyped : (Scopes.empty.push none).Typed := by
      refine Scopes.Typed.push ⟨fun id v _ hv => ?_, fun id v _ hv => ?_⟩ none
      · simp [Scopes.value?, Scopes.empty] at hv
      · simp [Scopes.value?, Scopes.empty] at hv
    refine ⟨_, _, ⟨⟨⟨rfl, rfl, htyped.global hlt "clock" (.native 0)⟩, rfl, fun _ => .none, rfl, rfl,
      fun _ => .none, rfl⟩, rfl, rfl, rfl, rfl, rfl, rfl⟩, ⟨⟨?_, rfl⟩, [], .globals, .nil⟩, .start⟩
    simp [Machine.start, Store.define, Store.pushScope, Store.pushNative, Machine.globals]
  | run fuel _ ha ih =>
    obtain ⟨hunits, hread⟩ := held_append.mp hU
    obtain ⟨w, m', hm, hκ, hreached⟩ := ih hunits
    rw [Nat.zero_add] at hread
    have hsim := Correspondence.flushed_sim
      (Correspondence.runAll_read_sim hκ (ha.stmts hread) fuel) _ _ hm
    obtain ⟨w', hle, hm'⟩ := hsim.after
    exact ⟨w', _, hm', (resolvedRuns U).stands_mono hle hκ, .run fuel hreached ha⟩
  | @native units m name f _ ih =>
    obtain ⟨w, m', hm, hκ, hreached⟩ := ih hU
    obtain rfl : w = m.store.scopes := hm.store.scopes.1
    have hg := Scopes.grows_define hκ.lt_next name (.native m.store.natives.size)
    have htyped := hm.store.scopes.2.2.global hκ.lt_next name (.native m.store.natives.size)
    have hst := hm.store.withScopes hg ⟨rfl, rfl, htyped⟩
    have hscopes : m.store.scopes.define Machine.globals name (.native m.store.natives.size) =
        m'.store.scopes.define Machine.globals name (.native m'.store.natives.size) := by
      rw [hm.store.scopes.2.1, hm.store.natives]
    exact ⟨_, m'.defineNative name f, ⟨⟨⟨rfl, hscopes, htyped⟩, hst.functionCount, hst.functions,
      congrArg (·.push f) hst.natives, hst.classCount, hst.classes, hst.instances⟩, hm.scope,
      hm.scope', hm.depth, hm.out, hm.clock, hm.ticks⟩, (resolvedRuns U).stands_mono hg hκ,
      .native name f hreached⟩

section

variable {out : Sink} {clock : Nat → Float} {units : List Program} {m : Machine} {source : String}
  {read resolved : Program}

/-- Without the numbers, numbered units lead to where the units lead to. -/
theorem NumberedReached.strip (h : NumberedReached out clock units m) :
    Reached out clock units m.strip := by
  obtain ⟨w, m', hm, _, hreached⟩ := h.machines (held_true 0 _)
  rwa [← resolvedRuns_numbers.image.machine_eq hm] at hreached

/-- What the resolver came to by that number in some units. -/
def numberIn (units : List Program) (k : Nat) (v : Visit) : Prop :=
  (visitsOf units)[k]? = some v

/-- What is known of the code and of the machine where a run of numbered units comes to. -/
theorem NumberedReached.of_visitsAt (h : NumberedReached out clock units m)
    (hs : Accepts source read resolved) {P : Nat → Node → Machine → Prop}
    (hexpr : ∀ {w κ s k e m m'}, (resolvedRuns (numberIn (read :: units))).Machines w s m m' →
      (resolvedRuns (numberIn (read :: units))).stands w κ s →
      ResolvedExpr (numberIn (read :: units)) k κ e → P k (.expr e) m')
    (hstmt : ∀ {w κ κ' s k t m m'}, (resolvedRuns (numberIn (read :: units))).Machines w s m m' →
      (resolvedRuns (numberIn (read :: units))).stands w κ s →
      ResolvedStmt (numberIn (read :: units)) k κ t κ' → P k (.stmt t) m')
    {fuel k : Nat} {node : Node} {now : Machine}
    (hv : Eval.VisitsAt fuel (resolved.numbered units) m k node now) : P k node now := by
  have hU : Held (numberIn (read :: units)) 0 (visitsOf (read :: units)) := by
    intro i v hv
    rwa [Nat.zero_add]
  rw [visitsOf, held_append, Nat.zero_add] at hU
  obtain ⟨w, m', hm, hκ, _⟩ := h.machines hU.1
  refine resolvedRuns_numbers.of_visitsAt ?_ ?_ hm hκ (hs.stmts hU.2) hv
  · rintro w κ s _ e m m' hm hκ ⟨k, rfl, he⟩
    exact ⟨k, e.tag?_number id k, hexpr hm hκ he⟩
  · rintro w κ κ' s _ t m m' hm hκ ⟨k, rfl, ht⟩
    exact ⟨k, t.tag?_number id k, hstmt hm hκ ht⟩

theorem NumberedReached.follows (h : NumberedReached out clock units m)
    (hs : Accepts source read resolved) (fuel : Nat) :
    Eval.Follows fuel (resolved.numbered units) m resolved m.strip := by
  obtain ⟨w, m', hm, hκ, _⟩ := h.machines (held_true 0 _)
  obtain rfl : m.strip = m' := resolvedRuns_numbers.image.machine_eq hm
  exact resolvedRuns_numbers.follows hm hκ (hs.stmts (held_true (visitsOf units).length _)) fuel

theorem Machine.strip_start (out : Sink) (clock : Nat → Float) :
    (Machine.start out clock).strip = .start out clock := by
  simp [strip, mapRoutines, Store.mapRoutines, start, Store.define, Store.pushNative,
    Store.pushScope, Store.empty]

/-- Where units lead to, they lead to with numbers. -/
theorem Reached.exists_numbered (h : Reached out clock units m) :
    ∃ m', NumberedReached out clock units m' ∧ m'.strip = m := by
  induction h with
  | start => exact ⟨_, .start, Machine.strip_start out clock⟩
  | run fuel _ ha ih =>
    obtain ⟨m', hm', rfl⟩ := ih
    refine ⟨_, .run fuel hm' ha, ?_⟩
    rw [Eval.after_flushed, Eval.interpret_eq, Eval.after_flushed, ← (hm'.follows ha fuel).ends]
    cases Eval.runAll _ _ m' <;> rfl
  | native name f _ ih =>
    obtain ⟨m', hm', rfl⟩ := ih
    exact ⟨_, .native name f hm', rfl⟩

/-- What is known of every machine that accepted units lead to. -/
theorem Reached.machines (h : Reached out clock units m) :
    ∃ w m', (resolvedRuns fun _ _ => True).Machines w Machine.globals m' m ∧
      (resolvedRuns fun _ _ => True).stands w [] Machine.globals := by
  obtain ⟨m', hm', rfl⟩ := h.exists_numbered
  obtain ⟨w, _, hm, hκ, _⟩ := hm'.machines (held_true 0 _)
  obtain rfl := resolvedRuns_numbers.image.machine_eq hm
  exact ⟨w, m', hm, hκ⟩

end

end Treewalk
