import Treewalk.Proofs.Scoping
import Treewalk.Proofs.Tokens

/-!
# Resolving relabelled trees

The scoping rules look at spellings alone. If each token is replaced by one with the
same spelling, the resolved tree is the same with its tokens replaced, and nothing
else resolves the relabelled tree (`Stmt.ScopedAll.map`, `Stmt.ScopedAll.of_map`).
Resolving keeps the tokens of a tree as they are (`Stmt.ScopedAll.tokens_eq`).
Programs resolve one after the other, since no scope is open between them
(`Stmt.ScopedAll.append`).
-/

namespace Treewalk

open Resolver

variable {f : Token → Token}

section

variable (hf : ∀ t, (f t).lexeme = t.lexeme)

include hf

theorem Resolver.fresh_map {κ : List (Bindings Bool)} {n : Token} : Fresh κ (f n) ↔ Fresh κ n := by
  simp only [Fresh, hf]

theorem Resolver.readable_map {κ : List (Bindings Bool)} {n : Token} :
    Readable κ (f n) ↔ Readable κ n := by
  simp only [Readable, hf]

theorem Resolver.mark_map (κ : List (Bindings Bool)) (n : Token) (done : Bool) :
    mark κ (f n) done = mark κ n done := by
  simp only [mark, hf]

theorem Resolver.bound_map (κ : List (Bindings Bool)) (n : Token) : bound κ (f n) = bound κ n := by
  simp only [bound, mark_map hf]

theorem Resolver.located_map (κ : List (Bindings Bool)) (r : Reference) :
    located κ (r.map f) = (located κ r).map f := by
  simp only [located, Reference.map, hf]
  split <;> rfl

theorem Resolver.params_map {κ κ' : List (Bindings Bool)} {ps : List Token} :
    Params κ (ps.map f) κ' ↔ Params κ ps κ' := by
  induction ps generalizing κ with
  | nil => exact Iff.rfl
  | cons p ps ih =>
    refine ⟨fun h => ?_, fun h => ?_⟩
    · cases h with | cons hp hps =>
      rw [bound_map hf] at hps
      exact .cons ((fresh_map hf).mp hp) (ih.mp hps)
    · cases h with | cons hp hps =>
      refine .cons ((fresh_map hf).mpr hp) ?_
      rw [bound_map hf]
      exact ih.mpr hps

end

/-! ## From a tree to the relabelled one -/

mutual

theorem Expr.Scoped.map (hf : ∀ t, (f t).lexeme = t.lexeme) {body : ClassBody}
    {κ : List (Bindings Bool)} : ∀ {e e' : Expr},
    Expr.Scoped body κ e e' → Expr.Scoped body κ (e.map f) (e'.map f)
  | _, _, .literal v => .literal v
  | _, _, .group h => .group (h.map hf)
  | _, _, .unary h => .unary (h.map hf)
  | _, _, .binary h h' => .binary (h.map hf) (h'.map hf)
  | _, _, .logical h h' => .logical (h.map hf) (h'.map hf)
  | _, _, .var h => by
    simp only [Expr.map, ← located_map hf]
    exact .var ((readable_map hf).mpr h)
  | _, _, .assign h => by
    simp only [Expr.map, ← located_map hf]
    exact .assign (h.map hf)
  | _, _, .call h h' => .call (h.map hf) (h'.map hf)
  | _, _, .get h => .get (h.map hf)
  | _, _, .set h h' => .set (h.map hf) (h'.map hf)
  | _, _, .receiver h => by
    simp only [Expr.map, ← located_map hf]
    exact .receiver h
  | _, _, .inherited h => by
    simp only [Expr.map, ← located_map hf]
    exact .inherited h

theorem Expr.ScopedAll.map (hf : ∀ t, (f t).lexeme = t.lexeme) {body : ClassBody}
    {κ : List (Bindings Bool)} : ∀ {es es' : List Expr},
    Expr.ScopedAll body κ es es' → Expr.ScopedAll body κ (Expr.mapAll f es) (Expr.mapAll f es')
  | _, _, .nil => .nil
  | _, _, .cons h h' => .cons (h.map hf) (h'.map hf)

end

theorem Expr.scoped?_map (hf : ∀ t, (f t).lexeme = t.lexeme) {body : ClassBody}
    {κ : List (Bindings Bool)} {e e' : Option Expr} (h : Option.Rel (Expr.Scoped body κ) e e') :
    Option.Rel (Expr.Scoped body κ) (e.map (Expr.map f)) (e'.map (Expr.map f)) := by
  cases h with
  | none => exact .none
  | some h => exact .some (h.map hf)

mutual

theorem Stmt.Scoped.map (hf : ∀ t, (f t).lexeme = t.lexeme) :
    ∀ {place : Place} {κ κ' : List (Bindings Bool)} {s s' : Stmt},
    Stmt.Scoped place κ s s' κ' → Stmt.Scoped place κ (s.map f) (s'.map f) κ'
  | _, _, _, _, _, .expression h => .expression (h.map hf)
  | _, _, _, _, _, .print h => .print (h.map hf)
  | _, _, _, _, _, .declare hn h => by
    rw [← bound_map hf]
    refine .declare ((fresh_map hf).mpr hn) ?_
    rw [mark_map hf]
    exact Expr.scoped?_map hf h
  | _, _, _, _, _, .block h => .block (h.map hf)
  | _, _, _, _, _, .branch h h' => .branch (h.map hf) (h'.map hf)
  | _, _, _, _, _, .choice h h' h'' => .choice (h.map hf) (h'.map hf) (h''.map hf)
  | _, _, _, _, _, .loop h h' => .loop (h.map hf) (h'.map hf)
  | _, _, _, _, _, .function hn hps hb => by
    rw [← bound_map hf] at hps hb ⊢
    exact .function ((fresh_map hf).mpr hn) ((params_map hf).mpr hps) (hb.map hf)
  | _, _, _, _, _, .leave hin h => .leave hin (Expr.scoped?_map hf h)
  | _, _, _, _, _, .base hn hms => by
    rw [← bound_map hf] at hms ⊢
    exact .base ((fresh_map hf).mpr hn) (hms.map hf)
  | _, _, _, _, _, .derived hn hne hms => by
    rw [← bound_map hf] at hms ⊢
    simp only [Stmt.map, Option.map_some, ← located_map hf]
    exact .derived ((fresh_map hf).mpr hn) (by simpa only [Reference.map, hf] using hne) (hms.map hf)

theorem Stmt.ScopedAll.map (hf : ∀ t, (f t).lexeme = t.lexeme) :
    ∀ {place : Place} {κ κ' : List (Bindings Bool)} {l l' : List Stmt},
    Stmt.ScopedAll place κ l l' κ' → Stmt.ScopedAll place κ (Stmt.mapAll f l) (Stmt.mapAll f l') κ'
  | _, _, _, _, _, .nil => .nil
  | _, _, _, _, _, .cons h h' => .cons (h.map hf) (h'.map hf)

theorem Stmt.ScopedMethods.map (hf : ∀ t, (f t).lexeme = t.lexeme) :
    ∀ {body : ClassBody} {κ : List (Bindings Bool)} {ms ms' : List (Routine Stmt)}, Stmt.ScopedMethods body κ ms ms' →
    Stmt.ScopedMethods body κ (Stmt.mapMethods f ms) (Stmt.mapMethods f ms')
  | _, _, _, _, .nil => .nil
  | _, _, _, _, .cons hps hb h => .cons ((params_map hf).mpr hps) (hb.map hf) (h.map hf)

end

/-! ## Back from the relabelled tree -/

mutual

theorem Expr.Scoped.of_map (hf : ∀ t, (f t).lexeme = t.lexeme) {body : ClassBody}
    {κ : List (Bindings Bool)} : ∀ {e e₁ : Expr}, Expr.Scoped body κ (e.map f) e₁ →
    ∃ e', Expr.Scoped body κ e e' ∧ e₁ = e'.map f
  | .literal v, _, h => by
    cases h
    exact ⟨_, .literal v, rfl⟩
  | .group e, _, h => by
    cases h with | group h =>
    obtain ⟨e', h', rfl⟩ := Expr.Scoped.of_map hf h
    exact ⟨_, .group h', rfl⟩
  | .unary op e, _, h => by
    cases h with | unary h =>
    obtain ⟨e', h', rfl⟩ := Expr.Scoped.of_map hf h
    exact ⟨_, .unary h', rfl⟩
  | .binary op a b, _, h => by
    cases h with | binary ha hb =>
    obtain ⟨a', ha', rfl⟩ := Expr.Scoped.of_map hf ha
    obtain ⟨b', hb', rfl⟩ := Expr.Scoped.of_map hf hb
    exact ⟨_, .binary ha' hb', rfl⟩
  | .logical op a b, _, h => by
    cases h with | logical ha hb =>
    obtain ⟨a', ha', rfl⟩ := Expr.Scoped.of_map hf ha
    obtain ⟨b', hb', rfl⟩ := Expr.Scoped.of_map hf hb
    exact ⟨_, .logical ha' hb', rfl⟩
  | .var r, _, h => by
    cases h with | var h =>
    exact ⟨_, .var ((readable_map hf).mp h), by rw [Expr.map, located_map hf]⟩
  | .assign r v, _, h => by
    cases h with | assign h =>
    obtain ⟨v', h', rfl⟩ := Expr.Scoped.of_map hf h
    exact ⟨_, .assign h', by rw [Expr.map, located_map hf]⟩
  | .call callee p args, _, h => by
    cases h with | call h hargs =>
    obtain ⟨callee', h', rfl⟩ := Expr.Scoped.of_map hf h
    obtain ⟨args', hargs', rfl⟩ := Expr.ScopedAll.of_map hf hargs
    exact ⟨_, .call h' hargs', rfl⟩
  | .get o n, _, h => by
    cases h with | get h =>
    obtain ⟨o', h', rfl⟩ := Expr.Scoped.of_map hf h
    exact ⟨_, .get h', rfl⟩
  | .set o n v, _, h => by
    cases h with | set ho hv =>
    obtain ⟨o', ho', rfl⟩ := Expr.Scoped.of_map hf ho
    obtain ⟨v', hv', rfl⟩ := Expr.Scoped.of_map hf hv
    exact ⟨_, .set ho' hv', rfl⟩
  | .receiver k, _, h => by
    cases h with | receiver h =>
    exact ⟨_, .receiver h, by rw [Expr.map, located_map hf]⟩
  | .inherited k m, _, h => by
    cases h with | inherited h =>
    exact ⟨_, .inherited h, by rw [Expr.map, located_map hf]⟩

theorem Expr.ScopedAll.of_map (hf : ∀ t, (f t).lexeme = t.lexeme) {body : ClassBody}
    {κ : List (Bindings Bool)} : ∀ {es es₁ : List Expr},
    Expr.ScopedAll body κ (Expr.mapAll f es) es₁ →
    ∃ es', Expr.ScopedAll body κ es es' ∧ es₁ = Expr.mapAll f es'
  | [], _, h => by
    cases h
    exact ⟨_, .nil, rfl⟩
  | e :: es, _, h => by
    cases h with | cons h hes =>
    obtain ⟨e', h', rfl⟩ := Expr.Scoped.of_map hf h
    obtain ⟨es', hes', rfl⟩ := Expr.ScopedAll.of_map hf hes
    exact ⟨_, .cons h' hes', rfl⟩

end

theorem Expr.scoped?_of_map (hf : ∀ t, (f t).lexeme = t.lexeme) {body : ClassBody}
    {κ : List (Bindings Bool)} {e e₁ : Option Expr}
    (h : Option.Rel (Expr.Scoped body κ) (e.map (Expr.map f)) e₁) :
    ∃ e', Option.Rel (Expr.Scoped body κ) e e' ∧ e₁ = e'.map (Expr.map f) := by
  cases e with
  | none =>
    cases h
    exact ⟨_, .none, rfl⟩
  | some e =>
    cases h with | some h =>
    obtain ⟨e', h', rfl⟩ := h.of_map hf
    exact ⟨_, .some h', rfl⟩

mutual

theorem Stmt.Scoped.of_map (hf : ∀ t, (f t).lexeme = t.lexeme) :
    ∀ {place : Place} {κ κ' : List (Bindings Bool)} {s s₁ : Stmt},
    Stmt.Scoped place κ (s.map f) s₁ κ' → ∃ s', Stmt.Scoped place κ s s' κ' ∧ s₁ = s'.map f
  | _, _, _, .expression e, _, h => by
    cases h with | expression h =>
    obtain ⟨e', h', rfl⟩ := h.of_map hf
    exact ⟨_, .expression h', rfl⟩
  | _, _, _, .print e, _, h => by
    cases h with | print h =>
    obtain ⟨e', h', rfl⟩ := h.of_map hf
    exact ⟨_, .print h', rfl⟩
  | _, _, _, .declare n e, _, h => by
    cases h with | declare hn h =>
    rw [mark_map hf] at h
    obtain ⟨e', h', rfl⟩ := Expr.scoped?_of_map hf h
    rw [bound_map hf]
    exact ⟨_, .declare ((fresh_map hf).mp hn) h', rfl⟩
  | _, _, _, .block b, _, h => by
    cases h with | block h =>
    obtain ⟨b', h', rfl⟩ := Stmt.ScopedAll.of_map hf h
    exact ⟨_, .block h', rfl⟩
  | _, _, _, .branch c s none, _, h => by
    cases h with | branch hc hs =>
    obtain ⟨c', hc', rfl⟩ := hc.of_map hf
    obtain ⟨s', hs', rfl⟩ := Stmt.Scoped.of_map hf hs
    exact ⟨_, .branch hc' hs', rfl⟩
  | _, _, _, .branch c s (some a), _, h => by
    cases h with | choice hc hs ha =>
    obtain ⟨c', hc', rfl⟩ := hc.of_map hf
    obtain ⟨s', hs', rfl⟩ := Stmt.Scoped.of_map hf hs
    obtain ⟨a', ha', rfl⟩ := Stmt.Scoped.of_map hf ha
    exact ⟨_, .choice hc' hs' ha', rfl⟩
  | _, _, _, .loop c s, _, h => by
    cases h with | loop hc hs =>
    obtain ⟨c', hc', rfl⟩ := hc.of_map hf
    obtain ⟨s', hs', rfl⟩ := Stmt.Scoped.of_map hf hs
    exact ⟨_, .loop hc' hs', rfl⟩
  | _, _, _, .function ⟨n, ps, b⟩, _, h => by
    cases h with | function hn hps hb =>
    rw [bound_map hf] at hps hb ⊢
    obtain ⟨b', hb', rfl⟩ := Stmt.ScopedAll.of_map hf hb
    exact ⟨_, .function ((fresh_map hf).mp hn) ((params_map hf).mp hps) hb', rfl⟩
  | _, _, _, .leave k e, _, h => by
    cases h with | leave hin h =>
    obtain ⟨e', h', rfl⟩ := Expr.scoped?_of_map hf h
    exact ⟨_, .leave hin h', rfl⟩
  | _, _, _, .classDecl n none ms, _, h => by
    cases h with | base hn hms =>
    rw [bound_map hf] at hms ⊢
    obtain ⟨ms', hms', rfl⟩ := Stmt.ScopedMethods.of_map hf hms
    exact ⟨_, .base ((fresh_map hf).mp hn) hms', rfl⟩
  | _, _, _, .classDecl n (some r) ms, _, h => by
    cases h with | derived hn hne hms =>
    rw [bound_map hf] at hms ⊢
    obtain ⟨ms', hms', rfl⟩ := Stmt.ScopedMethods.of_map hf hms
    simp only [Reference.map, hf] at hne
    refine ⟨_, .derived ((fresh_map hf).mp hn) hne hms', ?_⟩
    rw [Stmt.map, Option.map_some, located_map hf]

theorem Stmt.ScopedAll.of_map (hf : ∀ t, (f t).lexeme = t.lexeme) :
    ∀ {place : Place} {κ κ' : List (Bindings Bool)} {l l₁ : List Stmt},
    Stmt.ScopedAll place κ (Stmt.mapAll f l) l₁ κ' →
    ∃ l', Stmt.ScopedAll place κ l l' κ' ∧ l₁ = Stmt.mapAll f l'
  | _, _, _, [], _, h => by
    cases h
    exact ⟨_, .nil, rfl⟩
  | _, _, _, s :: l, _, h => by
    cases h with | cons h hl =>
    obtain ⟨s', h', rfl⟩ := Stmt.Scoped.of_map hf h
    obtain ⟨l', hl', rfl⟩ := Stmt.ScopedAll.of_map hf hl
    exact ⟨_, .cons h' hl', rfl⟩

theorem Stmt.ScopedMethods.of_map (hf : ∀ t, (f t).lexeme = t.lexeme) :
    ∀ {body : ClassBody} {κ : List (Bindings Bool)} {ms ms₁ : List (Routine Stmt)},
    Stmt.ScopedMethods body κ (Stmt.mapMethods f ms) ms₁ →
    ∃ ms', Stmt.ScopedMethods body κ ms ms' ∧ ms₁ = Stmt.mapMethods f ms'
  | _, _, [], _, h => by
    cases h
    exact ⟨_, .nil, rfl⟩
  | _, _, ⟨n, ps, b⟩ :: ms, _, h => by
    cases h with | cons hps hb h =>
    obtain ⟨b', hb', rfl⟩ := Stmt.ScopedAll.of_map hf hb
    obtain ⟨ms', h', rfl⟩ := Stmt.ScopedMethods.of_map hf h
    exact ⟨_, .cons ((params_map hf).mp hps) hb' h', rfl⟩

end

/-! ## What resolving keeps -/

mutual

theorem Expr.Scoped.tokens_eq {body : ClassBody} {κ : List (Bindings Bool)} : ∀ {e e' : Expr},
    Expr.Scoped body κ e e' → e'.tokens = e.tokens
  | _, _, .literal _ => rfl
  | _, _, .group h | _, _, .unary h | _, _, .get h => by simp only [Expr.tokens, h.tokens_eq]
  | _, _, .binary h h' | _, _, .logical h h' | _, _, .set h h' | _, _, .call h h' => by
    simp only [Expr.tokens, h.tokens_eq, h'.tokens_eq]
  | _, _, .assign h => by simp only [Expr.tokens, h.tokens_eq, located_name]
  | _, _, .var _ | _, _, .receiver _ | _, _, .inherited _ => by simp only [Expr.tokens, located_name]

theorem Expr.ScopedAll.tokens_eq {body : ClassBody} {κ : List (Bindings Bool)} :
    ∀ {es es' : List Expr}, Expr.ScopedAll body κ es es' → Expr.tokensAll es' = Expr.tokensAll es
  | _, _, .nil => rfl
  | _, _, .cons h h' => by simp only [Expr.tokensAll, h.tokens_eq, h'.tokens_eq]

end

theorem Expr.scoped?_tokens_eq {body : ClassBody} {κ : List (Bindings Bool)} {e e' : Option Expr}
    (h : Option.Rel (Expr.Scoped body κ) e e') : Expr.tokens? e' = Expr.tokens? e := by
  cases h with
  | none => rfl
  | some h => exact h.tokens_eq

mutual

theorem Stmt.Scoped.tokens_eq : ∀ {place : Place} {κ κ' : List (Bindings Bool)} {s s' : Stmt},
    Stmt.Scoped place κ s s' κ' → s'.tokens = s.tokens
  | _, _, _, _, _, .expression h | _, _, _, _, _, .print h => by
    simp only [Stmt.tokens, h.tokens_eq]
  | _, _, _, _, _, .declare _ h | _, _, _, _, _, .leave _ h => by
    simp only [Stmt.tokens, Expr.scoped?_tokens_eq h]
  | _, _, _, _, _, .block h => by simp only [Stmt.tokens, h.tokens_eq]
  | _, _, _, _, _, .branch h h' | _, _, _, _, _, .loop h h' => by
    simp only [Stmt.tokens, h.tokens_eq, h'.tokens_eq]
  | _, _, _, _, _, .choice h h' h'' => by
    simp only [Stmt.tokens, h.tokens_eq, h'.tokens_eq, h''.tokens_eq]
  | _, _, _, _, _, .function _ _ h => by
    simp only [Stmt.tokens, Stmt.tokensRoutine, h.tokens_eq]
  | _, _, _, _, _, .base _ h => by simp only [Stmt.tokens, h.tokens_eq]
  | _, _, _, _, _, .derived _ _ h => by simp only [Stmt.tokens, h.tokens_eq, located_name]

theorem Stmt.ScopedAll.tokens_eq : ∀ {place : Place} {κ κ' : List (Bindings Bool)}
    {l l' : List Stmt}, Stmt.ScopedAll place κ l l' κ' → Stmt.tokensAll l' = Stmt.tokensAll l
  | _, _, _, _, _, .nil => rfl
  | _, _, _, _, _, .cons h h' => by simp only [Stmt.tokensAll, h.tokens_eq, h'.tokens_eq]

theorem Stmt.ScopedMethods.tokens_eq : ∀ {body : ClassBody} {κ : List (Bindings Bool)}
    {ms ms' : List (Routine Stmt)}, Stmt.ScopedMethods body κ ms ms' →
    Stmt.tokensMethods ms' = Stmt.tokensMethods ms
  | _, _, _, _, .nil => rfl
  | _, _, _, _, .cons _ h h' => by
    simp only [Stmt.tokensMethods, Stmt.tokensRoutine, h.tokens_eq, h'.tokens_eq]

end

/-- Programs resolve one after the other: no scope is open between them. -/
theorem Stmt.ScopedAll.append {place : Place} {l l' m m' : List Stmt}
    (h : Stmt.ScopedAll place [] l l' []) (h' : Stmt.ScopedAll place [] m m' []) :
    Stmt.ScopedAll place [] (l ++ m) (l' ++ m') [] := by
  induction l generalizing l' with
  | nil => cases h; exact h'
  | cons s l ih =>
    cases h with | @cons _ _ κ _ _ _ _ _ hs hl =>
    obtain rfl : κ = [] := List.eq_nil_of_length_eq_zero hs.sameTail.1
    exact .cons hs (ih hl)

end Treewalk
