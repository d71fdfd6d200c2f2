import Treewalk.Proofs.Enclosures

/-!
# Well-scoped programs

The resolver has nothing to report about a program exactly if the program keeps the scoping
rules, said of the places where things stand and not of a pass over the tree
(`Program.resolve_eq_nil_iff`).

One direction goes down the tree from the judgement of the whole program to the one of
each statement in it (`Program.Holds.kept`). The other builds the judgement from the rules
(`Stmt.exists_scoped`); there a list carries the names its body declared so far, which
the names to come are different from.
-/

namespace Treewalk

open Resolver

/-- The rules that hold of a program whose names can be resolved. -/
structure Program.WellScoped (p : Program) : Prop where
  /-- A body declares each name once, its parameters included. -/
  distinct : ∀ around s, p.Holds around s → ∀ b ∈ s.bodies, b.names.Nodup
  /-- A local variable is not read in its own initializer. -/
  initializers : ∀ around n e, p.Holds around (.declare n (some e)) → around ≠ [] →
    ∀ r, e.Has (.var r) → r.name.lexeme ≠ n.lexeme
  /-- A `return` is in a function or a method. -/
  returns : ∀ around k e, p.Holds around (.leave k e) → ∃ b ∈ around, b.isRoutine = true
  /-- A `this` is in a method. -/
  receivers : ∀ around k, p.HoldsExpr around (.receiver k) →
    ∃ b ∈ around, b.superclass?.isSome = true
  /-- A `super` is in a method, and the innermost class around it has a superclass. -/
  inherited : ∀ around k m, p.HoldsExpr around (.inherited k m) →
    ∃ r, around.findSome? Body.superclass? = some (some r)
  /-- No class is its own superclass. -/
  superclasses : ∀ around n r ms, p.Holds around (.classDecl n (some r) ms) →
    r.name.lexeme ≠ n.lexeme

/-- What the resolver knows of the bodies around a node. -/
def placeAround (around : List Body) : Place :=
  ⟨around.any Body.isRoutine, classAround around⟩

/-! ## Expressions -/

/-- An expression that may stand where the scopes `κ` are open. -/
def Expr.Allowed (body : ClassBody) (κ : List (Bindings Bool)) : Expr → Prop
  | .var r => Readable κ r.name
  | .receiver _ => body ≠ .none
  | .inherited _ _ => body = .derived
  | .literal _ | .unary _ _ | .binary _ _ _ | .logical _ _ _ | .group _ | .assign _ _ | .call _ _ _
  | .get _ _ | .set _ _ _ => True

section

variable {body : ClassBody} {κ : List (Bindings Bool)}

/-- In lists that correspond, each member has one that it corresponds to. -/
theorem exists_of_forall₂ {α β : Type} {R : α → β → Prop} {l : List α} {l' : List β}
    (h : List.Forall₂ R l l') : (∀ a ∈ l, ∃ b, R a b) ∧ ∀ b ∈ l', ∃ a, R a b := by
  induction h with
  | nil => exact ⟨List.forall_mem_nil _, List.forall_mem_nil _⟩
  | cons hab _ ih =>
    exact ⟨List.forall_mem_cons.mpr ⟨⟨_, hab⟩, ih.1⟩, List.forall_mem_cons.mpr ⟨⟨_, hab⟩, ih.2⟩⟩

theorem Expr.ScopedAll.forall₂ {es es' : List Expr} (h : Expr.ScopedAll body κ es es') :
    List.Forall₂ (Expr.Scoped body κ) es es' := by
  induction es generalizing es' with
  | nil =>
    cases h
    exact .nil
  | cons e es ih =>
    cases h with | cons he hes => exact .cons he (ih hes)

/-- The parts of an expression are resolved where it is. -/
theorem Expr.Scoped.forall₂_parts {e e' : Expr} (h : Expr.Scoped body κ e e') :
    List.Forall₂ (Expr.Scoped body κ) e.parts e'.parts := by
  cases h with
  | literal | var | receiver | inherited => exact .nil
  | group h | unary h | assign h | get h => exact .cons h .nil
  | binary ha hb | logical ha hb | set ha hb => exact .cons ha (.cons hb .nil)
  | call hf hargs => exact .cons hf hargs.forall₂

theorem Expr.Scoped.allowed {e e' a : Expr} (h : Expr.Scoped body κ e e') (ha : e.Has a) :
    a.Allowed body κ := by
  induction ha generalizing e' with
  | self e =>
    cases h with
    | var hr | receiver hr | inherited hr => exact hr
    | literal | group | unary | binary | logical | assign | call | get | set => trivial
  | part hmem _ ih =>
    obtain ⟨_, h⟩ := (exists_of_forall₂ h.forall₂_parts).1 _ hmem
    exact ih h

theorem Expr.Has.of_part {e a : Expr} (ha : a ∈ e.parts) {P : Expr → Prop}
    (h : ∀ b, e.Has b → P b) : ∀ b, a.Has b → P b :=
  fun b hb => h b (.part ha hb)

mutual

theorem Expr.exists_scoped : ∀ e : Expr, (∀ a, e.Has a → a.Allowed body κ) →
    ∃ e', Expr.Scoped body κ e e'
  | .literal v, _ => ⟨_, .literal v⟩
  | .unary _ e, h => by
    obtain ⟨e', he⟩ := Expr.exists_scoped e (Expr.Has.of_part (by simp [Expr.parts]) h)
    exact ⟨_, .unary he⟩
  | .group e, h => by
    obtain ⟨e', he⟩ := Expr.exists_scoped e (Expr.Has.of_part (by simp [Expr.parts]) h)
    exact ⟨_, .group he⟩
  | .get e _, h => by
    obtain ⟨e', he⟩ := Expr.exists_scoped e (Expr.Has.of_part (by simp [Expr.parts]) h)
    exact ⟨_, .get he⟩
  | .assign _ e, h => by
    obtain ⟨e', he⟩ := Expr.exists_scoped e (Expr.Has.of_part (by simp [Expr.parts]) h)
    exact ⟨_, .assign he⟩
  | .binary _ a b, h => by
    obtain ⟨a', ha⟩ := Expr.exists_scoped a (Expr.Has.of_part (by simp [Expr.parts]) h)
    obtain ⟨b', hb⟩ := Expr.exists_scoped b (Expr.Has.of_part (by simp [Expr.parts]) h)
    exact ⟨_, .binary ha hb⟩
  | .logical _ a b, h => by
    obtain ⟨a', ha⟩ := Expr.exists_scoped a (Expr.Has.of_part (by simp [Expr.parts]) h)
    obtain ⟨b', hb⟩ := Expr.exists_scoped b (Expr.Has.of_part (by simp [Expr.parts]) h)
    exact ⟨_, .logical ha hb⟩
  | .set a _ b, h => by
    obtain ⟨a', ha⟩ := Expr.exists_scoped a (Expr.Has.of_part (by simp [Expr.parts]) h)
    obtain ⟨b', hb⟩ := Expr.exists_scoped b (Expr.Has.of_part (by simp [Expr.parts]) h)
    exact ⟨_, .set ha hb⟩
  | .call f _ args, h => by
    obtain ⟨f', hf⟩ := Expr.exists_scoped f (Expr.Has.of_part (by simp [Expr.parts]) h)
    obtain ⟨args', hargs⟩ := Expr.exists_scopedAll args fun a ha =>
      Expr.Has.of_part (by simp [Expr.parts, ha]) h
    exact ⟨_, .call hf hargs⟩
  | .var r, h => ⟨_, .var (h _ (.self _))⟩
  | .receiver k, h => ⟨_, .receiver (h _ (.self _))⟩
  | .inherited k m, h => ⟨_, .inherited (h _ (.self _))⟩

theorem Expr.exists_scopedAll : ∀ es : List Expr, (∀ e ∈ es, ∀ a, e.Has a → a.Allowed body κ) →
    ∃ es', Expr.ScopedAll body κ es es'
  | [], _ => ⟨_, .nil⟩
  | e :: es, h => by
    obtain ⟨he, hes⟩ := List.forall_mem_cons.mp h
    obtain ⟨e', he⟩ := Expr.exists_scoped e he
    obtain ⟨es', hes⟩ := Expr.exists_scopedAll es hes
    exact ⟨_, .cons he hes⟩

end

end

/-! ## From the judgement to the rules -/

theorem placeAround_extend (around : List Body) (l : List Stmt) :
    placeAround (extend around l) = placeAround around := by
  cases around with
  | nil => rfl
  | cons b around => rfl

theorem extend_eq_nil_iff {around : List Body} {l : List Stmt} :
    extend around l = [] ↔ around = [] := by
  cases around with
  | nil => simp [extend]
  | cons b around => simp [extend]

/-- A statement keeps the rules where it stands: outside every body no scope is open. -/
def Stmt.Kept (around : List Body) (s : Stmt) : Prop :=
  s.Bare ∧ ∃ κ s' κ', Stmt.Scoped (placeAround around) κ s s' κ' ∧ (κ = [] ↔ around = [])

/-- So do the statements of a list. -/
theorem Stmt.ScopedAll.kept {around : List Body} {κ κ' : List (Bindings Bool)} {l l' : List Stmt}
    (h : Stmt.ScopedAll (placeAround around) κ l l' κ') (hb : ∀ s ∈ l, s.Bare)
    (hκ : κ = [] ↔ around = []) {before after : List Stmt} {t : Stmt}
    (hl : l = before ++ t :: after) : t.Kept (extend around (before ++ [t])) := by
  induction before generalizing around κ l l' with
  | nil =>
    subst hl
    cases h with | @cons _ _ κ₁ _ _ t' _ _ ht _ =>
    refine ⟨hb t List.mem_cons_self, κ, t', κ₁, ?_, hκ.trans extend_eq_nil_iff.symm⟩
    rw [placeAround_extend]
    exact ht
  | cons s before ih =>
    subst hl
    cases h with | @cons _ _ κ₁ _ _ _ _ _ hs hrest =>
    obtain ⟨hlen, -⟩ := hs.sameTail
    have hκ₁ : κ₁ = [] ↔ extend around [s] = [] := by
      rw [extend_eq_nil_iff, ← hκ, ← List.length_eq_zero_iff, hlen, List.length_eq_zero_iff]
    rw [← placeAround_extend around [s]] at hrest
    have hkept := ih hrest (List.forall_mem_cons.mp hb).2 hκ₁ rfl
    rwa [extend_extend] at hkept

/-- The bodies of a statement keep the rules as lists of their own. -/
theorem Stmt.ScopedMethods.body {body : ClassBody} {κ : List (Bindings Bool)}
    {ms ms' : List (Routine Stmt)} (h : Stmt.ScopedMethods body κ ms ms') :
    ∀ r ∈ ms, ∃ κ₁ b' top, Params (.empty :: κ) r.params κ₁ ∧
      Stmt.ScopedAll ⟨true, body⟩ κ₁ r.body b' (top :: κ) := by
  induction ms generalizing ms' with
  | nil => exact List.forall_mem_nil _
  | cons r ms ih =>
    cases h with
    | cons hps hb hms => exact List.forall_mem_cons.mpr ⟨⟨_, _, _, hps, hb⟩, ih hms⟩

theorem Stmt.Bare.body {s : Stmt} (h : s.Bare) : ∀ b ∈ s.bodies, ∀ t ∈ b.statements, t.Bare := by
  cases h with
  | expression | print | declare | branch | loop | leave => exact List.forall_mem_nil _
  | block h => exact List.forall_mem_singleton.mpr h
  | function _ _ h => exact List.forall_mem_singleton.mpr h
  | classDecl _ _ _ h =>
    intro b hb
    obtain ⟨r, hr, rfl⟩ := List.mem_map.mp hb
    exact h r hr

theorem Stmt.Scoped.body {around : List Body} {κ κ' : List (Bindings Bool)} {s s' : Stmt}
    (h : Stmt.Scoped (placeAround around) κ s s' κ') : ∀ b ∈ s.bodies,
      ∃ κ₀ κ₁ l' κ₂, Params (.empty :: κ₀) b.params κ₁ ∧
        Stmt.ScopedAll (placeAround (b.opened :: around)) κ₁ b.statements l' κ₂ := by
  cases h with
  | expression | print | declare | branch | choice | loop | leave => exact List.forall_mem_nil _
  | block hb => exact List.forall_mem_singleton.mpr ⟨_, _, _, _, .nil, hb⟩
  | function _ hps hb => exact List.forall_mem_singleton.mpr ⟨_, _, _, _, hps, hb⟩
  | base _ hms | derived _ _ hms =>
    intro b hb
    obtain ⟨r, hr, rfl⟩ := List.mem_map.mp hb
    obtain ⟨κ₁, b', top, hps, hbody⟩ := hms.body r hr
    exact ⟨_, _, _, _, hps, hbody⟩

theorem Stmt.Scoped.branch_cases {place : Place} {κ κ' : List (Bindings Bool)} {s s' : Stmt}
    (h : Stmt.Scoped place κ s s' κ') (hb : s.Bare) :
    ∀ t ∈ s.branches, t.Bare ∧ ∃ t' κ₁, Stmt.Scoped place κ t t' κ₁ := by
  cases h with
  | expression | print | declare | block | function | leave | base | derived =>
    exact List.forall_mem_nil _
  | branch _ hs =>
    cases hb with | branch _ hbs _ _ _ => exact List.forall_mem_singleton.mpr ⟨hbs, _, _, hs⟩
  | loop _ hs =>
    cases hb with | loop _ hbs _ => exact List.forall_mem_singleton.mpr ⟨hbs, _, _, hs⟩
  | choice _ hs ha =>
    cases hb with | branch _ hbs hq hba _ =>
    obtain rfl := hs.eq_of_quiet hbs hq
    exact List.forall_mem_cons.mpr ⟨⟨hbs, _, _, hs⟩,
      List.forall_mem_singleton.mpr ⟨hba _ rfl, _, _, ha⟩⟩

/-- Every statement of a program that the resolver accepts keeps the rules. -/
theorem Program.Holds.kept {p p' : Program} (hp : p.Scoped p') (hb : ∀ s ∈ p, s.Bare)
    {around : List Body} {s : Stmt} (h : p.Holds around s) : s.Kept around := by
  induction h with
  | top hmem =>
    obtain ⟨before, after, hl⟩ := List.append_of_mem hmem
    have hall : Stmt.ScopedAll (placeAround []) [] p p' [] := hp
    exact hall.kept hb (by simp) hl
  | @inside around s t b before after _ hmem hl ih =>
    obtain ⟨hbare, κ, s', κ', hs, hκ⟩ := ih
    obtain ⟨κ₀, κ₁, l', κ₂, hps, hbody⟩ := hs.body b hmem
    refine hbody.kept (hbare.body b hmem) ?_ hl
    obtain ⟨top, rfl⟩ := hps.sameTail.cons
    simp
  | under _ hmem ih =>
    obtain ⟨hbare, κ, s', κ', hs, hκ⟩ := ih
    obtain ⟨hbt, t', κ₁, ht⟩ := hs.branch_cases hbare _ hmem
    exact ⟨hbt, κ, t', κ₁, ht, hκ⟩

theorem distinct_iff_nodup {names : List (Token × Bool)} :
    Distinct names ↔ (Stmt.label names).Nodup := by
  rw [Distinct, Stmt.label, List.Nodup, List.pairwise_map]

/-- The statement declares the same names, with its distances recorded or not. -/
theorem Stmt.Scoped.declared_eq {place : Place} {κ κ' : List (Bindings Bool)} {s s' : Stmt}
    (h : Stmt.Scoped place κ s s' κ') : s'.declared = s.declared := by
  cases h <;> rfl

theorem Stmt.ScopedAll.declaredAll_eq {place : Place} {κ κ' : List (Bindings Bool)}
    {l l' : List Stmt} (h : Stmt.ScopedAll place κ l l' κ') :
    Stmt.declaredAll l' = Stmt.declaredAll l := by
  induction l generalizing κ l' with
  | nil =>
    cases h
    rfl
  | cons s l ih =>
    cases h with | @cons _ _ _ _ _ s' _ l' hs hl =>
    show s'.declared ++ Stmt.declaredAll l' = s.declared ++ Stmt.declaredAll l
    rw [hs.declared_eq, ih hl]

/-- The expressions that a statement evaluates are resolved in one place. -/
theorem Stmt.Scoped.forall₂_exprs {place : Place} {κ κ' : List (Bindings Bool)} {s s' : Stmt}
    (h : Stmt.Scoped place κ s s' κ') :
    ∃ κ₁, List.Forall₂ (Expr.Scoped place.classBody κ₁) s.exprs s'.exprs := by
  cases h with
  | expression he | print he | branch he _ | choice he _ _ | loop he _ => exact ⟨_, .cons he .nil⟩
  | declare _ he | leave _ he =>
    cases he with
    | none => exact ⟨κ, .nil⟩
    | some he => exact ⟨_, .cons he .nil⟩
  | block | function | base | derived => exact ⟨κ, .nil⟩

/-- A program that the resolver accepts is well-scoped. -/
theorem Program.Scoped.wellScoped {p p' : Program} (hp : p.Scoped p') (hb : ∀ s ∈ p, s.Bare) :
    p.WellScoped := by
  have hexpr : ∀ {around : List Body} {e : Expr}, p.HoldsExpr around e →
      ∃ κ, e.Allowed (classAround around) κ := by
    rintro around e ⟨s, hs, whole, hmem, he⟩
    obtain ⟨_, _, _, _, hscoped, _⟩ := hs.kept hp hb
    obtain ⟨κ, hexprs⟩ := hscoped.forall₂_exprs
    obtain ⟨e', hwhole⟩ := (exists_of_forall₂ hexprs).1 whole hmem
    exact ⟨κ, hwhole.allowed he⟩
  constructor
  case distinct =>
    intro around s h b hmem
    obtain ⟨hbare, κ, s', κ', hs, _⟩ := h.kept hp hb
    obtain ⟨κ₀, κ₁, l', κ₂, hps, hbody⟩ := hs.body b hmem
    have hdistinct := distinct_declaredIn hps hbody (hbare.body b hmem)
    rw [Stmt.declaredIn, hbody.declaredAll_eq] at hdistinct
    exact distinct_iff_nodup.mp hdistinct
  case initializers =>
    intro around n e h hlocal r hr
    obtain ⟨_, κ, s', κ', hs, hκ⟩ := h.kept hp hb
    cases hs with | declare _ he =>
    cases he with | some he =>
    cases κ with
    | nil => exact absurd (hκ.mp rfl) hlocal
    | cons top κ =>
      have hread : Readable (mark (top :: κ) n false) r.name := he.allowed hr
      intro heq
      refine hread _ rfl ?_
      rw [heq, Bindings.get?_insert_self]
  case returns =>
    intro around k e h
    obtain ⟨_, κ, s', κ', hs, _⟩ := h.kept hp hb
    cases hs with | leave hin _ => exact List.any_eq_true.mp hin
  case receivers =>
    intro around k h
    obtain ⟨κ, h⟩ := hexpr h
    exact classAround_ne_none.mp h
  case inherited =>
    intro around k m h
    obtain ⟨κ, h⟩ := hexpr h
    exact classAround_eq_derived.mp h
  case superclasses =>
    intro around n r ms h
    obtain ⟨_, κ, s', κ', hs, _⟩ := h.kept hp hb
    cases hs with | derived _ hne _ => exact hne

/-! ## From the rules to the judgement -/

theorem Resolver.Settled.readable {κ : List (Bindings Bool)} (h : Settled κ) (name : Token) :
    Readable κ name :=
  fun scope hscope => h scope (List.mem_of_mem_head? hscope) name.lexeme

/-- While a variable is initialized, all others can be read. -/
theorem Resolver.Settled.readable_mark {κ : List (Bindings Bool)} (h : Settled κ) {name n : Token}
    (hne : κ ≠ [] → name.lexeme ≠ n.lexeme) : Readable (mark κ n false) name := by
  cases κ with
  | nil => exact h.readable name
  | cons top κ =>
    rintro scope ⟨⟩
    rw [Bindings.get?_insert, if_neg (Ne.symm (hne (List.cons_ne_nil _ _)))]
    exact h.readable name top rfl

theorem Resolver.exists_params {top : Bindings Bool} {κ : List (Bindings Bool)} {ps : List Token}
    (hnew : ∀ p ∈ ps, top.contains p.lexeme = false) (hd : (ps.map Token.lexeme).Nodup) :
    ∃ κ', Params (top :: κ) ps κ' ∧ Adds (ps.map Token.lexeme) (top :: κ) κ' := by
  induction ps generalizing top with
  | nil => exact ⟨_, .nil, .refl _⟩
  | cons p ps ih =>
    obtain ⟨hp, hnew⟩ := List.forall_mem_cons.mp hnew
    obtain ⟨hne, hd⟩ := List.nodup_cons.mp hd
    have hnew' : ∀ q ∈ ps,
        ((top.insert p.lexeme false).insert p.lexeme true).contains q.lexeme = false := by
      intro q hq
      have hpq : p.lexeme ≠ q.lexeme := fun heq => hne (heq ▸ List.mem_map_of_mem hq)
      rw [contains_bound, hnew q hq, Bool.or_false, decide_eq_false hpq]
    obtain ⟨κ', hps, hadds⟩ := ih hnew' hd
    refine ⟨κ', .cons ?_ hps, (adds_bound (top :: κ) p).trans hadds⟩
    rintro scope ⟨⟩
    exact hp

theorem Stmt.Scoped.adds {place : Place} {κ κ' : List (Bindings Bool)} {s s' : Stmt}
    (h : Stmt.Scoped place κ s s' κ') (hb : s.Bare) : Adds (Stmt.label s.declared) κ κ' := by
  have hquiet := h.eq_of_quiet hb
  cases h with
  | expression | print | block | branch | choice | loop | leave =>
    rw [hquiet trivial]
    exact .refl κ
  | declare | function | base | derived => exact adds_bound κ _

/-- The scopes that are open in front of a statement declare what the bodies around it
declared so far, and the names of the statement are new. -/
structure Stmt.Ready (around : List Body) (κ : List (Bindings Bool)) (s : Stmt) : Prop where
  settled : Settled κ
  lists : ∀ κ', Adds (Stmt.label s.declared) κ κ' → Lists κ' (scopesAround around)
  fresh : ∀ n ∈ s.declared, Fresh κ n.1

theorem Stmt.Ready.local {around : List Body} {κ : List (Bindings Bool)} {n : Token}
    {e : Option Expr} (h : (Stmt.declare n e).Ready around κ) (hκ : κ ≠ []) : around ≠ [] := by
  rintro rfl
  have hlists : Lists (mark κ n false) [] := h.lists _ (adds_mark κ n false)
  refine hκ (List.length_eq_zero_iff.mp ?_)
  rw [← length_mark κ n false, hlists.length_eq, List.length_nil]

/-- A statement under a condition finds the scopes as the condition does. -/
theorem Stmt.Ready.under {around : List Body} {κ : List (Bindings Bool)} {s t : Stmt}
    (h : s.Ready around κ) (hs : s.declared = []) (ht : t.Quiet) : t.Ready around κ := by
  have hlists := h.lists
  rw [hs] at hlists
  exact ⟨h.settled, by rwa [ht.declared_eq], by simp [ht.declared_eq]⟩

/-- No name of a list is declared in front of it in the innermost body. -/
def Spare (around : List Body) (l : List Stmt) : Prop :=
  ∀ b ∈ (extend around l).head?, b.names.Nodup

theorem Spare.tail {around : List Body} {s : Stmt} {l : List Stmt} (h : Spare around (s :: l)) :
    Spare (extend around [s]) l := by
  rwa [Spare, extend_extend]

theorem Spare.ready {around : List Body} {s : Stmt} {l : List Stmt} (h : Spare around (s :: l))
    {κ : List (Bindings Bool)} (hs : Settled κ) (hκ : Lists κ (scopesAround around)) :
    s.Ready (extend around [s]) κ := by
  have hlabel : Stmt.declaredAll [s] = s.declared := List.append_nil _
  refine ⟨hs, fun κ' hadds => ?_, fun n hn scope hscope => ?_⟩
  · rw [scopesAround_extend, hlabel]
    exact hκ.declareIn hadds
  cases around with
  | nil =>
    cases hκ
    cases hscope
  | cons b around =>
    cases hκ with | cons htop _ =>
    cases hscope
    have hnodup := h _ rfl
    rw [Body.names_append] at hnodup
    have hmem : n.1.lexeme ∈ Stmt.label (Stmt.declaredAll (s :: l)) :=
      List.mem_map_of_mem (List.mem_append_left _ hn)
    have hnot : n.1.lexeme ∉ b.names := fun hb => List.disjoint_of_nodup_append hnodup hb hmem
    rw [← Bool.not_eq_true, htop]
    exact hnot

/-- The parameters of a body are declared, and its statements can follow. -/
theorem Body.exists_params {b : Body} (hd : b.names.Nodup) {κ : List (Bindings Bool)}
    {around : List Body} (hs : Settled κ) (hκ : Lists κ (b.owner.keywords ++ scopesAround around)) :
    ∃ κ', Params (.empty :: κ) b.params κ' ∧ Settled κ' ∧
      Lists κ' (scopesAround (b.opened :: around)) ∧ Spare (b.opened :: around) b.statements := by
  have hnames : b.names =
      b.params.map Token.lexeme ++ Stmt.label (Stmt.declaredAll b.statements) := by
    rw [← b.names_opened, ← Body.names_append]
    rfl
  have hparams := hnames ▸ hd
  obtain ⟨κ', hps, hadds⟩ := @Resolver.exists_params .empty κ b.params (fun _ _ => rfl)
    (List.Nodup.of_append_left hparams)
  refine ⟨κ', hps, Settled.params (.cons complete_empty hs) hps, ?_, ?_⟩
  · have hlists := (Lists.push hκ).declareIn hadds
    rwa [declareIn, List.nil_append, ← b.names_opened] at hlists
  · rintro _ ⟨⟩
    exact hd

section

variable {p : Program}

/-- An expression may stand where it does if all it reads can be read. -/
theorem Program.WellScoped.exists_expr (hw : p.WellScoped) {around : List Body} {s : Stmt}
    (hs : p.Holds around s) {e : Expr} (he : e ∈ s.exprs) {κ : List (Bindings Bool)}
    (hread : ∀ r, e.Has (.var r) → Readable κ r.name) :
    ∃ e', Expr.Scoped (placeAround around).classBody κ e e' := by
  refine Expr.exists_scoped e fun a ha => ?_
  cases a with
  | var r => exact hread r ha
  | receiver k => exact classAround_ne_none.mpr (hw.receivers around k ⟨s, hs, e, he, ha⟩)
  | inherited k m => exact classAround_eq_derived.mpr (hw.inherited around k m ⟨s, hs, e, he, ha⟩)
  | literal | unary | binary | logical | group | assign | call | get | set => trivial

theorem Program.WellScoped.exists_expr? (hw : p.WellScoped) {around : List Body} {s : Stmt}
    (hs : p.Holds around s) {e : Option Expr} (he : s.exprs = e.toList) {κ : List (Bindings Bool)}
    (hread : ∀ x ∈ e, ∀ r, x.Has (.var r) → Readable κ r.name) :
    ∃ e', Option.Rel (Expr.Scoped (placeAround around).classBody κ) e e' := by
  cases e with
  | none => exact ⟨none, .none⟩
  | some e =>
    obtain ⟨e', he⟩ := hw.exists_expr hs (by rw [he]; exact List.mem_singleton_self e) (hread e rfl)
    exact ⟨some e', .some he⟩

mutual

theorem Stmt.exists_scoped (hw : p.WellScoped) : ∀ (s : Stmt) {around : List Body}
    {κ : List (Bindings Bool)}, s.Bare → p.Holds around s → s.Ready around κ →
    ∃ s' κ', Stmt.Scoped (placeAround around) κ s s' κ'
  | .expression e, _, κ, _, hs, h => by
    obtain ⟨e', he⟩ := hw.exists_expr hs (List.mem_singleton_self e) fun r _ => h.settled.readable _
    exact ⟨_, κ, .expression he⟩
  | .print e, _, κ, _, hs, h => by
    obtain ⟨e', he⟩ := hw.exists_expr hs (List.mem_singleton_self e) fun r _ => h.settled.readable _
    exact ⟨_, κ, .print he⟩
  | .declare n e, around, κ, _, hs, h => by
    have hread : ∀ x ∈ e, ∀ r, x.Has (.var r) → Readable (mark κ n false) r.name := by
      rintro x rfl r hr
      exact h.settled.readable_mark fun hκ => hw.initializers around n x hs (h.local hκ) r hr
    obtain ⟨e', he⟩ := hw.exists_expr? hs rfl hread
    exact ⟨_, _, .declare (h.fresh _ (List.mem_singleton_self _)) he⟩
  | .block b, around, κ, .block hb, hs, h => by
    have hmem : ⟨.block, [], b⟩ ∈ (Stmt.block b).bodies := List.mem_singleton_self _
    obtain ⟨κ₁, hps, hsettled, hlists, hspare⟩ :=
      Body.exists_params (hw.distinct around _ hs _ hmem) h.settled (h.lists κ (.refl κ))
    obtain ⟨b', κ₂, hbody⟩ := Stmt.exists_scopedAll hw b hb (hs.body hmem) hsettled hlists hspare
    cases hps
    obtain ⟨top, rfl⟩ := hbody.sameTail.cons
    exact ⟨_, κ, .block hbody⟩
  | .branch c s none, around, κ, .branch _ hbs hqs _ _, hs, h => by
    obtain ⟨c', hc⟩ := hw.exists_expr hs (List.mem_singleton_self c) fun r _ => h.settled.readable _
    obtain ⟨s', κ₁, hs'⟩ :=
      Stmt.exists_scoped hw s hbs (hs.under List.mem_cons_self) (h.under rfl hqs)
    exact ⟨_, κ₁, .branch hc hs'⟩
  | .branch c s (some a), around, κ, .branch _ hbs hqs hba hqa, hs, h => by
    obtain ⟨c', hc⟩ := hw.exists_expr hs (List.mem_singleton_self c) fun r _ => h.settled.readable _
    obtain ⟨s', κ₁, hs'⟩ :=
      Stmt.exists_scoped hw s hbs (hs.under List.mem_cons_self) (h.under rfl hqs)
    obtain rfl := hs'.eq_of_quiet hbs hqs
    obtain ⟨a', κ₂, ha'⟩ := Stmt.exists_scoped hw a (hba a rfl)
      (hs.under (List.mem_cons_of_mem _ (List.mem_singleton_self a))) (h.under rfl (hqa a rfl))
    exact ⟨_, κ₂, .choice hc hs' ha'⟩
  | .loop c s, around, κ, .loop _ hbs hqs, hs, h => by
    obtain ⟨c', hc⟩ := hw.exists_expr hs (List.mem_singleton_self c) fun r _ => h.settled.readable _
    obtain ⟨s', κ₁, hs'⟩ :=
      Stmt.exists_scoped hw s hbs (hs.under List.mem_cons_self) (h.under rfl hqs)
    exact ⟨_, κ₁, .loop hc hs'⟩
  | .function ⟨n, ps, b⟩, around, κ, .function _ _ hb, hs, h => by
    have hmem : ⟨.function n, ps, b⟩ ∈ (Stmt.function ⟨n, ps, b⟩).bodies :=
      List.mem_singleton_self _
    obtain ⟨κ₁, hps, hsettled, hlists, hspare⟩ :=
      Body.exists_params (hw.distinct around _ hs _ hmem) (h.settled.bound n)
        (h.lists _ (adds_bound κ n))
    obtain ⟨b', κ₂, hbody⟩ := Stmt.exists_scopedAll hw b hb (hs.body hmem) hsettled hlists hspare
    obtain ⟨top, rfl⟩ := (hps.sameTail.trans hbody.sameTail).cons
    exact ⟨_, _, .function (h.fresh _ (List.mem_singleton_self _)) hps hbody⟩
  | .leave k e, around, κ, _, hs, h => by
    obtain ⟨e', he⟩ := hw.exists_expr? hs rfl fun x _ r _ => h.settled.readable r.name
    exact ⟨_, κ, .leave (List.any_eq_true.mpr (hw.returns around k e hs)) he⟩
  | .classDecl n none ms, around, κ, .classDecl _ _ _ hb, hs, h => by
    obtain ⟨ms', hms⟩ := Stmt.exists_scopedMethods hw ms hb
      (fun r hr => hs.body (List.mem_map_of_mem hr))
      (fun r hr => hw.distinct around _ hs _ (List.mem_map_of_mem hr))
      (.cons complete_thisScope (h.settled.bound n))
      ((h.lists _ (adds_bound κ n)).keyword "this")
    exact ⟨_, _, .base (h.fresh _ (List.mem_singleton_self _)) hms⟩
  | .classDecl n (some r) ms, around, κ, .classDecl _ _ _ hb, hs, h => by
    obtain ⟨ms', hms⟩ := Stmt.exists_scopedMethods hw ms hb
      (fun r hr => hs.body (List.mem_map_of_mem hr))
      (fun r hr => hw.distinct around _ hs _ (List.mem_map_of_mem hr))
      (.cons complete_thisScope (.cons complete_superScope (h.settled.bound n)))
      (((h.lists _ (adds_bound κ n)).keyword "super").keyword "this")
    exact ⟨_, _, .derived (h.fresh _ (List.mem_singleton_self _))
      (hw.superclasses around n r ms hs) hms⟩

theorem Stmt.exists_scopedAll (hw : p.WellScoped) : ∀ (l : List Stmt) {around : List Body}
    {κ : List (Bindings Bool)}, (∀ s ∈ l, s.Bare) → p.HoldsAll around l → Settled κ →
    Lists κ (scopesAround around) → Spare around l → ∃ l' κ', Stmt.ScopedAll (placeAround around) κ l l' κ'
  | [], _, κ, _, _, _, _, _ => ⟨[], κ, .nil⟩
  | s :: l, around, κ, hb, hl, hs, hκ, hspare => by
    obtain ⟨hbs, hbl⟩ := List.forall_mem_cons.mp hb
    have hready := hspare.ready hs hκ
    obtain ⟨s', κ₁, hscoped⟩ := Stmt.exists_scoped hw s hbs hl.head hready
    obtain ⟨l', κ₂, hall⟩ := Stmt.exists_scopedAll hw l hbl hl.tail (hscoped.settled hs)
      (hready.lists κ₁ (hscoped.adds hbs)) hspare.tail
    rw [placeAround_extend] at hscoped hall
    exact ⟨_, _, .cons hscoped hall⟩

theorem Stmt.exists_scopedMethods (hw : p.WellScoped) : ∀ (ms : List (Routine Stmt))
    {around : List Body} {κ : List (Bindings Bool)} {n : Token} {superclass : Option Reference}
    {all : List (Routine Stmt)}, (∀ r ∈ ms, ∀ s ∈ r.body, s.Bare) →
    (∀ r ∈ ms, p.HoldsAll (⟨.method n superclass all, r.params, []⟩ :: around) r.body) →
    (∀ r ∈ ms, (Body.names ⟨.method n superclass all, r.params, r.body⟩).Nodup) → Settled κ →
    Lists κ ((Owner.method n superclass all).keywords ++ scopesAround around) →
    ∃ ms', Stmt.ScopedMethods (if superclass.isSome then .derived else .base) κ ms ms'
  | [], _, _, _, _, _, _, _, _, _, _ => ⟨[], .nil⟩
  | ⟨m, ps, b⟩ :: ms, around, κ, n, superclass, all, hb, hl, hd, hs, hκ => by
    obtain ⟨hbm, hbms⟩ := List.forall_mem_cons.mp hb
    obtain ⟨hlm, hlms⟩ := List.forall_mem_cons.mp hl
    obtain ⟨hdm, hdms⟩ := List.forall_mem_cons.mp hd
    obtain ⟨κ₁, hps, hsettled, hlists, hspare⟩ := Body.exists_params hdm hs hκ
    obtain ⟨b', κ₂, hbody⟩ := Stmt.exists_scopedAll hw b hbm hlm hsettled hlists hspare
    obtain ⟨ms', hms⟩ := Stmt.exists_scopedMethods hw ms hbms hlms hdms hs hκ
    obtain ⟨top, rfl⟩ := (hps.sameTail.trans hbody.sameTail).cons
    have hplace : ∀ l, placeAround (⟨.method n superclass all, ps, l⟩ :: around) =
        ⟨true, if superclass.isSome then .derived else .base⟩ := by
      intro l
      cases superclass <;> rfl
    rw [hplace] at hbody
    exact ⟨_, .cons hps hbody hms⟩

end

end

/-! ## The resolver and the rules -/

/-- Of a program as it is read, the resolver reports nothing exactly if it is well-scoped. -/
theorem Program.resolve_eq_nil_iff {tokens : List Token} {p : Program}
    (h : Program.ofTokens tokens = (p, [])) : p.resolve.2 = [] ↔ p.WellScoped := by
  have hb := Program.bare_of_ofTokens h
  constructor
  · intro hnil
    exact (Program.resolve_eq_iff.mp (Prod.ext rfl hnil)).wellScoped hb
  · intro hw
    have hspare : Spare [] p := fun _ hmem => by cases hmem
    obtain ⟨p', κ', hall⟩ := Stmt.exists_scopedAll hw p hb p.holdsAll_top (List.forall_mem_nil _)
      .nil hspare
    obtain rfl : κ' = [] := List.length_eq_zero_iff.mp hall.sameTail.1
    rw [Program.resolve_eq_iff.mpr hall]

/-- A `super` in a function inside a method keeps the rules; a variable that is read while it
is initialized does not. -/
theorem Program.resolve_eq_nil_iff_nested :
    let kept := (scan ("fun f(a) \x7b var b = a; class B < A \x7b m(b) \x7b " ++
      "fun g() \x7b return super.m(this); \x7d return g; \x7d \x7d \x7d")).1
    let broken := (scan "\x7b var a = 1; fun f(b) \x7b var c = a + c; \x7d \x7d").1
    ((Program.ofTokens kept).2 = [] ∧ (Program.ofTokens kept).1.length = 1 ∧
      (Program.ofTokens kept).1.resolve.2 = [] ∧ (Program.ofTokens broken).2 = [] ∧
      (Program.ofTokens broken).1.resolve.2 ≠ []) ∧
      (Program.ofTokens kept).1.WellScoped ∧ ¬ (Program.ofTokens broken).1.WellScoped := by
  intro kept broken
  have hread : (Program.ofTokens kept).2 = [] ∧ (Program.ofTokens kept).1.length = 1 ∧
      (Program.ofTokens kept).1.resolve.2 = [] ∧ (Program.ofTokens broken).2 = [] ∧
      (Program.ofTokens broken).1.resolve.2 ≠ [] := by decide +kernel
  clear_value kept broken
  refine ⟨hread, ?_, fun hw => ?_⟩
  · exact (Program.resolve_eq_nil_iff (Prod.ext rfl hread.1)).mp hread.2.2.1
  · exact hread.2.2.2.2 ((Program.resolve_eq_nil_iff (Prod.ext rfl hread.2.2.2.1)).mpr hw)

end Treewalk
