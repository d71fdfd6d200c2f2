import Treewalk.Proofs.Scoping

/-!
# Trees over a vocabulary

A vocabulary says which tokens a tree may keep and which names its variables may have.
Resolving a tree over a vocabulary gives another one, and the faults it finds are faults at
tokens of the vocabulary, whether or not the tree keeps the scoping rules
(`Program.resolve_over`).
-/

namespace Treewalk

structure Vocabulary where
  /-- A token that trees may keep. -/
  token : Token → Prop
  /-- A name that variables may have. -/
  name : String → Prop

/-- The token may stand for a variable. -/
structure Vocabulary.Binds (V : Vocabulary) (t : Token) : Prop where
  token : V.token t
  name : V.name t.lexeme

inductive Expr.Over (V : Vocabulary) : Expr → Prop
  | literal (v : Literal) : Over V (.literal v)
  | group {e : Expr} : e.Over V → Over V (.group e)
  | unary {op : Token} {e : Expr} : V.token op → e.Over V → Over V (.unary op e)
  | binary {op : Token} {a b : Expr} :
    V.token op → a.Over V → b.Over V → Over V (.binary op a b)
  | logical {op : Token} {a b : Expr} :
    V.token op → a.Over V → b.Over V → Over V (.logical op a b)
  | var {r : Reference} : V.Binds r.name → Over V (.var r)
  | assign {r : Reference} {e : Expr} : V.Binds r.name → e.Over V → Over V (.assign r e)
  | call {f : Expr} {p : Token} {args : List Expr} :
    f.Over V → V.token p → (∀ a ∈ args, a.Over V) → Over V (.call f p args)
  | get {o : Expr} {n : Token} : o.Over V → V.token n → Over V (.get o n)
  | set {o v : Expr} {n : Token} : o.Over V → V.token n → v.Over V → Over V (.set o n v)
  | receiver {k : Reference} : V.token k.name → Over V (.receiver k)
  | inherited {k : Reference} {m : Token} : V.token k.name → V.token m → Over V (.inherited k m)

inductive Stmt.Over (V : Vocabulary) : Stmt → Prop
  | expression {e : Expr} : e.Over V → Over V (.expression e)
  | print {e : Expr} : e.Over V → Over V (.print e)
  | declare {n : Token} {e : Option Expr} :
    V.Binds n → (∀ x ∈ e, x.Over V) → Over V (.declare n e)
  | block {b : List Stmt} : (∀ s ∈ b, s.Over V) → Over V (.block b)
  | branch {c : Expr} {s : Stmt} {a : Option Stmt} :
    c.Over V → s.Over V → (∀ t ∈ a, t.Over V) → Over V (.branch c s a)
  | loop {c : Expr} {s : Stmt} : c.Over V → s.Over V → Over V (.loop c s)
  | function {r : Routine Stmt} : V.Binds r.name → (∀ p ∈ r.params, V.Binds p) →
    (∀ s ∈ r.body, s.Over V) → Over V (.function r)
  | leave {k : Token} {e : Option Expr} :
    V.token k → (∀ x ∈ e, x.Over V) → Over V (.leave k e)
  | classDecl {n : Token} {r : Option Reference} {ms : List (Routine Stmt)} :
    V.Binds n → (∀ x ∈ r, V.token x.name) → (∀ m ∈ ms, V.token m.name) →
    (∀ m ∈ ms, ∀ p ∈ m.params, V.Binds p) → (∀ m ∈ ms, ∀ s ∈ m.body, s.Over V) →
    Over V (.classDecl n r ms)

/-- A routine whose tree is over the vocabulary. The name of a method is declared in no
scope. -/
structure Routine.Over (V : Vocabulary) (r : Routine Stmt) : Prop where
  name : V.token r.name
  params : ∀ p ∈ r.params, V.Binds p
  body : ∀ s ∈ r.body, s.Over V

/-- A program over the vocabulary. -/
def Program.Over (V : Vocabulary) (p : Program) : Prop :=
  ∀ s ∈ p, s.Over V

variable {V : Vocabulary}

theorem Stmt.Over.routine {r : Routine Stmt} (h : Stmt.Over V (.function r)) : r.Over V := by
  cases h with | function hn hps hb => exact ⟨hn.token, hps, hb⟩

theorem Stmt.Over.methods {n : Token} {r : Option Reference} {ms : List (Routine Stmt)}
    (h : Stmt.Over V (.classDecl n r ms)) : ∀ m ∈ ms, m.Over V := by
  cases h with
  | classDecl _ _ hns hps hbs => exact fun m hm => ⟨hns m hm, hps m hm, hbs m hm⟩

theorem Stmt.over_classDecl {n : Token} {r : Option Reference} {ms : List (Routine Stmt)}
    (hn : V.Binds n) (hr : ∀ x ∈ r, V.token x.name) (hms : ∀ m ∈ ms, m.Over V) :
    Stmt.Over V (.classDecl n r ms) :=
  .classDecl hn hr (fun m hm => (hms m hm).name) (fun m hm => (hms m hm).params)
    fun m hm => (hms m hm).body

/-! ## What resolving keeps -/

/-- The diagnostic is one of the resolver, at a token of the vocabulary. -/
def Diagnostic.ScopingOver (V : Vocabulary) (d : Diagnostic) : Prop :=
  ∃ t f, V.token t ∧ d = .scoping t f

namespace Resolver

/-- The result is as `P` says, and all faults found so far are at tokens of the vocabulary
if those before were. -/
def Keeps {α : Type} (V : Vocabulary) (x : Resolver α) (P : α → Prop) : Prop :=
  ∀ s, (∀ d ∈ s.faults, d.ScopingOver V) →
    P (x s).1 ∧ ∀ d ∈ (x s).2.faults, d.ScopingOver V

variable {α β : Type} {P : α → Prop} {Q : β → Prop}

theorem keeps_pure {a : α} (h : P a) : Keeps V (pure a) P :=
  fun _ hs => ⟨h, hs⟩

theorem Keeps.bind {x : Resolver α} {f : α → Resolver β} (hx : Keeps V x P)
    (hf : ∀ a, P a → Keeps V (f a) Q) : Keeps V (x >>= f) Q := by
  intro s hs
  rw [run_bind]
  obtain ⟨ha, hfaults⟩ := hx s hs
  exact hf _ ha _ hfaults

theorem keeps_fault {t : Token} (ht : V.token t) (f : ScopeFault) :
    Keeps V (fault t f) fun _ => True :=
  fun _ hs => ⟨trivial, List.forall_mem_cons.mpr ⟨⟨t, f, ht, rfl⟩, hs⟩⟩

/-- A check that may find a fault, in front of what follows in any case. -/
theorem keeps_guard {c : Prop} [Decidable c] {check : Resolver Unit} {x : Resolver α}
    (hcheck : c → Keeps V check fun _ => True) (hx : Keeps V x P) :
    Keeps V (if c then do check; x else x) P := by
  split
  · exact (hcheck ‹_›).bind fun _ _ => hx
  · exact hx

theorem keeps_openScope (names : Bindings Bool) : Keeps V (openScope names) fun _ => True :=
  fun _ hs => ⟨trivial, hs⟩

theorem keeps_closeScope : Keeps V closeScope fun _ => True :=
  fun _ hs => ⟨trivial, hs⟩

theorem keeps_declare {t : Token} (ht : V.token t) : Keeps V (declare t) fun _ => True := by
  rintro ⟨κ, fs⟩ hs
  obtain ⟨_, e⟩ | ⟨_, _, _, _, e⟩ := declare_cases t κ fs
  · rw [e]
    exact ⟨trivial, hs⟩
  · rw [e]
    exact keeps_fault ht _ _ hs

theorem keeps_define (t : Token) : Keeps V (define t) fun _ => True := by
  rintro ⟨scopes, faults⟩ hs
  cases scopes <;> exact ⟨trivial, hs⟩

theorem keeps_locate (r : Reference) : Keeps V (locate r) fun r' => r'.name = r.name := by
  intro s hs
  rw [locate_eq]
  exact ⟨located_name _ _, hs⟩

theorem keeps_checkRead {r : Reference} (hr : V.token r.name) :
    Keeps V (checkRead r) fun _ => True := by
  rintro ⟨κ, fs⟩ hs
  obtain ⟨_, e⟩ | ⟨_, e⟩ := checkRead_cases r κ fs
  · rw [e]
    exact ⟨trivial, hs⟩
  · rw [e]
    exact keeps_fault hr _ _ hs

theorem keeps_checkSuper (body : ClassBody) {t : Token} (ht : V.token t) :
    Keeps V (checkSuper body t) fun _ => True := by
  cases body with
  | none | base => exact keeps_fault ht _
  | derived => exact keeps_pure trivial

theorem keeps_parameters {ps : List Token} (hps : ∀ p ∈ ps, V.Binds p) :
    Keeps V (parameters ps) fun _ => True := by
  induction ps with
  | nil => exact keeps_pure trivial
  | cons p ps ih =>
    obtain ⟨hp, hps⟩ := List.forall_mem_cons.mp hps
    exact (keeps_declare hp.token).bind fun _ _ => (keeps_define p).bind fun _ _ => ih hps

theorem keeps_superclass {name : Token} {r : Option Reference} (hr : ∀ x ∈ r, V.token x.name) :
    Keeps V (superclass name r) fun r' => ∀ x ∈ r', V.token x.name := by
  cases r with
  | none => exact keeps_pure fun _ h => nomatch h
  | some r =>
    have hr := hr r rfl
    refine keeps_guard (fun _ => keeps_fault hr _) ((keeps_locate r).bind fun r' hr' => ?_)
    refine (keeps_openScope _).bind fun _ _ => keeps_pure fun x hx => ?_
    obtain rfl := Option.some.inj hx
    rwa [hr']

end Resolver

open Resolver

mutual

theorem Expr.resolve_over (body : ClassBody) : ∀ (level : Nat) {e : Expr}, e.Over V →
    Keeps V (e.resolve body level) (Expr.Over V)
  | level, .literal v, _ => by
    rw [Expr.resolve]
    exact keeps_pure (.literal v)
  | level, .group e, h => by
    cases h with | group he =>
    rw [Expr.resolve, deeper_eq]
    exact (e.resolve_over body _ he).bind fun _ he => keeps_pure (.group he)
  | level, .unary op e, h => by
    cases h with | unary hop he =>
    rw [Expr.resolve, deeper_eq]
    exact (e.resolve_over body _ he).bind fun _ he => keeps_pure (.unary hop he)
  | level, .binary op a b, h => by
    cases h with | binary hop ha hb =>
    rw [Expr.resolve, deeper_eq, deeper_eq]
    exact (a.resolve_over body _ ha).bind fun _ ha => (b.resolve_over body _ hb).bind fun _ hb =>
      keeps_pure (.binary hop ha hb)
  | level, .logical op a b, h => by
    cases h with | logical hop ha hb =>
    rw [Expr.resolve, deeper_eq, deeper_eq]
    exact (a.resolve_over body _ ha).bind fun _ ha => (b.resolve_over body _ hb).bind fun _ hb =>
      keeps_pure (.logical hop ha hb)
  | level, .var r, h => by
    cases h with | var hr =>
    rw [Expr.resolve]
    exact (keeps_checkRead hr.token).bind fun _ _ => (keeps_locate r).bind fun r' hr' =>
      keeps_pure (.var (hr' ▸ hr))
  | level, .assign r e, h => by
    cases h with | assign hr he =>
    rw [Expr.resolve, deeper_eq]
    exact (e.resolve_over body _ he).bind fun _ he => (keeps_locate r).bind fun r' hr' =>
      keeps_pure (.assign (hr' ▸ hr) he)
  | level, .call f p args, h => by
    cases h with | call hf hp hargs =>
    rw [Expr.resolve, deeper_eq]
    exact (f.resolve_over body _ hf).bind fun _ hf =>
      (Expr.resolveAll_over body _ hargs).bind fun _ hargs => keeps_pure (.call hf hp hargs)
  | level, .get o n, h => by
    cases h with | get ho hn =>
    rw [Expr.resolve, deeper_eq]
    exact (o.resolve_over body _ ho).bind fun _ ho => keeps_pure (.get ho hn)
  | level, .set o n v, h => by
    cases h with | set ho hn hv =>
    rw [Expr.resolve, deeper_eq, deeper_eq]
    exact (v.resolve_over body _ hv).bind fun _ hv => (o.resolve_over body _ ho).bind fun _ ho =>
      keeps_pure (.set ho hn hv)
  | level, .receiver k, h => by
    cases h with | receiver hk =>
    rw [Expr.resolve]
    split
    · exact (keeps_fault hk _).bind fun _ _ => keeps_pure (.receiver hk)
    · exact (keeps_locate k).bind fun k' hk' => keeps_pure (.receiver (hk' ▸ hk))
  | level, .inherited k m, h => by
    cases h with | inherited hk hm =>
    rw [Expr.resolve]
    exact (keeps_checkSuper body hk).bind fun _ _ => (keeps_locate k).bind fun k' hk' =>
      keeps_pure (.inherited (hk' ▸ hk) hm)

theorem Expr.resolveAll_over (body : ClassBody) : ∀ (level : Nat) {es : List Expr},
    (∀ e ∈ es, e.Over V) → Keeps V (Expr.resolveAll body level es) fun es' => ∀ e ∈ es', e.Over V
  | level, [], _ => by
    rw [Expr.resolveAll]
    exact keeps_pure fun _ h => nomatch h
  | level, e :: es, h => by
    obtain ⟨he, hes⟩ := List.forall_mem_cons.mp h
    rw [Expr.resolveAll, deeper_eq]
    exact (e.resolve_over body _ he).bind fun _ he =>
      (Expr.resolveAll_over body level hes).bind fun _ hes =>
        keeps_pure (List.forall_mem_cons.mpr ⟨he, hes⟩)

end

theorem Expr.resolve?_over (body : ClassBody) {e : Option Expr} (h : ∀ x ∈ e, x.Over V) :
    Keeps V (Expr.resolve? body e) fun e' => ∀ x ∈ e', x.Over V := by
  cases e with
  | none => exact keeps_pure fun _ h => nomatch h
  | some e =>
    refine (e.resolve_over body 1 (h e rfl)).bind fun e' he' => keeps_pure fun x hx => ?_
    obtain rfl := Option.some.inj hx
    exact he'

mutual

theorem Stmt.resolve_over (place : Place) : ∀ (level : Nat) {s : Stmt}, s.Over V →
    Keeps V (s.resolve place level) (Stmt.Over V)
  | level, .expression e, h => by
    cases h with | expression he =>
    rw [Stmt.resolve]
    exact (e.resolve_over _ 1 he).bind fun _ he => keeps_pure (.expression he)
  | level, .print e, h => by
    cases h with | print he =>
    rw [Stmt.resolve]
    exact (e.resolve_over _ 1 he).bind fun _ he => keeps_pure (.print he)
  | level, .declare n e, h => by
    cases h with | declare hn he =>
    rw [Stmt.resolve]
    exact (keeps_declare hn.token).bind fun _ _ => (Expr.resolve?_over _ he).bind fun _ he =>
      (keeps_define n).bind fun _ _ => keeps_pure (.declare hn he)
  | level, .block b, h => by
    cases h with | block hb =>
    rw [Stmt.resolve]
    exact (keeps_openScope _).bind fun _ _ => (Stmt.resolveAll_over place _ hb).bind fun _ hb =>
      keeps_closeScope.bind fun _ _ => keeps_pure (.block hb)
  | level, .branch c s none, h => by
    cases h with | branch hc hs _ =>
    rw [Stmt.resolve, deeper_eq]
    exact (c.resolve_over _ 1 hc).bind fun _ hc => (s.resolve_over place _ hs).bind fun _ hs =>
      keeps_pure (.branch hc hs fun _ h => nomatch h)
  | level, .branch c s (some a), h => by
    cases h with | branch hc hs ha =>
    rw [Stmt.resolve, deeper_eq, deeper_eq]
    refine (c.resolve_over _ 1 hc).bind fun _ hc => (s.resolve_over place _ hs).bind fun _ hs => ?_
    refine (a.resolve_over place _ (ha a rfl)).bind fun a' ha' => keeps_pure (.branch hc hs ?_)
    intro t ht
    obtain rfl := Option.some.inj ht
    exact ha'
  | level, .loop c s, h => by
    cases h with | loop hc hs =>
    rw [Stmt.resolve, deeper_eq]
    exact (c.resolve_over _ 1 hc).bind fun _ hc => (s.resolve_over place _ hs).bind fun _ hs =>
      keeps_pure (.loop hc hs)
  | level, .function ⟨n, ps, b⟩, h => by
    cases h with | function hn hps hb =>
    rw [Stmt.resolve]
    exact (keeps_declare hn.token).bind fun _ _ => (keeps_define n).bind fun _ _ =>
      (keeps_openScope _).bind fun _ _ => (keeps_parameters hps).bind fun _ _ =>
      (Stmt.resolveAll_over _ _ hb).bind fun _ hb => keeps_closeScope.bind fun _ _ =>
        keeps_pure (.function hn hps hb)
  | level, .leave k e, h => by
    cases h with | leave hk he =>
    have hvalue : Keeps V (do pure (.leave k (← Expr.resolve? place.classBody e)))
        (Stmt.Over V) := (Expr.resolve?_over _ he).bind fun _ he => keeps_pure (.leave hk he)
    rw [Stmt.resolve]
    split
    · exact hvalue
    · exact (keeps_fault hk _).bind fun _ _ => hvalue
  | level, .classDecl n r ms, h => by
    have hms := h.methods
    cases h with | classDecl hn hr _ _ _ =>
    rw [Stmt.resolve]
    exact (keeps_declare hn.token).bind fun _ _ => (keeps_define n).bind fun _ _ =>
      (keeps_superclass hr).bind fun _ hr => (keeps_openScope _).bind fun _ _ =>
      (Stmt.resolveMethods_over _ _ hms).bind fun _ hms => keeps_closeScope.bind fun _ _ =>
      keeps_guard (fun _ => keeps_closeScope) (keeps_pure (Stmt.over_classDecl hn hr hms))

theorem Stmt.resolveAll_over (place : Place) : ∀ (level : Nat) {l : List Stmt},
    (∀ s ∈ l, s.Over V) → Keeps V (Stmt.resolveAll place level l) fun l' => ∀ s ∈ l', s.Over V
  | level, [], _ => by
    rw [Stmt.resolveAll]
    exact keeps_pure fun _ h => nomatch h
  | level, s :: l, h => by
    obtain ⟨hs, hl⟩ := List.forall_mem_cons.mp h
    rw [Stmt.resolveAll, deeper_eq]
    exact (s.resolve_over place _ hs).bind fun _ hs =>
      (Stmt.resolveAll_over place level hl).bind fun _ hl =>
        keeps_pure (List.forall_mem_cons.mpr ⟨hs, hl⟩)

theorem Stmt.resolveMethods_over (body : ClassBody) : ∀ (level : Nat)
    {ms : List (Routine Stmt)}, (∀ m ∈ ms, m.Over V) →
    Keeps V (Stmt.resolveMethods body level ms) fun ms' => ∀ m ∈ ms', m.Over V
  | level, [], _ => by
    rw [Stmt.resolveMethods]
    exact keeps_pure fun _ h => nomatch h
  | level, ⟨n, ps, b⟩ :: ms, h => by
    obtain ⟨hm, hms⟩ := List.forall_mem_cons.mp h
    rw [Stmt.resolveMethods]
    exact (keeps_openScope _).bind fun _ _ => (keeps_parameters hm.params).bind fun _ _ =>
      (Stmt.resolveAll_over _ level hm.body).bind fun _ hb => keeps_closeScope.bind fun _ _ =>
      (Stmt.resolveMethods_over body level hms).bind fun _ hms =>
        keeps_pure (List.forall_mem_cons.mpr ⟨⟨hm.name, hm.params, hb⟩, hms⟩)

end

/-- Resolving keeps to the vocabulary, with or without faults. -/
theorem Program.resolve_over {p : Program} (h : p.Over V) :
    p.resolve.1.Over V ∧ ∀ d ∈ p.resolve.2, d.ScopingOver V := by
  obtain ⟨hp, hfaults⟩ := Stmt.resolveAll_over ⟨false, .none⟩ 1 h ⟨[], []⟩ fun _ h => nomatch h
  exact ⟨hp, fun d hd => hfaults d (List.mem_reverse.mp hd)⟩

end Treewalk
