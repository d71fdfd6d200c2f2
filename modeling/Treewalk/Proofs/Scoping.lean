import Treewalk.Proofs.Static
import Treewalk.Resolution

/-!
# The scoping rules

The rules that the resolver checks, as judgements on trees. `Expr.Scoped body κ e e'`
says that `e` breaks no rule where the scopes `κ` are open, and that `e'` is `e`
with its distances recorded; `Stmt.Scoped place κ s s' κ'` says the same of a
statement that leaves the scopes `κ'` behind.

The resolver finds no fault exactly in what the judgements hold of:
`Expr.resolve_sound` and `Stmt.resolve_sound` go from the resolver to the
judgement, `Expr.Scoped.resolve_eq` and `Stmt.Scoped.resolve_eq` back, whatever the
level and the faults found before. Facts about resolved programs are proved by
induction on the judgements, without the pass itself.
-/

namespace Treewalk

open Resolver

/-! ## Names in open scopes -/

namespace Resolver

/-- The innermost scope does not declare the name yet. -/
def Fresh (κ : List (Bindings Bool)) (name : Token) : Prop :=
  ∀ scope ∈ κ.head?, scope.contains name.lexeme = false

/-- The innermost scope is not still initializing the variable. -/
def Readable (κ : List (Bindings Bool)) (name : Token) : Prop :=
  ∀ scope ∈ κ.head?, scope.get? name.lexeme ≠ some false

/-- The scopes after a name was marked in the innermost one. -/
def mark (κ : List (Bindings Bool)) (name : Token) (done : Bool) : List (Bindings Bool) :=
  match κ with
  | [] => []
  | scope :: rest => scope.insert name.lexeme done :: rest

/-- The scopes after a complete declaration. -/
def bound (κ : List (Bindings Bool)) (name : Token) : List (Bindings Bool) :=
  mark (mark κ name false) name true

/-- The occurrence with its distance, if a local scope declares its name. -/
def located (κ : List (Bindings Bool)) (ref : Reference) : Reference :=
  match distance? κ ref.name.lexeme with
  | some d => { ref with depth := some d }
  | none => ref

theorem located_name (κ : List (Bindings Bool)) (r : Reference) : (located κ r).name = r.name := by
  unfold located
  split <;> rfl

theorem located_depth {κ : List (Bindings Bool)} {r : Reference} (hr : r.depth = none) {d : Nat}
    (h : (located κ r).depth = some d) :
    ∃ names, κ[d]? = some names ∧ names.contains r.name.lexeme = true := by
  unfold located distance? at h
  split at h
  · rename_i d' hd
    obtain rfl : d' = d := by simpa using h
    obtain ⟨hlt, hc, _⟩ := List.findIdx?_eq_some_iff_getElem.mp hd
    exact ⟨κ[d'], List.getElem?_eq_getElem hlt, hc⟩
  · rw [hr] at h
    cases h

def thisScope : Bindings Bool := Bindings.empty.insert "this" true

def superScope : Bindings Bool := Bindings.empty.insert "super" true

/-- Parameters declared one after the other, with the scopes after them. -/
inductive Params : List (Bindings Bool) → List Token → List (Bindings Bool) → Prop
  | nil {κ : List (Bindings Bool)} : Params κ [] κ
  | cons {κ κ' : List (Bindings Bool)} {p : Token} {rest : List Token} :
    Fresh κ p → Params (bound κ p) rest κ' → Params κ (p :: rest) κ'

end Resolver

/-! ## The judgements -/

mutual

inductive Expr.Scoped (body : ClassBody) (κ : List (Bindings Bool)) : Expr → Expr → Prop
  | literal (v : Literal) : Expr.Scoped body κ (.literal v) (.literal v)
  | group {e e' : Expr} : Expr.Scoped body κ e e' → Expr.Scoped body κ (.group e) (.group e')
  | unary {op : Token} {e e' : Expr} :
    Expr.Scoped body κ e e' → Expr.Scoped body κ (.unary op e) (.unary op e')
  | binary {op : Token} {a a' b b' : Expr} : Expr.Scoped body κ a a' → Expr.Scoped body κ b b' →
    Expr.Scoped body κ (.binary op a b) (.binary op a' b')
  | logical {op : Token} {a a' b b' : Expr} : Expr.Scoped body κ a a' → Expr.Scoped body κ b b' →
    Expr.Scoped body κ (.logical op a b) (.logical op a' b')
  | var {r : Reference} :
    Readable κ r.name → Expr.Scoped body κ (.var r) (.var (located κ r))
  | assign {r : Reference} {e e' : Expr} :
    Expr.Scoped body κ e e' → Expr.Scoped body κ (.assign r e) (.assign (located κ r) e')
  | call {f f' : Expr} {p : Token} {args args' : List Expr} : Expr.Scoped body κ f f' →
    Expr.ScopedAll body κ args args' → Expr.Scoped body κ (.call f p args) (.call f' p args')
  | get {o o' : Expr} {n : Token} :
    Expr.Scoped body κ o o' → Expr.Scoped body κ (.get o n) (.get o' n)
  | set {o o' v v' : Expr} {n : Token} : Expr.Scoped body κ o o' → Expr.Scoped body κ v v' →
    Expr.Scoped body κ (.set o n v) (.set o' n v')
  | receiver {k : Reference} :
    body ≠ .none → Expr.Scoped body κ (.receiver k) (.receiver (located κ k))
  | inherited {k : Reference} {m : Token} :
    body = .derived → Expr.Scoped body κ (.inherited k m) (.inherited (located κ k) m)

inductive Expr.ScopedAll (body : ClassBody) (κ : List (Bindings Bool)) :
    List Expr → List Expr → Prop
  | nil : Expr.ScopedAll body κ [] []
  | cons {e e' : Expr} {es es' : List Expr} : Expr.Scoped body κ e e' →
    Expr.ScopedAll body κ es es' → Expr.ScopedAll body κ (e :: es) (e' :: es')

end

mutual

inductive Stmt.Scoped :
    Place → List (Bindings Bool) → Stmt → Stmt → List (Bindings Bool) → Prop
  | expression {place : Place} {κ : List (Bindings Bool)} {e e' : Expr} :
    Expr.Scoped place.classBody κ e e' → Stmt.Scoped place κ (.expression e) (.expression e') κ
  | print {place : Place} {κ : List (Bindings Bool)} {e e' : Expr} :
    Expr.Scoped place.classBody κ e e' → Stmt.Scoped place κ (.print e) (.print e') κ
  | declare {place : Place} {κ : List (Bindings Bool)} {name : Token} {e e' : Option Expr} :
    Fresh κ name → Option.Rel (Expr.Scoped place.classBody (mark κ name false)) e e' →
    Stmt.Scoped place κ (.declare name e) (.declare name e') (bound κ name)
  | block {place : Place} {κ : List (Bindings Bool)} {top : Bindings Bool} {b b' : List Stmt} :
    Stmt.ScopedAll place (.empty :: κ) b b' (top :: κ) →
    Stmt.Scoped place κ (.block b) (.block b') κ
  | branch {place : Place} {κ κ₁ : List (Bindings Bool)} {c c' : Expr} {s s' : Stmt} :
    Expr.Scoped place.classBody κ c c' → Stmt.Scoped place κ s s' κ₁ →
    Stmt.Scoped place κ (.branch c s none) (.branch c' s' none) κ₁
  | choice {place : Place} {κ κ₁ κ₂ : List (Bindings Bool)} {c c' : Expr} {s s' a a' : Stmt} :
    Expr.Scoped place.classBody κ c c' → Stmt.Scoped place κ s s' κ₁ →
    Stmt.Scoped place κ₁ a a' κ₂ →
    Stmt.Scoped place κ (.branch c s (some a)) (.branch c' s' (some a')) κ₂
  | loop {place : Place} {κ κ₁ : List (Bindings Bool)} {c c' : Expr} {s s' : Stmt} :
    Expr.Scoped place.classBody κ c c' → Stmt.Scoped place κ s s' κ₁ →
    Stmt.Scoped place κ (.loop c s) (.loop c' s') κ₁
  | function {place : Place} {κ κ₁ : List (Bindings Bool)} {top : Bindings Bool} {name : Token}
      {params : List Token} {b b' : List Stmt} :
    Fresh κ name → Params (.empty :: bound κ name) params κ₁ →
    Stmt.ScopedAll ⟨true, place.classBody⟩ κ₁ b b' (top :: bound κ name) →
    Stmt.Scoped place κ (.function ⟨name, params, b⟩) (.function ⟨name, params, b'⟩) (bound κ name)
  | leave {place : Place} {κ : List (Bindings Bool)} {keyword : Token} {e e' : Option Expr} :
    place.inRoutine = true → Option.Rel (Expr.Scoped place.classBody κ) e e' →
    Stmt.Scoped place κ (.leave keyword e) (.leave keyword e') κ
  | base {place : Place} {κ : List (Bindings Bool)} {name : Token}
      {ms ms' : List (Routine Stmt)} : Fresh κ name →
    Stmt.ScopedMethods .base (thisScope :: bound κ name) ms ms' →
    Stmt.Scoped place κ (.classDecl name none ms) (.classDecl name none ms') (bound κ name)
  | derived {place : Place} {κ : List (Bindings Bool)} {name : Token} {r : Reference}
      {ms ms' : List (Routine Stmt)} : Fresh κ name → r.name.lexeme ≠ name.lexeme →
    Stmt.ScopedMethods .derived (thisScope :: superScope :: bound κ name) ms ms' →
    Stmt.Scoped place κ (.classDecl name (some r) ms)
      (.classDecl name (some (located (bound κ name) r)) ms') (bound κ name)

inductive Stmt.ScopedAll :
    Place → List (Bindings Bool) → List Stmt → List Stmt → List (Bindings Bool) → Prop
  | nil {place : Place} {κ : List (Bindings Bool)} : Stmt.ScopedAll place κ [] [] κ
  | cons {place : Place} {κ κ₁ κ₂ : List (Bindings Bool)} {s s' : Stmt} {rest rest' : List Stmt} :
    Stmt.Scoped place κ s s' κ₁ → Stmt.ScopedAll place κ₁ rest rest' κ₂ →
    Stmt.ScopedAll place κ (s :: rest) (s' :: rest') κ₂

inductive Stmt.ScopedMethods :
    ClassBody → List (Bindings Bool) → List (Routine Stmt) → List (Routine Stmt) → Prop
  | nil {body : ClassBody} {κ : List (Bindings Bool)} : Stmt.ScopedMethods body κ [] []
  | cons {body : ClassBody} {κ κ₁ : List (Bindings Bool)} {top : Bindings Bool} {name : Token}
      {params : List Token} {b b' : List Stmt} {rest rest' : List (Routine Stmt)} :
    Params (.empty :: κ) params κ₁ → Stmt.ScopedAll ⟨true, body⟩ κ₁ b b' (top :: κ) →
    Stmt.ScopedMethods body κ rest rest' →
    Stmt.ScopedMethods body κ (⟨name, params, b⟩ :: rest) (⟨name, params, b'⟩ :: rest')

end

/-! ## Only the innermost scope changes -/

namespace Resolver

@[simp] theorem mark_cons (scope : Bindings Bool) (rest : List (Bindings Bool)) (name : Token)
    (done : Bool) : mark (scope :: rest) name done = scope.insert name.lexeme done :: rest := rfl

@[simp] theorem length_mark (κ : List (Bindings Bool)) (name : Token) (done : Bool) :
    (mark κ name done).length = κ.length := by
  cases κ <;> rfl

@[simp] theorem tail_mark (κ : List (Bindings Bool)) (name : Token) (done : Bool) :
    (mark κ name done).tail = κ.tail := by
  cases κ <;> rfl

@[simp] theorem length_bound (κ : List (Bindings Bool)) (name : Token) :
    (bound κ name).length = κ.length := by
  simp [bound]

@[simp] theorem tail_bound (κ : List (Bindings Bool)) (name : Token) :
    (bound κ name).tail = κ.tail := by
  simp [bound]

/-- Scopes that differ in the innermost one only. -/
def SameTail (κ κ' : List (Bindings Bool)) : Prop :=
  κ'.length = κ.length ∧ κ'.tail = κ.tail

theorem SameTail.trans {κ κ₁ κ₂ : List (Bindings Bool)} (h₁ : SameTail κ κ₁)
    (h₂ : SameTail κ₁ κ₂) : SameTail κ κ₂ :=
  ⟨h₂.1.trans h₁.1, h₂.2.trans h₁.2⟩

theorem sameTail_bound (κ : List (Bindings Bool)) (name : Token) : SameTail κ (bound κ name) :=
  ⟨length_bound κ name, tail_bound κ name⟩

theorem SameTail.cons {scope : Bindings Bool} {κ κ' : List (Bindings Bool)}
    (h : SameTail (scope :: κ) κ') : ∃ top, κ' = top :: κ := by
  obtain ⟨hlen, htail⟩ := h
  cases κ' with
  | nil => simp at hlen
  | cons top rest => exact ⟨top, congrArg _ htail⟩

theorem Params.sameTail {κ κ' : List (Bindings Bool)} {ps : List Token} (h : Params κ ps κ') :
    SameTail κ κ' := by
  induction h with
  | nil => exact ⟨rfl, rfl⟩
  | cons _ _ ih => exact (sameTail_bound _ _).trans ih

end Resolver

theorem Stmt.Scoped.sameTail : ∀ {place : Place} {κ κ' : List (Bindings Bool)} {s s' : Stmt},
    Stmt.Scoped place κ s s' κ' → SameTail κ κ'
  | _, _, _, _, _, .expression _ | _, _, _, _, _, .print _ | _, _, _, _, _, .block _
  | _, _, _, _, _, .leave _ _ => ⟨rfl, rfl⟩
  | _, _, _, _, _, .declare _ _ | _, _, _, _, _, .function _ _ _ | _, _, _, _, _, .base _ _
  | _, _, _, _, _, .derived _ _ _ => sameTail_bound _ _
  | _, _, _, _, _, .branch _ h | _, _, _, _, _, .loop _ h => h.sameTail
  | _, _, _, _, _, .choice _ h h' => h.sameTail.trans h'.sameTail

theorem Stmt.ScopedAll.sameTail {place : Place} {κ κ' : List (Bindings Bool)} {l l' : List Stmt}
    (h : Stmt.ScopedAll place κ l l' κ') : SameTail κ κ' := by
  induction l generalizing κ l' with
  | nil => cases h; exact ⟨rfl, rfl⟩
  | cons s rest ih =>
    cases h with
    | cons hs hrest => exact hs.sameTail.trans (ih hrest)

/-! ## From the resolver to the judgements -/

namespace Resolver

theorem run_bind {α β : Type} (x : Resolver α) (f : α → Resolver β) (s : Scoping) :
    (x >>= f) s = f (x s).1 (x s).2 := rfl

/-- The action only adds faults, and if it adds none, `P` relates the scopes
before it, its result and the scopes after it. -/
def Sound {α : Type} (x : Resolver α)
    (P : List (Bindings Bool) → α → List (Bindings Bool) → Prop) : Prop :=
  ∀ s, AddsStatic s.faults (x s).2.faults ∧
    ((x s).2.faults = s.faults → P s.scopes (x s).1 (x s).2.scopes)

section

variable {α β : Type} {P R : List (Bindings Bool) → α → List (Bindings Bool) → Prop}

theorem Sound.imp {x : Resolver α} (h : Sound x P) (hpr : ∀ κ a κ', P κ a κ' → R κ a κ') :
    Sound x R :=
  fun s => ⟨(h s).1, fun hf => hpr _ _ _ ((h s).2 hf)⟩

theorem sound_pure (a : α) : Sound (pure a) fun κ b κ' => b = a ∧ κ' = κ :=
  fun s => ⟨.refl s.faults, fun _ => ⟨rfl, rfl⟩⟩

/-- If the whole adds no fault, neither part does. -/
theorem Sound.bind {Q : α → List (Bindings Bool) → β → List (Bindings Bool) → Prop}
    {x : Resolver α} {f : α → Resolver β} (hx : Sound x P) (hf : ∀ a, Sound (f a) (Q a)) :
    Sound (x >>= f) fun κ b κ₂ => ∃ a κ₁, P κ a κ₁ ∧ Q a κ₁ b κ₂ := by
  intro s
  rw [run_bind]
  have h₁ := hx s
  have h₂ := hf (x s).1 (x s).2
  refine ⟨h₁.1.trans h₂.1, fun hfinal => ?_⟩
  have hmid : (x s).2.faults = s.faults := h₁.1.eq_of_eq h₂.1 hfinal
  exact ⟨_, _, h₁.2 hmid, h₂.2 (hfinal.trans hmid.symm)⟩

end

theorem sound_fault (t : Token) (f : ScopeFault) : Sound (fault t f) fun _ _ _ => False := by
  refine fun s => ⟨.cons rfl _, fun h => ?_⟩
  exact absurd (congrArg List.length h) (Nat.succ_ne_self _)

theorem sound_openScope (names : Bindings Bool) :
    Sound (openScope names) fun κ _ κ' => κ' = names :: κ :=
  fun s => ⟨.refl s.faults, fun _ => rfl⟩

theorem sound_closeScope : Sound closeScope fun κ _ κ' => κ' = κ.tail :=
  fun s => ⟨.refl s.faults, fun _ => rfl⟩

/-- A name is declared if it is fresh. Otherwise it is reported, and nothing else happens. -/
theorem declare_cases (name : Token) (κ : List (Bindings Bool)) (fs : List Diagnostic) :
    (Fresh κ name ∧ declare name ⟨κ, fs⟩ = ((), ⟨mark κ name false, fs⟩)) ∨
    ∃ top rest, κ = top :: rest ∧ top.contains name.lexeme = true ∧
      declare name ⟨κ, fs⟩ = fault name .redeclared ⟨κ, fs⟩ := by
  cases κ with
  | nil => exact .inl ⟨by simp [Fresh], rfl⟩
  | cons top rest =>
    have e : declare name ⟨top :: rest, fs⟩ =
        (if top.contains name.lexeme then fault name .redeclared
          else modify fun s => { s with scopes := top.insert name.lexeme false :: rest })
          ⟨top :: rest, fs⟩ := rfl
    rw [e]
    split
    · next hc => exact .inr ⟨top, rest, rfl, hc, rfl⟩
    · next hc => exact .inl ⟨by simpa [Fresh] using hc, rfl⟩

/-- Reading a variable changes nothing, but it is reported while the variable is initialized. -/
theorem checkRead_cases (r : Reference) (κ : List (Bindings Bool)) (fs : List Diagnostic) :
    (Readable κ r.name ∧ checkRead r ⟨κ, fs⟩ = ((), ⟨κ, fs⟩)) ∨
    (¬ Readable κ r.name ∧ checkRead r ⟨κ, fs⟩ = fault r.name .readInInitializer ⟨κ, fs⟩) := by
  cases κ with
  | nil => exact .inl ⟨by simp [Readable], rfl⟩
  | cons top rest =>
    have e : checkRead r ⟨top :: rest, fs⟩ =
        (if top.get? r.name.lexeme = some false then fault r.name .readInInitializer
          else pure ()) ⟨top :: rest, fs⟩ := rfl
    rw [e]
    split
    · next hc => exact .inr ⟨by simpa [Readable] using hc, rfl⟩
    · next hc => exact .inl ⟨by simpa [Readable] using hc, rfl⟩

theorem sound_declare (name : Token) :
    Sound (declare name) fun κ _ κ' => Fresh κ name ∧ κ' = mark κ name false := by
  rintro ⟨κ, fs⟩
  obtain ⟨hfresh, e⟩ | ⟨top, rest, rfl, _, e⟩ := declare_cases name κ fs
  · rw [e]
    exact ⟨.refl fs, fun _ => ⟨hfresh, rfl⟩⟩
  · rw [e]
    have h := sound_fault name .redeclared ⟨top :: rest, fs⟩
    exact ⟨h.1, fun hf => (h.2 hf).elim⟩

theorem sound_define (name : Token) :
    Sound (define name) fun κ _ κ' => κ' = mark κ name true := by
  rintro ⟨scopes, faults⟩
  cases scopes <;> exact ⟨.refl faults, fun _ => rfl⟩

theorem locate_eq (r : Reference) (s : Scoping) : locate r s = (located s.scopes r, s) := by
  show (match distance? s.scopes r.name.lexeme with
    | some d => (pure { r with depth := some d } : Resolver Reference)
    | none => pure r) s = _
  unfold located
  cases distance? s.scopes r.name.lexeme <;> rfl

theorem sound_locate (r : Reference) :
    Sound (locate r) fun κ r' κ' => r' = located κ r ∧ κ' = κ := by
  intro s
  rw [locate_eq]
  exact ⟨.refl _, fun _ => ⟨rfl, rfl⟩⟩

theorem sound_checkRead (r : Reference) :
    Sound (checkRead r) fun κ _ κ' => Readable κ r.name ∧ κ' = κ := by
  rintro ⟨κ, fs⟩
  obtain ⟨hread, e⟩ | ⟨_, e⟩ := checkRead_cases r κ fs
  · rw [e]
    exact ⟨.refl fs, fun _ => ⟨hread, rfl⟩⟩
  · rw [e]
    have h := sound_fault r.name .readInInitializer ⟨κ, fs⟩
    exact ⟨h.1, fun hf => (h.2 hf).elim⟩

theorem sound_checkSuper (body : ClassBody) (t : Token) :
    Sound (checkSuper body t) fun κ _ κ' => body = .derived ∧ κ' = κ := by
  cases body with
  | none | base => exact (sound_fault t _).imp fun _ _ _ h => h.elim
  | derived => exact (sound_pure ()).imp fun _ _ _ h => ⟨rfl, h.2⟩

/-- A declaration that is complete at once. -/
theorem sound_bound (name : Token) :
    Sound (do declare name; define name) fun κ _ κ' => Fresh κ name ∧ κ' = bound κ name := by
  refine ((sound_declare name).bind fun _ => sound_define name).imp ?_
  rintro κ _ κ' ⟨_, κ₁, ⟨hfresh, rfl⟩, rfl⟩
  exact ⟨hfresh, rfl⟩

theorem sound_parameters (ps : List Token) :
    Sound (parameters ps) fun κ _ κ' => Params κ ps κ' := by
  induction ps with
  | nil => exact (sound_pure ()).imp fun κ _ κ' h => h.2 ▸ .nil
  | cons p rest ih =>
    refine ((sound_bound p).bind fun _ => ih).imp ?_
    rintro κ _ κ' ⟨_, κ₁, ⟨hfresh, rfl⟩, hrest⟩
    exact .cons hfresh hrest

end Resolver

mutual

theorem Expr.resolve_sound (body : ClassBody) : ∀ (level : Nat) (e : Expr),
    Sound (e.resolve body level) fun κ e' κ' => Expr.Scoped body κ e e' ∧ κ' = κ
  | level, .literal v => by
    rw [Expr.resolve]
    refine (sound_pure _).imp ?_
    rintro κ _ κ' ⟨rfl, rfl⟩
    exact ⟨.literal v, rfl⟩
  | level, .group e => by
    rw [Expr.resolve, deeper_eq]
    refine ((Expr.resolve_sound body (level + 1) e).bind fun _ => sound_pure _).imp ?_
    rintro κ _ κ' ⟨e', κ₁, ⟨he, rfl⟩, rfl, rfl⟩
    exact ⟨.group he, rfl⟩
  | level, .unary op e => by
    rw [Expr.resolve, deeper_eq]
    refine ((Expr.resolve_sound body (level + 1) e).bind fun _ => sound_pure _).imp ?_
    rintro κ _ κ' ⟨e', κ₁, ⟨he, rfl⟩, rfl, rfl⟩
    exact ⟨.unary he, rfl⟩
  | level, .binary op a b => by
    rw [Expr.resolve, deeper_eq, deeper_eq]
    refine ((Expr.resolve_sound body (level + 1) a).bind fun _ =>
      (Expr.resolve_sound body (level + 1) b).bind fun _ => sound_pure _).imp ?_
    rintro κ _ κ' ⟨a', κ₁, ⟨ha, rfl⟩, b', κ₂, ⟨hb, rfl⟩, rfl, rfl⟩
    exact ⟨.binary ha hb, rfl⟩
  | level, .logical op a b => by
    rw [Expr.resolve, deeper_eq, deeper_eq]
    refine ((Expr.resolve_sound body (level + 1) a).bind fun _ =>
      (Expr.resolve_sound body (level + 1) b).bind fun _ => sound_pure _).imp ?_
    rintro κ _ κ' ⟨a', κ₁, ⟨ha, rfl⟩, b', κ₂, ⟨hb, rfl⟩, rfl, rfl⟩
    exact ⟨.logical ha hb, rfl⟩
  | level, .var r => by
    rw [Expr.resolve]
    refine ((sound_checkRead r).bind fun _ => (sound_locate r).bind fun _ => sound_pure _).imp ?_
    rintro κ _ κ' ⟨_, κ₁, ⟨hread, rfl⟩, r', κ₂, ⟨rfl, rfl⟩, rfl, rfl⟩
    exact ⟨.var hread, rfl⟩
  | level, .assign r e => by
    rw [Expr.resolve, deeper_eq]
    refine ((Expr.resolve_sound body (level + 1) e).bind fun _ =>
      (sound_locate r).bind fun _ => sound_pure _).imp ?_
    rintro κ _ κ' ⟨e', κ₁, ⟨he, rfl⟩, r', κ₂, ⟨rfl, rfl⟩, rfl, rfl⟩
    exact ⟨.assign he, rfl⟩
  | level, .call f p args => by
    rw [Expr.resolve, deeper_eq]
    refine ((Expr.resolve_sound body (level + 1) f).bind fun _ =>
      (Expr.resolveAll_sound body (level + 1) args).bind fun _ => sound_pure _).imp ?_
    rintro κ _ κ' ⟨f', κ₁, ⟨hf, rfl⟩, args', κ₂, ⟨hargs, rfl⟩, rfl, rfl⟩
    exact ⟨.call hf hargs, rfl⟩
  | level, .get o n => by
    rw [Expr.resolve, deeper_eq]
    refine ((Expr.resolve_sound body (level + 1) o).bind fun _ => sound_pure _).imp ?_
    rintro κ _ κ' ⟨o', κ₁, ⟨ho, rfl⟩, rfl, rfl⟩
    exact ⟨.get ho, rfl⟩
  | level, .set o n v => by
    rw [Expr.resolve, deeper_eq, deeper_eq]
    refine ((Expr.resolve_sound body (level + 1) v).bind fun _ =>
      (Expr.resolve_sound body (level + 1) o).bind fun _ => sound_pure _).imp ?_
    rintro κ _ κ' ⟨v', κ₁, ⟨hv, rfl⟩, o', κ₂, ⟨ho, rfl⟩, rfl, rfl⟩
    exact ⟨.set ho hv, rfl⟩
  | level, .receiver k => by
    rw [Expr.resolve]
    split
    · refine ((sound_fault _ _).bind fun _ => sound_pure _).imp ?_
      rintro κ _ κ' ⟨_, _, h, _⟩
      exact h.elim
    · rename_i hbody
      refine ((sound_locate k).bind fun _ => sound_pure _).imp ?_
      rintro κ _ κ' ⟨k', κ₁, ⟨rfl, rfl⟩, rfl, rfl⟩
      exact ⟨.receiver hbody, rfl⟩
  | level, .inherited k m => by
    rw [Expr.resolve]
    refine ((sound_checkSuper body k.name).bind fun _ =>
      (sound_locate k).bind fun _ => sound_pure _).imp ?_
    rintro κ _ κ' ⟨_, κ₁, ⟨hbody, rfl⟩, k', κ₂, ⟨rfl, rfl⟩, rfl, rfl⟩
    exact ⟨.inherited hbody, rfl⟩

theorem Expr.resolveAll_sound (body : ClassBody) : ∀ (level : Nat) (es : List Expr),
    Sound (Expr.resolveAll body level es) fun κ es' κ' => Expr.ScopedAll body κ es es' ∧ κ' = κ
  | level, [] => by
    rw [Expr.resolveAll]
    refine (sound_pure _).imp ?_
    rintro κ _ κ' ⟨rfl, rfl⟩
    exact ⟨.nil, rfl⟩
  | level, e :: es => by
    rw [Expr.resolveAll, deeper_eq]
    refine ((Expr.resolve_sound body (level + 1) e).bind fun _ =>
      (Expr.resolveAll_sound body level es).bind fun _ => sound_pure _).imp ?_
    rintro κ _ κ' ⟨e', κ₁, ⟨he, rfl⟩, es', κ₂, ⟨hes, rfl⟩, rfl, rfl⟩
    exact ⟨.cons he hes, rfl⟩

end

theorem Expr.resolve?_sound (body : ClassBody) (e : Option Expr) :
    Sound (Expr.resolve? body e) fun κ e' κ' => Option.Rel (Expr.Scoped body κ) e e' ∧ κ' = κ := by
  cases e with
  | none =>
    refine (sound_pure _).imp ?_
    rintro κ _ κ' ⟨rfl, rfl⟩
    exact ⟨.none, rfl⟩
  | some e =>
    refine ((Expr.resolve_sound body 1 e).bind fun _ => sound_pure _).imp ?_
    rintro κ _ κ' ⟨e', κ₁, ⟨he, rfl⟩, rfl, rfl⟩
    exact ⟨.some he, rfl⟩

theorem Resolver.sound_superclass (name : Token) (r : Reference) :
    Sound (Resolver.superclass name (some r)) fun κ r' κ' =>
      r.name.lexeme ≠ name.lexeme ∧ r' = some (located κ r) ∧ κ' = superScope :: κ := by
  have htail : Sound (do
      let r ← locate r
      openScope (Bindings.empty.insert "super" true)
      pure (some r)) fun κ r' κ' => r' = some (located κ r) ∧ κ' = superScope :: κ := by
    refine ((sound_locate r).bind fun _ => (sound_openScope _).bind fun _ => sound_pure _).imp ?_
    rintro κ _ κ' ⟨r', κ₁, ⟨rfl, rfl⟩, _, κ₂, rfl, rfl, rfl⟩
    exact ⟨rfl, rfl⟩
  rw [Resolver.superclass]
  split
  · refine ((sound_fault _ _).bind fun _ => htail).imp ?_
    rintro κ _ κ' ⟨_, _, h, _⟩
    exact h.elim
  · rename_i hne
    exact htail.imp fun _ _ _ h => ⟨hne, h⟩

theorem Stmt.resolve_base (place : Place) (level : Nat) (name : Token)
    (ms : List (Routine Stmt)) : (Stmt.classDecl name none ms).resolve place level = (do
      Resolver.declare name
      Resolver.define name
      openScope thisScope
      let ms ← Stmt.resolveMethods .base (level + 1) ms
      closeScope
      pure (.classDecl name none ms)) := by
  rw [Stmt.resolve]
  rfl

theorem Stmt.resolve_derived (place : Place) (level : Nat) (name : Token) (r : Reference)
    (ms : List (Routine Stmt)) : (Stmt.classDecl name (some r) ms).resolve place level = (do
      Resolver.declare name
      Resolver.define name
      let parent ← superclass name (some r)
      openScope thisScope
      let ms ← Stmt.resolveMethods .derived (level + 1) ms
      closeScope
      closeScope
      pure (.classDecl name parent ms)) := by
  rw [Stmt.resolve]
  rfl

mutual

theorem Stmt.resolve_sound : ∀ (place : Place) (level : Nat) (s : Stmt),
    Sound (s.resolve place level) fun κ s' κ' => Stmt.Scoped place κ s s' κ'
  | place, level, .expression e => by
    rw [Stmt.resolve]
    refine ((Expr.resolve_sound _ 1 e).bind fun _ => sound_pure _).imp ?_
    rintro κ _ κ' ⟨e', κ₁, ⟨he, rfl⟩, rfl, rfl⟩
    exact .expression he
  | place, level, .print e => by
    rw [Stmt.resolve]
    refine ((Expr.resolve_sound _ 1 e).bind fun _ => sound_pure _).imp ?_
    rintro κ _ κ' ⟨e', κ₁, ⟨he, rfl⟩, rfl, rfl⟩
    exact .print he
  | place, level, .declare name e => by
    rw [Stmt.resolve]
    refine ((sound_declare name).bind fun _ => (Expr.resolve?_sound _ e).bind fun _ =>
      (sound_define name).bind fun _ => sound_pure _).imp ?_
    rintro κ _ κ' ⟨_, κ₁, ⟨hfresh, rfl⟩, e', κ₂, ⟨he, rfl⟩, _, κ₃, rfl, rfl, rfl⟩
    exact .declare hfresh he
  | place, level, .block b => by
    rw [Stmt.resolve]
    refine ((sound_openScope _).bind fun _ => (Stmt.resolveAll_sound place _ b).bind fun _ =>
      sound_closeScope.bind fun _ => sound_pure _).imp ?_
    rintro κ _ κ' ⟨_, κ₁, rfl, b', κ₂, hb, _, κ₃, rfl, rfl, rfl⟩
    obtain ⟨top, rfl⟩ := hb.sameTail.cons
    exact .block hb
  | place, level, .branch c t none => by
    rw [Stmt.resolve, deeper_eq]
    refine ((Expr.resolve_sound _ 1 c).bind fun _ => (Stmt.resolve_sound place _ t).bind fun _ =>
      sound_pure _).imp ?_
    rintro κ _ κ' ⟨c', κ₁, ⟨hc, rfl⟩, t', κ₂, ht, rfl, rfl⟩
    exact .branch hc ht
  | place, level, .branch c t (some a) => by
    rw [Stmt.resolve, deeper_eq, deeper_eq]
    refine ((Expr.resolve_sound _ 1 c).bind fun _ => (Stmt.resolve_sound place _ t).bind fun _ =>
      (Stmt.resolve_sound place _ a).bind fun _ => sound_pure _).imp ?_
    rintro κ _ κ' ⟨c', κ₁, ⟨hc, rfl⟩, t', κ₂, ht, a', κ₃, ha, rfl, rfl⟩
    exact .choice hc ht ha
  | place, level, .loop c t => by
    rw [Stmt.resolve, deeper_eq]
    refine ((Expr.resolve_sound _ 1 c).bind fun _ => (Stmt.resolve_sound place _ t).bind fun _ =>
      sound_pure _).imp ?_
    rintro κ _ κ' ⟨c', κ₁, ⟨hc, rfl⟩, t', κ₂, ht, rfl, rfl⟩
    exact .loop hc ht
  | place, level, .function ⟨name, params, b⟩ => by
    rw [Stmt.resolve]
    refine ((sound_declare name).bind fun _ => (sound_define name).bind fun _ =>
      (sound_openScope _).bind fun _ => (sound_parameters params).bind fun _ =>
      (Stmt.resolveAll_sound _ _ b).bind fun _ => sound_closeScope.bind fun _ => sound_pure _).imp ?_
    rintro κ _ κ' ⟨_, _, ⟨hfresh, rfl⟩, _, _, rfl, _, _, rfl, _, κ₁, hps, b', κ₂, hb, _, κ₃, rfl,
      rfl, rfl⟩
    obtain ⟨top, rfl⟩ := (hps.sameTail.trans hb.sameTail).cons
    exact .function hfresh hps hb
  | place, level, .leave keyword e => by
    have hvalue : Sound (do pure (Stmt.leave keyword (← Expr.resolve? place.classBody e)))
        fun κ s' κ' => ∃ e', s' = Stmt.leave keyword e' ∧
          Option.Rel (Expr.Scoped place.classBody κ) e e' ∧ κ' = κ := by
      refine ((Expr.resolve?_sound _ e).bind fun _ => sound_pure _).imp ?_
      rintro κ _ κ' ⟨e', κ₁, ⟨he, rfl⟩, rfl, rfl⟩
      exact ⟨e', rfl, he, rfl⟩
    rw [Stmt.resolve]
    by_cases hin : place.inRoutine
    · simp only [hin, ↓reduceIte]
      refine hvalue.imp ?_
      rintro κ _ κ' ⟨e', rfl, he, rfl⟩
      exact .leave hin he
    · simp only [hin, Bool.false_eq_true, ↓reduceIte]
      refine ((sound_fault _ _).bind fun _ => hvalue).imp ?_
      rintro κ _ κ' ⟨_, _, h, _⟩
      exact h.elim
  | place, level, .classDecl name none ms => by
    rw [Stmt.resolve_base]
    refine ((sound_declare name).bind fun _ => (sound_define name).bind fun _ =>
      (sound_openScope _).bind fun _ => (Stmt.resolveMethods_sound .base _ ms).bind fun _ =>
      sound_closeScope.bind fun _ => sound_pure _).imp ?_
    rintro κ _ κ' ⟨_, _, ⟨hfresh, rfl⟩, _, _, rfl, _, _, rfl, ms', _, ⟨hms, rfl⟩, _, _, rfl, rfl, rfl⟩
    exact .base hfresh hms
  | place, level, .classDecl name (some r) ms => by
    rw [Stmt.resolve_derived]
    refine ((sound_declare name).bind fun _ => (sound_define name).bind fun _ =>
      (sound_superclass name r).bind fun _ => (sound_openScope _).bind fun _ =>
      (Stmt.resolveMethods_sound .derived _ ms).bind fun _ => sound_closeScope.bind fun _ =>
      sound_closeScope.bind fun _ => sound_pure _).imp ?_
    rintro κ _ κ' ⟨_, _, ⟨hfresh, rfl⟩, _, _, rfl, _, _, ⟨hne, rfl, rfl⟩, _, _, rfl, ms', _,
      ⟨hms, rfl⟩, _, _, rfl, _, _, rfl, rfl, rfl⟩
    exact .derived hfresh hne hms

theorem Stmt.resolveAll_sound : ∀ (place : Place) (level : Nat) (l : List Stmt),
    Sound (Stmt.resolveAll place level l) fun κ l' κ' => Stmt.ScopedAll place κ l l' κ'
  | place, level, [] => by
    rw [Stmt.resolveAll]
    refine (sound_pure _).imp ?_
    rintro κ _ κ' ⟨rfl, rfl⟩
    exact .nil
  | place, level, s :: rest => by
    rw [Stmt.resolveAll, deeper_eq]
    refine ((Stmt.resolve_sound place _ s).bind fun _ =>
      (Stmt.resolveAll_sound place level rest).bind fun _ => sound_pure _).imp ?_
    rintro κ _ κ' ⟨s', κ₁, hs, rest', κ₂, hrest, rfl, rfl⟩
    exact .cons hs hrest

theorem Stmt.resolveMethods_sound : ∀ (body : ClassBody) (level : Nat) (ms : List (Routine Stmt)),
    Sound (Stmt.resolveMethods body level ms) fun κ ms' κ' =>
      Stmt.ScopedMethods body κ ms ms' ∧ κ' = κ
  | body, level, [] => by
    rw [Stmt.resolveMethods]
    refine (sound_pure _).imp ?_
    rintro κ _ κ' ⟨rfl, rfl⟩
    exact ⟨.nil, rfl⟩
  | body, level, ⟨name, params, b⟩ :: rest => by
    rw [Stmt.resolveMethods]
    refine ((sound_openScope _).bind fun _ => (sound_parameters params).bind fun _ =>
      (Stmt.resolveAll_sound _ _ b).bind fun _ => sound_closeScope.bind fun _ =>
      (Stmt.resolveMethods_sound body level rest).bind fun _ => sound_pure _).imp ?_
    rintro κ _ κ' ⟨_, _, rfl, _, κ₁, hps, b', κ₂, hb, _, κ₃, rfl, rest', κ₄, ⟨hrest, rfl⟩, rfl, rfl⟩
    obtain ⟨top, rfl⟩ := (hps.sameTail.trans hb.sameTail).cons
    exact ⟨.cons hps hb hrest, rfl⟩

end

/-! ## From the judgements to the resolver -/

namespace Resolver

theorem openScope_eq (names : Bindings Bool) (κ : List (Bindings Bool)) (fs : List Diagnostic) :
    openScope names ⟨κ, fs⟩ = ((), ⟨names :: κ, fs⟩) := rfl

theorem closeScope_eq (top : Bindings Bool) (κ : List (Bindings Bool)) (fs : List Diagnostic) :
    closeScope ⟨top :: κ, fs⟩ = ((), ⟨κ, fs⟩) := rfl

theorem declare_eq {κ : List (Bindings Bool)} {name : Token} (h : Fresh κ name)
    (fs : List Diagnostic) : declare name ⟨κ, fs⟩ = ((), ⟨mark κ name false, fs⟩) := by
  obtain ⟨_, e⟩ | ⟨top, _, rfl, hc, _⟩ := declare_cases name κ fs
  · exact e
  · cases (h top rfl).symm.trans hc

theorem define_eq (κ : List (Bindings Bool)) (name : Token) (fs : List Diagnostic) :
    define name ⟨κ, fs⟩ = ((), ⟨mark κ name true, fs⟩) := by
  cases κ <;> rfl

theorem define_mark_eq (κ : List (Bindings Bool)) (name : Token) (fs : List Diagnostic) :
    define name ⟨mark κ name false, fs⟩ = ((), ⟨bound κ name, fs⟩) :=
  define_eq _ name fs

theorem checkRead_eq {κ : List (Bindings Bool)} {r : Reference} (h : Readable κ r.name)
    (fs : List Diagnostic) : checkRead r ⟨κ, fs⟩ = ((), ⟨κ, fs⟩) := by
  obtain ⟨_, e⟩ | ⟨hread, _⟩ := checkRead_cases r κ fs
  · exact e
  · exact absurd h hread

theorem Params.parameters_eq {κ κ' : List (Bindings Bool)} {ps : List Token} (h : Params κ ps κ')
    (fs : List Diagnostic) : parameters ps ⟨κ, fs⟩ = ((), ⟨κ', fs⟩) := by
  induction h with
  | nil => rfl
  | @cons κ _ p rest hfresh _ ih =>
    rw [parameters, run_bind, declare_eq hfresh, run_bind, define_eq]
    exact ih

theorem superclass_eq {name : Token} {r : Reference} (h : r.name.lexeme ≠ name.lexeme)
    (κ : List (Bindings Bool)) (fs : List Diagnostic) :
    superclass name (some r) ⟨κ, fs⟩ = (some (located κ r), ⟨superScope :: κ, fs⟩) := by
  rw [superclass, if_neg h]
  show (locate r >>= _) (⟨κ, fs⟩ : Scoping) = _
  rw [run_bind, locate_eq]
  rfl

end Resolver

mutual

theorem Expr.Scoped.resolve_eq {body : ClassBody} {κ : List (Bindings Bool)} :
    ∀ {e e' : Expr}, Expr.Scoped body κ e e' → ∀ (level : Nat) (fs : List Diagnostic),
      e.resolve body level ⟨κ, fs⟩ = (e', ⟨κ, fs⟩)
  | _, _, .literal v, level, fs => by
    rw [Expr.resolve]
    rfl
  | _, _, .group h, level, fs | _, _, .unary h, level, fs | _, _, .get h, level, fs => by
    rw [Expr.resolve, deeper_eq, run_bind, h.resolve_eq]
    rfl
  | _, _, .binary ha hb, level, fs | _, _, .logical ha hb, level, fs
  | _, _, .set hb ha, level, fs => by
    rw [Expr.resolve, deeper_eq, deeper_eq, run_bind, ha.resolve_eq, run_bind, hb.resolve_eq]
    rfl
  | _, _, .var hread, level, fs => by
    rw [Expr.resolve, run_bind, checkRead_eq hread, run_bind, locate_eq]
    rfl
  | _, _, .assign h, level, fs => by
    rw [Expr.resolve, deeper_eq, run_bind, h.resolve_eq, run_bind, locate_eq]
    rfl
  | _, _, .call hf hargs, level, fs => by
    rw [Expr.resolve, deeper_eq, run_bind, hf.resolve_eq, run_bind, hargs.resolveAll_eq]
    rfl
  | _, _, .receiver hbody, level, fs => by
    rw [Expr.resolve, if_neg hbody, run_bind, locate_eq]
    rfl
  | _, _, .inherited hbody, level, fs => by
    rw [Expr.resolve, hbody, run_bind, run_bind, locate_eq]
    rfl

theorem Expr.ScopedAll.resolveAll_eq {body : ClassBody} {κ : List (Bindings Bool)} :
    ∀ {es es' : List Expr}, Expr.ScopedAll body κ es es' → ∀ (level : Nat) (fs : List Diagnostic),
      Expr.resolveAll body level es ⟨κ, fs⟩ = (es', ⟨κ, fs⟩)
  | _, _, .nil, level, fs => by
    rw [Expr.resolveAll]
    rfl
  | _, _, .cons he hes, level, fs => by
    rw [Expr.resolveAll, deeper_eq, run_bind, he.resolve_eq, run_bind, hes.resolveAll_eq]
    rfl

end

theorem Expr.resolve?_eq {body : ClassBody} {κ : List (Bindings Bool)} {e e' : Option Expr}
    (h : Option.Rel (Expr.Scoped body κ) e e') (fs : List Diagnostic) :
    Expr.resolve? body e ⟨κ, fs⟩ = (e', ⟨κ, fs⟩) := by
  cases h with
  | none => rfl
  | some h =>
    rw [Expr.resolve?, run_bind, h.resolve_eq]
    rfl

mutual

theorem Stmt.Scoped.resolve_eq : ∀ {place : Place} {κ κ' : List (Bindings Bool)} {s s' : Stmt},
    Stmt.Scoped place κ s s' κ' → ∀ (level : Nat) (fs : List Diagnostic),
      s.resolve place level ⟨κ, fs⟩ = (s', ⟨κ', fs⟩)
  | _, _, _, _, _, .expression he, level, fs | _, _, _, _, _, .print he, level, fs => by
    rw [Stmt.resolve, run_bind, he.resolve_eq]
    rfl
  | _, _, _, _, _, .declare hfresh he, level, fs => by
    rw [Stmt.resolve, run_bind, declare_eq hfresh, run_bind, Expr.resolve?_eq he, run_bind,
      define_eq]
    rfl
  | _, _, _, _, _, .block hb, level, fs => by
    rw [Stmt.resolve, run_bind, openScope_eq, run_bind, hb.resolveAll_eq, run_bind, closeScope_eq]
    rfl
  | _, _, _, _, _, .branch hc ht, level, fs => by
    rw [Stmt.resolve, deeper_eq, run_bind, hc.resolve_eq, run_bind, ht.resolve_eq]
    rfl
  | _, _, _, _, _, .choice hc ht ha, level, fs => by
    rw [Stmt.resolve, deeper_eq, deeper_eq, run_bind, hc.resolve_eq, run_bind, ht.resolve_eq,
      run_bind, ha.resolve_eq]
    rfl
  | _, _, _, _, _, .loop hc ht, level, fs => by
    rw [Stmt.resolve, deeper_eq, run_bind, hc.resolve_eq, run_bind, ht.resolve_eq]
    rfl
  | _, _, _, _, _, .function hfresh hps hb, level, fs => by
    rw [Stmt.resolve, run_bind, declare_eq hfresh, run_bind, define_mark_eq, run_bind, openScope_eq,
      run_bind, hps.parameters_eq, run_bind, hb.resolveAll_eq, run_bind, closeScope_eq]
    rfl
  | _, _, _, _, _, .leave hin he, level, fs => by
    rw [Stmt.resolve, if_pos hin]
    show (Expr.resolve? _ _ >>= _) (⟨_, fs⟩ : Scoping) = _
    rw [run_bind, Expr.resolve?_eq he]
    rfl
  | _, _, _, _, _, .base hfresh hms, level, fs => by
    rw [Stmt.resolve_base, run_bind, declare_eq hfresh, run_bind, define_mark_eq, run_bind,
      openScope_eq, run_bind, hms.resolveMethods_eq, run_bind, closeScope_eq]
    rfl
  | _, _, _, _, _, .derived hfresh hne hms, level, fs => by
    rw [Stmt.resolve_derived, run_bind, declare_eq hfresh, run_bind, define_mark_eq, run_bind,
      superclass_eq hne, run_bind, openScope_eq, run_bind, hms.resolveMethods_eq, run_bind,
      closeScope_eq, run_bind, closeScope_eq]
    rfl

theorem Stmt.ScopedAll.resolveAll_eq :
    ∀ {place : Place} {κ κ' : List (Bindings Bool)} {l l' : List Stmt},
    Stmt.ScopedAll place κ l l' κ' → ∀ (level : Nat) (fs : List Diagnostic),
      Stmt.resolveAll place level l ⟨κ, fs⟩ = (l', ⟨κ', fs⟩)
  | _, _, _, _, _, .nil, level, fs => by
    rw [Stmt.resolveAll]
    rfl
  | _, _, _, _, _, .cons hs hrest, level, fs => by
    rw [Stmt.resolveAll, deeper_eq, run_bind, hs.resolve_eq, run_bind, hrest.resolveAll_eq]
    rfl

theorem Stmt.ScopedMethods.resolveMethods_eq :
    ∀ {body : ClassBody} {κ : List (Bindings Bool)} {ms ms' : List (Routine Stmt)},
    Stmt.ScopedMethods body κ ms ms' → ∀ (level : Nat) (fs : List Diagnostic),
      Stmt.resolveMethods body level ms ⟨κ, fs⟩ = (ms', ⟨κ, fs⟩)
  | _, _, _, _, .nil, level, fs => by
    rw [Stmt.resolveMethods]
    rfl
  | _, _, _, _, .cons hps hb hrest, level, fs => by
    rw [Stmt.resolveMethods, run_bind, openScope_eq, run_bind, hps.parameters_eq, run_bind,
      hb.resolveAll_eq, run_bind, closeScope_eq, run_bind, hrest.resolveMethods_eq]
    rfl

end

/-! ## Programs -/

/-- A program that breaks no rule, with its distances recorded. -/
def Program.Scoped (p p' : Program) : Prop :=
  Stmt.ScopedAll ⟨false, .none⟩ [] p p' []

theorem Program.resolve_eq_iff {p p' : Program} : p.resolve = (p', []) ↔ p.Scoped p' := by
  constructor
  · intro h
    have hs := (Stmt.resolveAll_sound ⟨false, .none⟩ 1 p ⟨[], []⟩).2
    have hfaults : (Stmt.resolveAll ⟨false, .none⟩ 1 p ⟨[], []⟩).2.faults = [] :=
      List.reverse_eq_nil_iff.mp (congrArg Prod.snd h)
    have hall := hs hfaults
    have hnil := hall.sameTail.1
    have hp : (Stmt.resolveAll ⟨false, .none⟩ 1 p ⟨[], []⟩).1 = p' := congrArg Prod.fst h
    rw [hp, List.length_eq_zero_iff.mp hnil] at hall
    exact hall
  · intro h
    have e : (Stmt.resolveAll ⟨false, .none⟩ 1 p).run ⟨[], []⟩ = (p', ⟨[], []⟩) :=
      h.resolveAll_eq 1 []
    rw [Program.resolve, e]
    rfl

theorem Program.resolve_static (p : Program) : ∀ d ∈ p.resolve.2, d.isStatic = true := by
  obtain ⟨ds, hds, hstatic⟩ := (Stmt.resolveAll_sound ⟨false, .none⟩ 1 p ⟨[], []⟩).1
  intro d hd
  have hmem : d ∈ (Stmt.resolveAll ⟨false, .none⟩ 1 p ⟨[], []⟩).2.faults := List.mem_reverse.mp hd
  rw [hds, List.append_nil] at hmem
  exact hstatic d hmem

end Treewalk
