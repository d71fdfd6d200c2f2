import Treewalk.Proofs.Lookup.Labels

/-!
# What stands around a node

A statement stands in a program inside blocks, functions and methods, and of each of
those it follows a part of the list. `Program.Holds around s` says that `s` stands in the
program with the bodies `around` it, the innermost first, each cut off after the
statement that leads to `s`. Declarations that come later in the text are therefore not
seen from `s`, and the declaration that `s` itself is part of is.

From the bodies follows all that the scoping rules speak about: the scopes around a node
with the names they declared so far (`Body.scopes`), how many of them lie between a
name and its declaration (`lexicalDistance`), whether a node is in a function, and in
which class (`classAround`).
-/

namespace Treewalk

open Resolver

/-! ## Parts of nodes -/

def Expr.parts : Expr → List Expr
  | .literal _ | .var _ | .receiver _ | .inherited _ _ => []
  | .unary _ e | .group e | .assign _ e | .get e _ => [e]
  | .binary _ a b | .logical _ a b | .set a _ b => [a, b]
  | .call f _ args => f :: args

/-- An expression contains itself, its parts and what they contain. -/
inductive Expr.Has : Expr → Expr → Prop
  | self (e : Expr) : Expr.Has e e
  | part {e a b : Expr} : a ∈ e.parts → Expr.Has a b → Expr.Has e b

/-- The variable that an expression reads, assigns to or stands for. -/
def Expr.reference? : Expr → Option Reference
  | .var r | .assign r _ | .receiver r | .inherited r _ => some r
  | .literal _ | .unary _ _ | .binary _ _ _ | .logical _ _ _ | .group _ | .call _ _ _ | .get _ _
  | .set _ _ _ => none

/-- The expressions that a statement itself evaluates. -/
def Stmt.exprs : Stmt → List Expr
  | .expression e | .print e | .branch e _ _ | .loop e _ => [e]
  | .declare _ e | .leave _ e => e.toList
  | .block _ | .function _ | .classDecl _ _ _ => []

/-- The statements under a condition. They have no scope of their own. -/
def Stmt.branches : Stmt → List Stmt
  | .branch _ s a => s :: a.toList
  | .loop _ s => [s]
  | .expression _ | .print _ | .declare _ _ | .block _ | .function _ | .leave _ _
  | .classDecl _ _ _ => []

/-- What a body belongs to. A method knows the declaration of its class. -/
inductive Owner where
  | block
  | function (name : Token)
  | method (cls : Token) (superclass : Option Reference) (methods : List (Routine Stmt))

/-- The scopes around a body that bind a keyword: that of `this` around a method, and around
it the one of `super` if the class has a superclass. -/
def Owner.keywords : Owner → List (List String)
  | .block | .function _ => []
  | .method _ none _ => [["this"]]
  | .method _ (some _) _ => [["this"], ["super"]]

/-- Statements with a scope of their own, which parameters are declared in too. -/
structure Body where
  owner : Owner
  params : List Token
  statements : List Stmt

def Stmt.bodies : Stmt → List Body
  | .block b => [⟨.block, [], b⟩]
  | .function r => [⟨.function r.name, r.params, r.body⟩]
  | .classDecl n superclass ms => ms.map fun r => ⟨.method n superclass ms, r.params, r.body⟩
  | .expression _ | .print _ | .declare _ _ | .branch _ _ _ | .loop _ _ | .leave _ _ => []

theorem Stmt.Quiet.declared_eq {s : Stmt} (h : s.Quiet) : s.declared = [] := by
  cases s with
  | expression | print | block | branch | loop | leave => rfl
  | declare | function | classDecl => exact h.elim

/-! ## Bodies around a node -/

namespace Body

/-- The names that are declared in the scope of a body. -/
def names (b : Body) : List String :=
  Stmt.label (Stmt.declaredIn b.params b.statements)

/-- The scopes that are open in a body and not outside it. -/
def scopes (b : Body) : List (List String) :=
  b.names :: b.owner.keywords

def isRoutine (b : Body) : Bool :=
  match b.owner with
  | .block => false
  | .function _ | .method _ _ _ => true

/-- The superclass clause of the class, in the body of a method. -/
def superclass? (b : Body) : Option (Option Reference) :=
  match b.owner with
  | .block | .function _ => none
  | .method _ superclass _ => some superclass

/-- The body before any of its statements. -/
def opened (b : Body) : Body :=
  { b with statements := [] }

theorem keywords_of_plain {b : Body} (h : b.superclass? = none) : b.owner.keywords = [] := by
  obtain ⟨owner, params, statements⟩ := b
  cases owner with
  | block | function => rfl
  | method => cases h

end Body

/-- The innermost body with further statements. -/
def extend : List Body → List Stmt → List Body
  | [], _ => []
  | b :: around, l => { b with statements := b.statements ++ l } :: around

/-- A statement of the program, and the bodies around it up to that statement. -/
inductive Program.Holds (p : Program) : List Body → Stmt → Prop
  | top {s : Stmt} : s ∈ p → p.Holds [] s
  | inside {around : List Body} {s t : Stmt} {b : Body} {before after : List Stmt} :
    p.Holds around s → b ∈ s.bodies → b.statements = before ++ t :: after →
    p.Holds (extend (b.opened :: around) (before ++ [t])) t
  | under {around : List Body} {s t : Stmt} : p.Holds around s → t ∈ s.branches → p.Holds around t

/-- An expression of the program, and the bodies around its statement. -/
def Program.HoldsExpr (p : Program) (around : List Body) (e : Expr) : Prop :=
  ∃ s, p.Holds around s ∧ ∃ whole ∈ s.exprs, whole.Has e

/-- The scopes around a node, the innermost first. -/
def scopesAround (around : List Body) : List (List String) :=
  around.flatMap Body.scopes

/-- How many scopes are between a node and the nearest one that declared a name. -/
def lexicalDistance (around : List Body) (name : String) : Option Nat :=
  (scopesAround around).findIdx? fun names => decide (name ∈ names)

/-- The class that a node is in: what the innermost method around it belongs to. -/
def classAround (around : List Body) : ClassBody :=
  match around.findSome? Body.superclass? with
  | none => .none
  | some none => .base
  | some (some _) => .derived

theorem classAround_ne_none {around : List Body} :
    classAround around ≠ .none ↔ ∃ b ∈ around, b.superclass?.isSome = true := by
  rw [← List.findSome?_isSome_iff, classAround]
  split
  · next h => simp [h]
  · next h => simp [h]
  · next h => simp [h]

theorem classAround_eq_derived {around : List Body} :
    classAround around = .derived ↔ ∃ r, around.findSome? Body.superclass? = some (some r) := by
  rw [classAround]
  split
  · next h => simp [h]
  · next h => simp [h]
  · next h => simp [h]

theorem classAround_extend (around : List Body) (l : List Stmt) :
    classAround (extend around l) = classAround around := by
  cases around <;> rfl

/-! ## Lists of statements -/

theorem extend_extend (around : List Body) (l l' : List Stmt) :
    extend (extend around l) l' = extend around (l ++ l') := by
  cases around with
  | nil => rfl
  | cons b around => simp [extend]

/-- All statements of a list stand in the program, each after those in front of it. -/
def Program.HoldsAll (p : Program) (around : List Body) (l : List Stmt) : Prop :=
  ∀ before t after, l = before ++ t :: after → p.Holds (extend around (before ++ [t])) t

namespace Program

variable {p : Program} {around : List Body}

theorem holdsAll_top (p : Program) : p.HoldsAll [] p :=
  fun before _ _ h => .top (h ▸ List.mem_append_right before List.mem_cons_self)

theorem Holds.body {s : Stmt} (h : p.Holds around s) {b : Body} (hb : b ∈ s.bodies) :
    p.HoldsAll (b.opened :: around) b.statements :=
  fun _ _ _ hl => h.inside hb hl

theorem HoldsAll.head {s : Stmt} {l : List Stmt} (h : p.HoldsAll around (s :: l)) :
    p.Holds (extend around [s]) s :=
  h [] s l rfl

theorem HoldsAll.tail {s : Stmt} {l : List Stmt} (h : p.HoldsAll around (s :: l)) :
    p.HoldsAll (extend around [s]) l := by
  intro before t after hl
  rw [extend_extend]
  exact h (s :: before) t after (by rw [hl, List.cons_append])

end Program

/-! ## The open scopes list what the bodies declare -/

namespace Resolver

/-- Open scopes with exactly these names. -/
def Lists : List (Bindings Bool) → List (List String) → Prop :=
  List.Forall₂ fun scope names => ∀ name, scope.contains name = true ↔ name ∈ names

theorem Lists.distance?_eq {κ : List (Bindings Bool)} {scopes : List (List String)}
    (h : Lists κ scopes) (name : String) :
    distance? κ name = scopes.findIdx? fun names => decide (name ∈ names) := by
  induction h with
  | nil => rfl
  | @cons scope names κ scopes hscope _ ih =>
    have hc : scope.contains name = decide (name ∈ names) := by
      rw [Bool.eq_iff_iff, hscope name, decide_eq_true_iff]
    rw [distance?, List.findIdx?_cons, List.findIdx?_cons, hc]
    split
    · rfl
    · exact congrArg (Option.map _) ih

theorem contains_insert (scope : Bindings Bool) (name key : String) (done : Bool) :
    (scope.insert name done).contains key = true ↔ key = name ∨ scope.contains key = true := by
  rw [Bindings.contains, Bindings.get?_insert]
  split
  · next h => simp [h]
  · next h => simp [Bindings.contains, Ne.symm h]

theorem Lists.push {κ : List (Bindings Bool)} {scopes : List (List String)} (h : Lists κ scopes) :
    Lists (.empty :: κ) ([] :: scopes) :=
  .cons (fun name => by simp [Bindings.contains]) h

/-- A scope that only binds a keyword. -/
theorem Lists.keyword {κ : List (Bindings Bool)} {scopes : List (List String)} (h : Lists κ scopes)
    (word : String) : Lists (Bindings.empty.insert word true :: κ) ([word] :: scopes) :=
  .cons (fun name => by rw [contains_insert]; simp [Bindings.contains]) h

/-- The innermost scope has these names more than before, and nothing else changed. -/
def Adds (names : List String) : List (Bindings Bool) → List (Bindings Bool) → Prop
  | [], κ' => κ' = []
  | top :: κ, κ' => ∃ top', κ' = top' :: κ ∧
    ∀ name, top'.contains name = true ↔ name ∈ names ∨ top.contains name = true

theorem Adds.refl (κ : List (Bindings Bool)) : Adds [] κ κ := by
  cases κ with
  | nil => rfl
  | cons top κ => exact ⟨top, rfl, by simp⟩

theorem Adds.trans {names names' : List String} {κ κ₁ κ₂ : List (Bindings Bool)}
    (h : Adds names κ κ₁) (h' : Adds names' κ₁ κ₂) : Adds (names ++ names') κ κ₂ := by
  cases κ with
  | nil =>
    obtain rfl := h
    exact h'
  | cons top κ =>
    obtain ⟨top₁, rfl, h⟩ := h
    obtain ⟨top₂, rfl, h'⟩ := h'
    refine ⟨top₂, rfl, fun name => ?_⟩
    rw [h', h, List.mem_append]
    tauto

theorem adds_mark (κ : List (Bindings Bool)) (name : Token) (done : Bool) :
    Adds [name.lexeme] κ (mark κ name done) := by
  cases κ with
  | nil => rfl
  | cons top κ => exact ⟨_, rfl, fun key => by rw [contains_insert, List.mem_singleton]⟩

theorem adds_bound (κ : List (Bindings Bool)) (name : Token) :
    Adds [name.lexeme] κ (bound κ name) := by
  cases κ with
  | nil => rfl
  | cons top κ =>
    exact ⟨_, rfl, fun key => by rw [contains_insert, contains_insert, List.mem_singleton]; tauto⟩

end Resolver

/-- The innermost scope with more names; the globals are no scope. -/
def declareIn : List (List String) → List String → List (List String)
  | [], _ => []
  | top :: scopes, names => (top ++ names) :: scopes

theorem declareIn_nil (scopes : List (List String)) : declareIn scopes [] = scopes := by
  cases scopes with
  | nil => rfl
  | cons top scopes => rw [declareIn, List.append_nil]

theorem declareIn_append (scopes : List (List String)) (names names' : List String) :
    declareIn (declareIn scopes names) names' = declareIn scopes (names ++ names') := by
  cases scopes with
  | nil => rfl
  | cons top scopes => rw [declareIn, declareIn, declareIn, List.append_assoc]

theorem Resolver.Lists.declareIn {κ κ' : List (Bindings Bool)} {scopes : List (List String)}
    {names : List String} (h : Lists κ scopes) (hadds : Adds names κ κ') :
    Lists κ' (declareIn scopes names) := by
  cases h with
  | nil =>
    obtain rfl := hadds
    exact .nil
  | cons htop hrest =>
    obtain ⟨top', rfl, htop'⟩ := hadds
    refine .cons (fun name => ?_) hrest
    rw [htop', htop, List.mem_append, Or.comm]

theorem Body.names_append (b : Body) (l : List Stmt) :
    Body.names { b with statements := b.statements ++ l } =
      b.names ++ Stmt.label (Stmt.declaredAll l) := by
  simp [Body.names, Stmt.label, Stmt.declaredIn, Stmt.declaredAll]

/-- Statements declare their names in the innermost body. -/
theorem scopesAround_extend (around : List Body) (l : List Stmt) :
    scopesAround (extend around l) =
      declareIn (scopesAround around) (Stmt.label (Stmt.declaredAll l)) := by
  cases around with
  | nil => rfl
  | cons b around =>
    rw [extend, scopesAround, List.flatMap_cons, Body.scopes, Body.names_append]
    rfl

theorem Body.names_opened (b : Body) : b.opened.names = b.params.map Token.lexeme := by
  simp [Body.names, Body.opened, Stmt.label, Stmt.declaredIn, Stmt.declaredAll, Function.comp_def]

end Treewalk
