import Treewalk.Tree

/-!
# The tokens of a tree

`Expr.tokens` and `Stmt.tokens` list the tokens that a tree keeps, and `Expr.map`
and `Stmt.map` replace each of them. Recorded distances stay as they are. A `for`
statement is mapped to one (`Stmt.map_forLoop`).
-/

namespace Treewalk

def Reference.map (f : Token → Token) (r : Reference) : Reference :=
  ⟨f r.name, r.depth⟩

mutual

def Expr.map (f : Token → Token) : Expr → Expr
  | .literal v => .literal v
  | .unary op e => .unary (f op) (e.map f)
  | .binary op a b => .binary (f op) (a.map f) (b.map f)
  | .logical op a b => .logical (f op) (a.map f) (b.map f)
  | .group e => .group (e.map f)
  | .var r => .var (r.map f)
  | .assign r v => .assign (r.map f) (v.map f)
  | .call callee p args => .call (callee.map f) (f p) (Expr.mapAll f args)
  | .get o n => .get (o.map f) (f n)
  | .set o n v => .set (o.map f) (f n) (v.map f)
  | .receiver k => .receiver (k.map f)
  | .inherited k m => .inherited (k.map f) (f m)

def Expr.mapAll (f : Token → Token) : List Expr → List Expr
  | [] => []
  | e :: es => e.map f :: Expr.mapAll f es

end

mutual

def Stmt.map (f : Token → Token) : Stmt → Stmt
  | .expression e => .expression (e.map f)
  | .print e => .print (e.map f)
  | .declare n e => .declare (f n) (e.map (Expr.map f))
  | .block b => .block (Stmt.mapAll f b)
  | .branch c s none => .branch (c.map f) (s.map f) none
  | .branch c s (some a) => .branch (c.map f) (s.map f) (some (a.map f))
  | .loop c s => .loop (c.map f) (s.map f)
  | .function r => .function (Stmt.mapRoutine f r)
  | .leave k e => .leave (f k) (e.map (Expr.map f))
  | .classDecl n r ms => .classDecl (f n) (r.map (Reference.map f)) (Stmt.mapMethods f ms)

def Stmt.mapAll (f : Token → Token) : List Stmt → List Stmt
  | [] => []
  | s :: rest => s.map f :: Stmt.mapAll f rest

def Stmt.mapRoutine (f : Token → Token) : Routine Stmt → Routine Stmt
  | ⟨name, params, body⟩ => ⟨f name, params.map f, Stmt.mapAll f body⟩

def Stmt.mapMethods (f : Token → Token) : List (Routine Stmt) → List (Routine Stmt)
  | [] => []
  | r :: rest => Stmt.mapRoutine f r :: Stmt.mapMethods f rest

end

mutual

def Expr.tokens : Expr → List Token
  | .literal _ => []
  | .unary op e => op :: e.tokens
  | .binary op a b | .logical op a b => op :: (a.tokens ++ b.tokens)
  | .group e => e.tokens
  | .var r => [r.name]
  | .assign r v => r.name :: v.tokens
  | .call callee p args => p :: (callee.tokens ++ Expr.tokensAll args)
  | .get o n => n :: o.tokens
  | .set o n v => n :: (o.tokens ++ v.tokens)
  | .receiver k => [k.name]
  | .inherited k m => [k.name, m]

def Expr.tokensAll : List Expr → List Token
  | [] => []
  | e :: es => e.tokens ++ Expr.tokensAll es

end

def Expr.tokens? : Option Expr → List Token
  | none => []
  | some e => e.tokens

mutual

def Stmt.tokens : Stmt → List Token
  | .expression e | .print e => e.tokens
  | .declare n e => n :: Expr.tokens? e
  | .block b => Stmt.tokensAll b
  | .branch c s none => c.tokens ++ s.tokens
  | .branch c s (some a) => c.tokens ++ (s.tokens ++ a.tokens)
  | .loop c s => c.tokens ++ s.tokens
  | .function r => Stmt.tokensRoutine r
  | .leave k e => k :: Expr.tokens? e
  | .classDecl n none ms => n :: Stmt.tokensMethods ms
  | .classDecl n (some r) ms => n :: r.name :: Stmt.tokensMethods ms

def Stmt.tokensAll : List Stmt → List Token
  | [] => []
  | s :: rest => s.tokens ++ Stmt.tokensAll rest

def Stmt.tokensRoutine : Routine Stmt → List Token
  | ⟨name, params, body⟩ => name :: (params ++ Stmt.tokensAll body)

def Stmt.tokensMethods : List (Routine Stmt) → List Token
  | [] => []
  | r :: rest => Stmt.tokensRoutine r ++ Stmt.tokensMethods rest

end

/-! ## Lists of trees -/

section

variable (f : Token → Token)

@[simp] theorem Expr.mapAll_eq (es : List Expr) : Expr.mapAll f es = es.map (Expr.map f) := by
  induction es with
  | nil => rfl
  | cons e es ih => rw [Expr.mapAll, ih, List.map_cons]

@[simp] theorem Stmt.mapAll_eq (l : List Stmt) : Stmt.mapAll f l = l.map (Stmt.map f) := by
  induction l with
  | nil => rfl
  | cons s l ih => rw [Stmt.mapAll, ih, List.map_cons]

@[simp] theorem Stmt.mapMethods_eq (ms : List (Routine Stmt)) :
    Stmt.mapMethods f ms = ms.map (Stmt.mapRoutine f) := by
  induction ms with
  | nil => rfl
  | cons r ms ih => rw [Stmt.mapMethods, ih, List.map_cons]

end

theorem Expr.mem_tokensAll {t : Token} {es : List Expr} :
    t ∈ Expr.tokensAll es ↔ ∃ e ∈ es, t ∈ e.tokens := by
  induction es with
  | nil => simp [Expr.tokensAll]
  | cons e es ih => simp [Expr.tokensAll, ih]

theorem Stmt.mem_tokensMethods {t : Token} {ms : List (Routine Stmt)} :
    t ∈ Stmt.tokensMethods ms ↔ ∃ r ∈ ms, t ∈ Stmt.tokensRoutine r := by
  induction ms with
  | nil => simp [Stmt.tokensMethods]
  | cons r ms ih => simp [Stmt.tokensMethods, ih]

theorem Stmt.map_forLoop (f : Token → Token) (init : Option Stmt) (c e : Option Expr) (s : Stmt) :
    (Stmt.forLoop init c e s).map f =
      .forLoop (init.map (Stmt.map f)) (c.map (Expr.map f)) (e.map (Expr.map f)) (s.map f) := by
  cases init <;> cases c <;> cases e <;> simp [Stmt.forLoop, Stmt.map, Expr.map]

/-! ## The map that changes nothing -/

theorem Reference.map_id (r : Reference) : r.map id = r := rfl

mutual

theorem Expr.map_id : ∀ e : Expr, e.map id = e
  | .literal _ => rfl
  | .unary _ e | .group e | .get e _ | .assign _ e => by
    simp only [Expr.map, Expr.map_id e, id_eq, Reference.map_id]
  | .binary _ a b | .logical _ a b | .set a _ b => by
    simp only [Expr.map, Expr.map_id a, Expr.map_id b, id_eq]
  | .var _ | .receiver _ | .inherited _ _ => rfl
  | .call callee _ args => by simp only [Expr.map, Expr.map_id callee, Expr.mapAll_id args, id_eq]

theorem Expr.mapAll_id : ∀ es : List Expr, Expr.mapAll id es = es
  | [] => rfl
  | e :: es => by rw [Expr.mapAll, Expr.map_id e, Expr.mapAll_id es]

end

theorem Expr.map?_id (e : Option Expr) : e.map (Expr.map id) = e := by
  cases e with
  | none => rfl
  | some e => rw [Option.map_some, Expr.map_id]

mutual

theorem Stmt.map_id : ∀ s : Stmt, s.map id = s
  | .expression e | .print e => by simp only [Stmt.map, Expr.map_id]
  | .declare _ e | .leave _ e => by simp only [Stmt.map, Expr.map?_id, id_eq]
  | .block b => by rw [Stmt.map, Stmt.mapAll_id b]
  | .branch c s none => by rw [Stmt.map, Expr.map_id, Stmt.map_id s]
  | .branch c s (some a) => by rw [Stmt.map, Expr.map_id, Stmt.map_id s, Stmt.map_id a]
  | .loop c s => by rw [Stmt.map, Expr.map_id, Stmt.map_id s]
  | .function r => by rw [Stmt.map, Stmt.mapRoutine_id r]
  | .classDecl n none ms | .classDecl n (some _) ms => by
    rw [Stmt.map, Stmt.mapMethods_id ms]
    rfl

theorem Stmt.mapAll_id : ∀ l : List Stmt, Stmt.mapAll id l = l
  | [] => rfl
  | s :: l => by rw [Stmt.mapAll, Stmt.map_id s, Stmt.mapAll_id l]

theorem Stmt.mapRoutine_id : ∀ r : Routine Stmt, Stmt.mapRoutine id r = r
  | ⟨n, ps, b⟩ => by rw [Stmt.mapRoutine, Stmt.mapAll_id b, List.map_id, id_eq]

theorem Stmt.mapMethods_id : ∀ ms : List (Routine Stmt), Stmt.mapMethods id ms = ms
  | [] => rfl
  | r :: ms => by rw [Stmt.mapMethods, Stmt.mapRoutine_id r, Stmt.mapMethods_id ms]

end

/-! ## One map after the other -/

theorem Reference.map_map (f g : Token → Token) (r : Reference) :
    (r.map g).map f = r.map (f ∘ g) := rfl

mutual

theorem Expr.map_map (f g : Token → Token) : ∀ e : Expr, (e.map g).map f = e.map (f ∘ g)
  | .literal _ | .var _ | .receiver _ | .inherited _ _ => rfl
  | .unary _ e | .group e | .get e _ | .assign _ e => by
    simp only [Expr.map, Expr.map_map f g e, Function.comp_apply, Reference.map_map]
  | .binary _ a b | .logical _ a b | .set a _ b => by
    simp only [Expr.map, Expr.map_map f g a, Expr.map_map f g b, Function.comp_apply]
  | .call callee _ args => by
    simp only [Expr.map, Expr.map_map f g callee, Expr.mapAll_mapAll f g args, Function.comp_apply]

theorem Expr.mapAll_mapAll (f g : Token → Token) :
    ∀ es : List Expr, Expr.mapAll f (Expr.mapAll g es) = Expr.mapAll (f ∘ g) es
  | [] => rfl
  | e :: es => by rw [Expr.mapAll, Expr.mapAll, Expr.mapAll, Expr.map_map f g e, mapAll_mapAll f g es]

end

theorem Expr.map?_map? (f g : Token → Token) (e : Option Expr) :
    (e.map (Expr.map g)).map (Expr.map f) = e.map (Expr.map (f ∘ g)) := by
  cases e with
  | none => rfl
  | some e => exact congrArg some (e.map_map f g)

mutual

theorem Stmt.map_map (f g : Token → Token) : ∀ s : Stmt, (s.map g).map f = s.map (f ∘ g)
  | .expression e | .print e => by simp only [Stmt.map, Expr.map_map]
  | .declare _ e | .leave _ e => by simp only [Stmt.map, Expr.map?_map?, Function.comp_apply]
  | .block b => by simp only [Stmt.map, Stmt.mapAll_mapAll f g b]
  | .branch c s none => by simp only [Stmt.map, Expr.map_map, Stmt.map_map f g s]
  | .branch c s (some a) => by
    simp only [Stmt.map, Expr.map_map, Stmt.map_map f g s, Stmt.map_map f g a]
  | .loop c s => by simp only [Stmt.map, Expr.map_map, Stmt.map_map f g s]
  | .function r => by simp only [Stmt.map, Stmt.mapRoutine_mapRoutine f g r]
  | .classDecl n none ms | .classDecl n (some _) ms => by
    rw [Stmt.map, Stmt.map, Stmt.map, Stmt.mapMethods_mapMethods f g ms]
    rfl

theorem Stmt.mapAll_mapAll (f g : Token → Token) :
    ∀ l : List Stmt, Stmt.mapAll f (Stmt.mapAll g l) = Stmt.mapAll (f ∘ g) l
  | [] => rfl
  | s :: l => by rw [Stmt.mapAll, Stmt.mapAll, Stmt.mapAll, Stmt.map_map f g s, mapAll_mapAll f g l]

theorem Stmt.mapRoutine_mapRoutine (f g : Token → Token) :
    ∀ r : Routine Stmt, Stmt.mapRoutine f (Stmt.mapRoutine g r) = Stmt.mapRoutine (f ∘ g) r
  | ⟨n, ps, b⟩ => by
    rw [Stmt.mapRoutine, Stmt.mapRoutine, Stmt.mapRoutine, Stmt.mapAll_mapAll f g b, List.map_map,
      Function.comp_apply]

theorem Stmt.mapMethods_mapMethods (f g : Token → Token) : ∀ ms : List (Routine Stmt),
    Stmt.mapMethods f (Stmt.mapMethods g ms) = Stmt.mapMethods (f ∘ g) ms
  | [] => rfl
  | r :: ms => by
    rw [Stmt.mapMethods, Stmt.mapMethods, Stmt.mapMethods, Stmt.mapRoutine_mapRoutine f g r,
      mapMethods_mapMethods f g ms]

end

end Treewalk
