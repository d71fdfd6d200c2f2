import Treewalk.Proofs.Enclosures

/-!
# The tree with its distances

The resolver records the same distances whether or not it finds faults. Its faults change
neither what it records nor the names that a scope has: a name that is declared twice is
there either way. So the resolved tree is a function of the tree and of the names of the
scopes around it (`Stmt.record`), which the resolver computes (`Program.resolve_eq_record`).
Nothing but distances changes (`Stmt.eraseAll_recordAll`).
-/

namespace Treewalk

open Resolver

/-- The occurrence with the number of scopes between it and the nearest that has its name. -/
def Reference.record (scopes : List (List String)) (r : Reference) : Reference :=
  ⟨r.name, scopes.findIdx? fun names => decide (r.name.lexeme ∈ names)⟩

mutual

/-- All distances in an expression. A `this` outside a class is left alone. -/
def Expr.record (body : ClassBody) (scopes : List (List String)) : Expr → Expr
  | .literal v => .literal v
  | .unary op e => .unary op (e.record body scopes)
  | .binary op a b => .binary op (a.record body scopes) (b.record body scopes)
  | .logical op a b => .logical op (a.record body scopes) (b.record body scopes)
  | .group e => .group (e.record body scopes)
  | .var r => .var (r.record scopes)
  | .assign r e => .assign (r.record scopes) (e.record body scopes)
  | .call f p args => .call (f.record body scopes) p (Expr.recordAll body scopes args)
  | .get o n => .get (o.record body scopes) n
  | .set o n v => .set (o.record body scopes) n (v.record body scopes)
  | .receiver k => .receiver (if body = .none then k else k.record scopes)
  | .inherited k m => .inherited (k.record scopes) m

def Expr.recordAll (body : ClassBody) (scopes : List (List String)) : List Expr → List Expr
  | [] => []
  | e :: es => e.record body scopes :: Expr.recordAll body scopes es

end

mutual

/-- All distances in a statement, where `scopes` are the scopes in front of it. -/
def Stmt.record (body : ClassBody) (scopes : List (List String)) : Stmt → Stmt
  | .expression e => .expression (e.record body scopes)
  | .print e => .print (e.record body scopes)
  | .declare n e => .declare n (e.map (Expr.record body (declareIn scopes [n.lexeme])))
  | .block b => .block (Stmt.recordAll body ([] :: scopes) b)
  | .branch c s none => .branch (c.record body scopes) (s.record body scopes) none
  | .branch c s (some a) =>
    .branch (c.record body scopes) (s.record body scopes) (some (a.record body scopes))
  | .loop c s => .loop (c.record body scopes) (s.record body scopes)
  | .function ⟨n, ps, b⟩ =>
    .function ⟨n, ps, Stmt.recordAll body (ps.map Token.lexeme :: declareIn scopes [n.lexeme]) b⟩
  | .leave k e => .leave k (e.map (Expr.record body scopes))
  | .classDecl n none ms =>
    .classDecl n none (Stmt.recordMethods .base (["this"] :: declareIn scopes [n.lexeme]) ms)
  | .classDecl n (some r) ms =>
    let scopes := declareIn scopes [n.lexeme]
    .classDecl n (some (r.record scopes))
      (Stmt.recordMethods .derived (["this"] :: ["super"] :: scopes) ms)

def Stmt.recordAll (body : ClassBody) (scopes : List (List String)) : List Stmt → List Stmt
  | [] => []
  | s :: l =>
    s.record body scopes :: Stmt.recordAll body (declareIn scopes (Stmt.label s.declared)) l

def Stmt.recordMethods (body : ClassBody) (scopes : List (List String)) :
    List (Routine Stmt) → List (Routine Stmt)
  | [] => []
  | ⟨n, ps, b⟩ :: ms =>
    ⟨n, ps, Stmt.recordAll body (ps.map Token.lexeme :: scopes) b⟩ ::
      Stmt.recordMethods body scopes ms

end

/-! ## The resolver records the distances -/

namespace Resolver

/-- Where the open scopes have the names `scopes`, the action has the result `a` and leaves
scopes with the names `scopes'`, whatever faults were found before. -/
def Follows {α : Type} (scopes : List (List String)) (x : Resolver α) (a : α)
    (scopes' : List (List String)) : Prop :=
  ∀ s : Scoping, Lists s.scopes scopes → (x s).1 = a ∧ Lists (x s).2.scopes scopes'

section

variable {α β : Type} {scopes scopes₁ scopes₂ : List (List String)}

theorem follows_pure (a : α) : Follows scopes (pure a) a scopes :=
  fun _ h => ⟨rfl, h⟩

theorem Follows.bind {x : Resolver α} {f : α → Resolver β} {a : α} {b : β}
    (hx : Follows scopes x a scopes₁) (hf : Follows scopes₁ (f a) b scopes₂) :
    Follows scopes (x >>= f) b scopes₂ := by
  intro s hs
  obtain ⟨ha, hs₁⟩ := hx s hs
  rw [run_bind, ha]
  exact hf _ hs₁

theorem follows_fault (t : Token) (f : ScopeFault) : Follows scopes (fault t f) () scopes :=
  fun _ h => ⟨rfl, h⟩

theorem follows_openScope : Follows scopes (openScope .empty) () ([] :: scopes) :=
  fun _ h => ⟨rfl, h.push⟩

theorem follows_openKeyword (word : String) :
    Follows scopes (openScope (Bindings.empty.insert word true)) () ([word] :: scopes) :=
  fun _ h => ⟨rfl, h.keyword word⟩

theorem follows_closeScope {names : List String} :
    Follows (names :: scopes) closeScope () scopes := by
  rintro ⟨κ, fs⟩ h
  cases h with | cons _ h => exact ⟨rfl, h⟩

/-- A name that is there already is reported, and it stays there. -/
theorem follows_declare (n : Token) :
    Follows scopes (declare n) () (declareIn scopes [n.lexeme]) := by
  rintro ⟨κ, fs⟩ h
  obtain ⟨_, e⟩ | ⟨top, _, rfl, hc, e⟩ := declare_cases n κ fs
  · rw [e]
    exact ⟨rfl, h.declareIn (adds_mark κ n false)⟩
  · rw [e]
    refine ⟨rfl, h.declareIn ⟨top, rfl, fun name => ?_⟩⟩
    rw [List.mem_singleton]
    exact ⟨.inr, fun hn => hn.elim (fun heq => heq ▸ hc) id⟩

theorem follows_define (n : Token) :
    Follows (declareIn scopes [n.lexeme]) (define n) () (declareIn scopes [n.lexeme]) := by
  rintro ⟨κ, fs⟩ h
  rw [define_eq]
  refine ⟨rfl, ?_⟩
  cases scopes with
  | nil =>
    cases h
    exact .nil
  | cons names scopes =>
    cases h with | cons htop hrest =>
    refine .cons (fun name => ?_) hrest
    rw [contains_insert, htop, List.mem_append, List.mem_singleton]
    tauto

theorem follows_parameters (ps : List Token) {names : List String} :
    Follows (names :: scopes) (parameters ps) () ((names ++ ps.map Token.lexeme) :: scopes) := by
  induction ps generalizing names with
  | nil =>
    rw [List.map_nil, List.append_nil]
    exact follows_pure ()
  | cons p ps ih =>
    rw [List.map_cons, List.append_cons]
    exact (follows_declare p).bind ((follows_define p).bind ih)

theorem follows_locate {r : Reference} (hr : r.depth = none) :
    Follows scopes (locate r) (r.record scopes) scopes := by
  intro s h
  obtain ⟨t, d⟩ := r
  obtain rfl : d = none := hr
  rw [locate_eq, located, h.distance?_eq, Reference.record]
  refine ⟨?_, h⟩
  split
  · next hd => rw [hd]
  · next hd => rw [hd]

theorem follows_checkRead (r : Reference) : Follows scopes (checkRead r) () scopes := by
  rintro ⟨κ, fs⟩ h
  obtain ⟨_, e⟩ | ⟨_, e⟩ := checkRead_cases r κ fs
  · rw [e]
    exact ⟨rfl, h⟩
  · rw [e]
    exact ⟨rfl, h⟩

theorem follows_checkSuper (body : ClassBody) (t : Token) :
    Follows scopes (checkSuper body t) () scopes := by
  cases body with
  | none | base => exact follows_fault t _
  | derived => exact follows_pure ()

theorem follows_superclass (n : Token) {r : Reference} (hr : r.depth = none) :
    Follows scopes (superclass n (some r)) (some (r.record scopes)) (["super"] :: scopes) := by
  have htail : Follows scopes (do
      let r ← locate r
      openScope (Bindings.empty.insert "super" true)
      pure (some r)) (some (r.record scopes)) (["super"] :: scopes) :=
    (follows_locate hr).bind ((follows_openKeyword "super").bind (follows_pure _))
  rw [superclass]
  split
  · exact (follows_fault _ _).bind htail
  · exact htail

end

end Resolver

mutual

theorem Expr.resolve_follows (body : ClassBody) {scopes : List (List String)} :
    ∀ (level : Nat) {e : Expr}, e.Bare →
      Follows scopes (e.resolve body level) (e.record body scopes) scopes
  | level, .literal v, _ => by
    rw [Expr.resolve, Expr.record]
    exact follows_pure _
  | level, .group e, .group he => by
    rw [Expr.resolve, Expr.record, deeper_eq]
    exact (Expr.resolve_follows body _ he).bind (follows_pure _)
  | level, .unary op e, .unary _ he => by
    rw [Expr.resolve, Expr.record, deeper_eq]
    exact (Expr.resolve_follows body _ he).bind (follows_pure _)
  | level, .get o n, .get ho => by
    rw [Expr.resolve, Expr.record, deeper_eq]
    exact (Expr.resolve_follows body _ ho).bind (follows_pure _)
  | level, .binary op a b, .binary _ ha hb => by
    rw [Expr.resolve, Expr.record, deeper_eq, deeper_eq]
    exact (Expr.resolve_follows body _ ha).bind
      ((Expr.resolve_follows body _ hb).bind (follows_pure _))
  | level, .logical op a b, .logical ha hb => by
    rw [Expr.resolve, Expr.record, deeper_eq, deeper_eq]
    exact (Expr.resolve_follows body _ ha).bind
      ((Expr.resolve_follows body _ hb).bind (follows_pure _))
  | level, .set o n v, .set ho hv => by
    rw [Expr.resolve, Expr.record, deeper_eq, deeper_eq]
    exact (Expr.resolve_follows body _ hv).bind
      ((Expr.resolve_follows body _ ho).bind (follows_pure _))
  | level, .var _, .var _ => by
    rw [Expr.resolve, Expr.record]
    exact (follows_checkRead _).bind ((follows_locate rfl).bind (follows_pure _))
  | level, .assign _ e, .assign _ he => by
    rw [Expr.resolve, Expr.record, deeper_eq]
    exact (Expr.resolve_follows body _ he).bind ((follows_locate rfl).bind (follows_pure _))
  | level, .call f p args, .call hf hargs => by
    rw [Expr.resolve, Expr.record, deeper_eq]
    exact (Expr.resolve_follows body _ hf).bind
      ((Expr.resolveAll_follows body _ hargs).bind (follows_pure _))
  | level, .receiver _, .receiver _ => by
    rw [Expr.resolve, Expr.record]
    split
    · exact (follows_fault _ _).bind (follows_pure _)
    · exact (follows_locate rfl).bind (follows_pure _)
  | level, .inherited _ m, .inherited _ _ => by
    rw [Expr.resolve, Expr.record]
    exact (follows_checkSuper _ _).bind ((follows_locate rfl).bind (follows_pure _))

theorem Expr.resolveAll_follows (body : ClassBody) {scopes : List (List String)} :
    ∀ (level : Nat) {es : List Expr}, (∀ e ∈ es, e.Bare) →
      Follows scopes (Expr.resolveAll body level es) (Expr.recordAll body scopes es) scopes
  | level, [], _ => by
    rw [Expr.resolveAll, Expr.recordAll]
    exact follows_pure _
  | level, e :: es, h => by
    obtain ⟨he, hes⟩ := List.forall_mem_cons.mp h
    rw [Expr.resolveAll, Expr.recordAll, deeper_eq]
    exact (Expr.resolve_follows body _ he).bind
      ((Expr.resolveAll_follows body level hes).bind (follows_pure _))

end

theorem Expr.resolve?_follows (body : ClassBody) {scopes : List (List String)} {e : Option Expr}
    (h : ∀ x ∈ e, x.Bare) :
    Follows scopes (Expr.resolve? body e) (e.map (Expr.record body scopes)) scopes := by
  cases e with
  | none => exact follows_pure none
  | some e => exact (Expr.resolve_follows body 1 (h e rfl)).bind (follows_pure _)

theorem Stmt.Quiet.declareIn {s : Stmt} (h : s.Quiet) (scopes : List (List String)) :
    declareIn scopes (Stmt.label s.declared) = scopes := by
  rw [h.declared_eq]
  exact declareIn_nil scopes

theorem Resolver.Follows.of_quiet {α : Type} {scopes : List (List String)} {x : Resolver α} {a : α}
    {s : Stmt} (h : Follows scopes x a scopes) (hs : s.Quiet) :
    Follows scopes x a (declareIn scopes (Stmt.label s.declared)) := by
  rwa [hs.declareIn]

mutual

theorem Stmt.resolve_follows (place : Place) {scopes : List (List String)} :
    ∀ (level : Nat) {s : Stmt}, s.Bare → Follows scopes (s.resolve place level)
      (s.record place.classBody scopes) (declareIn scopes (Stmt.label s.declared))
  | level, .expression e, .expression he => by
    rw [Stmt.resolve, Stmt.record]
    exact .of_quiet ((Expr.resolve_follows _ 1 he).bind (follows_pure _)) trivial
  | level, .print e, .print he => by
    rw [Stmt.resolve, Stmt.record]
    exact .of_quiet ((Expr.resolve_follows _ 1 he).bind (follows_pure _)) trivial
  | level, .declare n e, .declare _ he => by
    rw [Stmt.resolve, Stmt.record]
    exact (follows_declare n).bind ((Expr.resolve?_follows _ he).bind
      ((follows_define n).bind (follows_pure _)))
  | level, .block b, .block hb => by
    rw [Stmt.resolve, Stmt.record]
    refine .of_quiet ?_ trivial
    exact follows_openScope.bind ((Stmt.resolveAll_follows place _ hb).bind
      (follows_closeScope.bind (follows_pure _)))
  | level, .branch c s none, .branch hc hs hq _ _ => by
    rw [Stmt.resolve, Stmt.record, deeper_eq]
    refine .of_quiet ?_ trivial
    have hs := @Stmt.resolve_follows place scopes (level + 1) s hs
    rw [hq.declareIn] at hs
    exact (Expr.resolve_follows _ 1 hc).bind (hs.bind (follows_pure _))
  | level, .branch c s (some a), .branch hc hs hq ha hqa => by
    rw [Stmt.resolve, Stmt.record, deeper_eq, deeper_eq]
    refine .of_quiet ?_ trivial
    have hs := @Stmt.resolve_follows place scopes (level + 1) s hs
    have ha := @Stmt.resolve_follows place scopes (level + 1) a (ha a rfl)
    rw [hq.declareIn] at hs
    rw [(hqa a rfl).declareIn] at ha
    exact (Expr.resolve_follows _ 1 hc).bind (hs.bind (ha.bind (follows_pure _)))
  | level, .loop c s, .loop hc hs hq => by
    rw [Stmt.resolve, Stmt.record, deeper_eq]
    refine .of_quiet ?_ trivial
    have hs := @Stmt.resolve_follows place scopes (level + 1) s hs
    rw [hq.declareIn] at hs
    exact (Expr.resolve_follows _ 1 hc).bind (hs.bind (follows_pure _))
  | level, .function ⟨n, ps, b⟩, .function _ _ hb => by
    rw [Stmt.resolve, Stmt.record]
    exact (follows_declare n).bind ((follows_define n).bind (follows_openScope.bind
      ((follows_parameters ps).bind ((Stmt.resolveAll_follows ⟨true, place.classBody⟩ _ hb).bind
        (follows_closeScope.bind (follows_pure _))))))
  | level, .leave k e, .leave he => by
    have hvalue : Follows scopes (do pure (Stmt.leave k (← Expr.resolve? place.classBody e)))
        (.leave k (e.map (Expr.record place.classBody scopes))) scopes :=
      (Expr.resolve?_follows _ he).bind (follows_pure _)
    rw [Stmt.resolve, Stmt.record]
    refine .of_quiet ?_ trivial
    split
    · exact hvalue
    · exact (follows_fault _ _).bind hvalue
  | level, .classDecl n none ms, .classDecl _ _ _ hb => by
    rw [Stmt.resolve_base, Stmt.record]
    exact (follows_declare n).bind ((follows_define n).bind ((follows_openKeyword "this").bind
      ((Stmt.resolveMethods_follows .base _ hb).bind (follows_closeScope.bind (follows_pure _)))))
  | level, .classDecl n (some r) ms, .classDecl _ hr _ hb => by
    rw [Stmt.resolve_derived, Stmt.record]
    exact (follows_declare n).bind ((follows_define n).bind
      ((follows_superclass n (hr r rfl).1).bind ((follows_openKeyword "this").bind
        ((Stmt.resolveMethods_follows .derived _ hb).bind (follows_closeScope.bind
          (follows_closeScope.bind (follows_pure _)))))))

theorem Stmt.resolveAll_follows (place : Place) {scopes : List (List String)} :
    ∀ (level : Nat) {l : List Stmt}, (∀ s ∈ l, s.Bare) → Follows scopes
      (Stmt.resolveAll place level l) (Stmt.recordAll place.classBody scopes l)
      (declareIn scopes (Stmt.label (Stmt.declaredAll l)))
  | level, [], _ => by
    rw [Stmt.resolveAll, Stmt.recordAll]
    show Follows scopes _ _ (declareIn scopes [])
    rw [declareIn_nil]
    exact follows_pure _
  | level, s :: l, h => by
    obtain ⟨hs, hl⟩ := List.forall_mem_cons.mp h
    have hlabel : Stmt.label (Stmt.declaredAll (s :: l)) =
        Stmt.label s.declared ++ Stmt.label (Stmt.declaredAll l) := List.map_append
    rw [Stmt.resolveAll, Stmt.recordAll, deeper_eq, hlabel, ← declareIn_append]
    exact (Stmt.resolve_follows place _ hs).bind
      ((Stmt.resolveAll_follows place level hl).bind (follows_pure _))

theorem Stmt.resolveMethods_follows (body : ClassBody) {scopes : List (List String)} :
    ∀ (level : Nat) {ms : List (Routine Stmt)}, (∀ m ∈ ms, ∀ s ∈ m.body, s.Bare) → Follows scopes
      (Stmt.resolveMethods body level ms) (Stmt.recordMethods body scopes ms) scopes
  | level, [], _ => by
    rw [Stmt.resolveMethods, Stmt.recordMethods]
    exact follows_pure _
  | level, ⟨n, ps, b⟩ :: ms, h => by
    obtain ⟨hb, hms⟩ := List.forall_mem_cons.mp h
    rw [Stmt.resolveMethods, Stmt.recordMethods]
    exact follows_openScope.bind ((follows_parameters ps).bind
      ((Stmt.resolveAll_follows ⟨true, body⟩ _ hb).bind (follows_closeScope.bind
        ((Stmt.resolveMethods_follows body level hms).bind (follows_pure _)))))

end

/-- Resolving a program as it is read gives the tree with all distances. -/
theorem Program.resolve_eq_record {p : Program} (h : ∀ s ∈ p, s.Bare) :
    p.resolve.1 = Stmt.recordAll .none [] p :=
  (Stmt.resolveAll_follows ⟨false, .none⟩ 1 h ⟨[], []⟩ .nil).1

/-! ## Nothing but distances changes -/

def Reference.erase (r : Reference) : Reference :=
  ⟨r.name, none⟩

mutual

def Expr.erase : Expr → Expr
  | .literal v => .literal v
  | .unary op e => .unary op e.erase
  | .binary op a b => .binary op a.erase b.erase
  | .logical op a b => .logical op a.erase b.erase
  | .group e => .group e.erase
  | .var r => .var r.erase
  | .assign r e => .assign r.erase e.erase
  | .call f p args => .call f.erase p (Expr.eraseAll args)
  | .get o n => .get o.erase n
  | .set o n v => .set o.erase n v.erase
  | .receiver k => .receiver k.erase
  | .inherited k m => .inherited k.erase m

def Expr.eraseAll : List Expr → List Expr
  | [] => []
  | e :: es => e.erase :: Expr.eraseAll es

end

mutual

/-- The tree without its distances. -/
def Stmt.erase : Stmt → Stmt
  | .expression e => .expression e.erase
  | .print e => .print e.erase
  | .declare n e => .declare n (e.map Expr.erase)
  | .block b => .block (Stmt.eraseAll b)
  | .branch c s none => .branch c.erase s.erase none
  | .branch c s (some a) => .branch c.erase s.erase (some a.erase)
  | .loop c s => .loop c.erase s.erase
  | .function ⟨n, ps, b⟩ => .function ⟨n, ps, Stmt.eraseAll b⟩
  | .leave k e => .leave k (e.map Expr.erase)
  | .classDecl n r ms => .classDecl n (r.map Reference.erase) (Stmt.eraseMethods ms)

def Stmt.eraseAll : List Stmt → List Stmt
  | [] => []
  | s :: l => s.erase :: Stmt.eraseAll l

def Stmt.eraseMethods : List (Routine Stmt) → List (Routine Stmt)
  | [] => []
  | ⟨n, ps, b⟩ :: ms => ⟨n, ps, Stmt.eraseAll b⟩ :: Stmt.eraseMethods ms

end

mutual

theorem Expr.erase_record (body : ClassBody) (scopes : List (List String)) :
    ∀ {e : Expr}, e.Bare → (e.record body scopes).erase = e
  | .literal _, _ => rfl
  | .group _, .group h | .unary _ _, .unary _ h | .get _ _, .get h => by
    rw [Expr.record, Expr.erase, Expr.erase_record body scopes h]
  | .assign _ _, .assign _ h => by
    rw [Expr.record, Expr.erase, Expr.erase_record body scopes h]
    rfl
  | .binary _ _ _, .binary _ ha hb | .logical _ _ _, .logical ha hb | .set _ _ _, .set ha hb => by
    rw [Expr.record, Expr.erase, Expr.erase_record body scopes ha, Expr.erase_record body scopes hb]
  | .call _ _ _, .call hf hargs => by
    rw [Expr.record, Expr.erase, Expr.erase_record body scopes hf,
      Expr.eraseAll_recordAll body scopes hargs]
  | .var _, .var _ | .inherited _ _, .inherited _ _ => rfl
  | .receiver _, .receiver _ => by
    rw [Expr.record]
    split <;> rfl

theorem Expr.eraseAll_recordAll (body : ClassBody) (scopes : List (List String)) :
    ∀ {es : List Expr}, (∀ e ∈ es, e.Bare) → Expr.eraseAll (Expr.recordAll body scopes es) = es
  | [], _ => rfl
  | e :: es, h => by
    obtain ⟨he, hes⟩ := List.forall_mem_cons.mp h
    rw [Expr.recordAll, Expr.eraseAll, Expr.erase_record body scopes he,
      Expr.eraseAll_recordAll body scopes hes]

end

theorem Expr.erase_record? (body : ClassBody) (scopes : List (List String)) {e : Option Expr}
    (h : ∀ x ∈ e, x.Bare) : (e.map (Expr.record body scopes)).map Expr.erase = e := by
  cases e with
  | none => rfl
  | some e => rw [Option.map_some, Option.map_some, Expr.erase_record body scopes (h e rfl)]

mutual

theorem Stmt.erase_record (body : ClassBody) (scopes : List (List String)) :
    ∀ {s : Stmt}, s.Bare → (s.record body scopes).erase = s
  | .expression _, .expression h | .print _, .print h => by
    rw [Stmt.record, Stmt.erase, Expr.erase_record body scopes h]
  | .declare _ _, .declare _ h | .leave _ _, .leave h => by
    rw [Stmt.record, Stmt.erase, Expr.erase_record? body _ h]
  | .block _, .block h => by
    rw [Stmt.record, Stmt.erase, Stmt.eraseAll_recordAll body _ h]
  | .branch _ _ none, .branch hc hs _ _ _ | .loop _ _, .loop hc hs _ => by
    rw [Stmt.record, Stmt.erase, Expr.erase_record body scopes hc, Stmt.erase_record body scopes hs]
  | .branch _ _ (some a), .branch hc hs _ ha _ => by
    rw [Stmt.record, Stmt.erase, Expr.erase_record body scopes hc, Stmt.erase_record body scopes hs,
      Stmt.erase_record body scopes (ha a rfl)]
  | .function ⟨_, _, _⟩, .function _ _ h => by
    rw [Stmt.record, Stmt.erase, Stmt.eraseAll_recordAll body _ h]
  | .classDecl _ none _, .classDecl _ _ _ h => by
    rw [Stmt.record, Stmt.erase, Stmt.eraseMethods_recordMethods .base _ h, Option.map_none]
  | .classDecl _ (some ⟨_, _⟩) _, .classDecl _ hr _ h => by
    rw [Stmt.record, Stmt.erase, Stmt.eraseMethods_recordMethods .derived _ h]
    obtain rfl := (hr _ rfl).1
    rfl

theorem Stmt.eraseAll_recordAll (body : ClassBody) : ∀ (scopes : List (List String))
    {l : List Stmt}, (∀ s ∈ l, s.Bare) → Stmt.eraseAll (Stmt.recordAll body scopes l) = l
  | _, [], _ => rfl
  | scopes, s :: l, h => by
    obtain ⟨hs, hl⟩ := List.forall_mem_cons.mp h
    rw [Stmt.recordAll, Stmt.eraseAll, Stmt.erase_record body scopes hs,
      Stmt.eraseAll_recordAll body _ hl]

theorem Stmt.eraseMethods_recordMethods (body : ClassBody) (scopes : List (List String)) :
    ∀ {ms : List (Routine Stmt)}, (∀ m ∈ ms, ∀ s ∈ m.body, s.Bare) →
      Stmt.eraseMethods (Stmt.recordMethods body scopes ms) = ms
  | [], _ => rfl
  | ⟨_, _, _⟩ :: _, h => by
    obtain ⟨hb, hms⟩ := List.forall_mem_cons.mp h
    rw [Stmt.recordMethods, Stmt.eraseMethods, Stmt.eraseAll_recordAll body _ hb,
      Stmt.eraseMethods_recordMethods body scopes hms]

end

end Treewalk
