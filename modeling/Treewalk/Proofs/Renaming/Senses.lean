import Mathlib.Data.List.Nodup
import Mathlib.Data.List.Pairwise
import Treewalk.Proofs.Scoping.Relabel
import Treewalk.Proofs.Scoping.Visits

/-!
# What a token has to do with a variable

Given the token `d` that declares a variable or parameter, `Stmt.senses d` says of each
token of a resolved tree what it has to do with the scope of that declaration: whether
it declares a name there, or refers to that scope. The scopes around a node are known
by a flag each, the innermost first, which says whether the scope declares `d`.

`Sense.renames` picks the tokens that are replaced when the variable is renamed: `d`
itself and the references that have its name and lead to its scope.
-/

namespace Treewalk

/-- What a token stands for. A sense is hit if it is about the scope of the declaration. -/
inductive Sense where
  /-- An operator, a property, a place, a method: not looked up in scopes. -/
  | fixed
  /-- The keyword `this` or `super`. -/
  | keyword (hit : Bool)
  /-- An occurrence of a variable: read, assigned or inherited from. -/
  | reference (hit : Bool)
  /-- A variable or parameter that is declared. -/
  | binder (hit : Bool)
  /-- A function or class that is declared. -/
  | definition (hit : Bool)
  deriving DecidableEq

def Sense.hit : Sense → Bool
  | .fixed => false
  | .keyword hit | .reference hit | .binder hit | .definition hit => hit

/-- The token is replaced when the variable that `d` declares is renamed. -/
def Sense.renames (d : Token) : Sense → Token → Bool
  | .reference true, t => t.lexeme == d.lexeme
  | .binder true, t => t == d
  | _, _ => false

/-- The flag of the scope at a distance; the globals have none. -/
def hitAt (flags : List Bool) : Option Nat → Bool
  | some i => flags.getD i false
  | none => false

mutual

def Expr.senses (flags : List Bool) : Expr → List (Token × Sense)
  | .literal _ => []
  | .unary op e => (op, .fixed) :: e.senses flags
  | .binary op a b | .logical op a b => (op, .fixed) :: (a.senses flags ++ b.senses flags)
  | .group e => e.senses flags
  | .var r => [(r.name, .reference (hitAt flags r.depth))]
  | .assign r v => (r.name, .reference (hitAt flags r.depth)) :: v.senses flags
  | .call callee p args => (p, .fixed) :: (callee.senses flags ++ Expr.sensesAll flags args)
  | .get o n => (n, .fixed) :: o.senses flags
  | .set o n v => (n, .fixed) :: (o.senses flags ++ v.senses flags)
  | .receiver k => [(k.name, .keyword (hitAt flags k.depth))]
  | .inherited k m => [(k.name, .keyword (hitAt flags k.depth)), (m, .fixed)]

def Expr.sensesAll (flags : List Bool) : List Expr → List (Token × Sense)
  | [] => []
  | e :: es => e.senses flags ++ Expr.sensesAll flags es

end

def Expr.senses? (flags : List Bool) : Option Expr → List (Token × Sense)
  | none => []
  | some e => e.senses flags

/-- The name that a statement declares in the scope it stands in, and whether it is a
variable. -/
def Stmt.declared : Stmt → List (Token × Bool)
  | .declare n _ => [(n, true)]
  | .function r => [(r.name, false)]
  | .classDecl n _ _ => [(n, false)]
  | .expression _ | .print _ | .block _ | .branch _ _ _ | .loop _ _ | .leave _ _ => []

def Stmt.declaredAll (l : List Stmt) : List (Token × Bool) :=
  l.flatMap Stmt.declared

/-- The names that a function declares in its scope. -/
def Stmt.declaredIn (params : List Token) (body : List Stmt) : List (Token × Bool) :=
  params.map (·, true) ++ Stmt.declaredAll body

mutual

def Stmt.senses (d : Token) (flags : List Bool) : Stmt → List (Token × Sense)
  | .expression e | .print e => e.senses flags
  | .declare n e => (n, .binder (flags.headD false)) :: Expr.senses? flags e
  | .block b => Stmt.sensesAll d ((Stmt.declaredAll b).contains (d, true) :: flags) b
  | .branch c s none => c.senses flags ++ s.senses d flags
  | .branch c s (some a) => c.senses flags ++ (s.senses d flags ++ a.senses d flags)
  | .loop c s => c.senses flags ++ s.senses d flags
  | .function r => (r.name, .definition (flags.headD false)) :: Stmt.sensesRoutine d flags r
  | .leave k e => (k, .fixed) :: Expr.senses? flags e
  | .classDecl n none ms =>
    (n, .definition (flags.headD false)) :: Stmt.sensesMethods d (false :: flags) ms
  | .classDecl n (some r) ms =>
    (n, .definition (flags.headD false)) :: (r.name, .reference (hitAt flags r.depth)) ::
      Stmt.sensesMethods d (false :: false :: flags) ms

def Stmt.sensesAll (d : Token) (flags : List Bool) : List Stmt → List (Token × Sense)
  | [] => []
  | s :: l => s.senses d flags ++ Stmt.sensesAll d flags l

/-- The senses in a routine, its name left out. -/
def Stmt.sensesRoutine (d : Token) (flags : List Bool) : Routine Stmt → List (Token × Sense)
  | ⟨_, params, body⟩ =>
    let hit := (Stmt.declaredIn params body).contains (d, true)
    params.map (·, .binder hit) ++ Stmt.sensesAll d (hit :: flags) body

def Stmt.sensesMethods (d : Token) (flags : List Bool) :
    List (Routine Stmt) → List (Token × Sense)
  | [] => []
  | r :: ms => (r.name, .fixed) :: (Stmt.sensesRoutine d flags r ++ Stmt.sensesMethods d flags ms)

end

/-- The variables among declared names. -/
def Stmt.variables (names : List (Token × Bool)) : List Token :=
  (names.filter (·.2)).map (·.1)

mutual

/-- The variables and parameters that are declared inside a statement. -/
def Stmt.locals : Stmt → List Token
  | .block b => Stmt.variables (Stmt.declaredAll b) ++ Stmt.localsAll b
  | .branch _ s none => s.locals
  | .branch _ s (some a) => s.locals ++ a.locals
  | .loop _ s => s.locals
  | .function r => Stmt.localsRoutine r
  | .classDecl _ _ ms => Stmt.localsMethods ms
  | .expression _ | .print _ | .declare _ _ | .leave _ _ => []

def Stmt.localsAll : List Stmt → List Token
  | [] => []
  | s :: l => s.locals ++ Stmt.localsAll l

def Stmt.localsRoutine : Routine Stmt → List Token
  | ⟨_, params, body⟩ => Stmt.variables (Stmt.declaredIn params body) ++ Stmt.localsAll body

def Stmt.localsMethods : List (Routine Stmt) → List Token
  | [] => []
  | r :: ms => Stmt.localsRoutine r ++ Stmt.localsMethods ms

end

/-! ## Every token has one sense -/

mutual

theorem Expr.senses_fst (flags : List Bool) : ∀ e : Expr, (e.senses flags).map Prod.fst = e.tokens
  | .literal _ => rfl
  | .unary _ e | .get e _ | .assign _ e | .group e => by
    simp only [Expr.senses, Expr.tokens, List.map_cons, Expr.senses_fst flags e]
  | .binary _ a b | .logical _ a b | .set a _ b => by
    simp only [Expr.senses, Expr.tokens, List.map_cons, List.map_append, Expr.senses_fst flags a,
      Expr.senses_fst flags b]
  | .var _ | .receiver _ | .inherited _ _ => rfl
  | .call callee _ args => by
    simp only [Expr.senses, Expr.tokens, List.map_cons, List.map_append,
      Expr.senses_fst flags callee, Expr.sensesAll_fst flags args]

theorem Expr.sensesAll_fst (flags : List Bool) :
    ∀ es : List Expr, (Expr.sensesAll flags es).map Prod.fst = Expr.tokensAll es
  | [] => rfl
  | e :: es => by
    simp only [Expr.sensesAll, Expr.tokensAll, List.map_append, Expr.senses_fst flags e,
      Expr.sensesAll_fst flags es]

end

theorem Expr.senses?_fst (flags : List Bool) (e : Option Expr) :
    (Expr.senses? flags e).map Prod.fst = Expr.tokens? e := by
  cases e with
  | none => rfl
  | some e => exact Expr.senses_fst flags e

section

variable (d : Token)

mutual

theorem Stmt.senses_fst (flags : List Bool) : ∀ s : Stmt, (s.senses d flags).map Prod.fst = s.tokens
  | .expression e | .print e => by simp only [Stmt.senses, Stmt.tokens, Expr.senses_fst]
  | .declare n e | .leave n e => by
    simp only [Stmt.senses, Stmt.tokens, List.map_cons, Expr.senses?_fst]
  | .block b => by simp only [Stmt.senses, Stmt.tokens, Stmt.sensesAll_fst _ b]
  | .branch c s none | .loop c s => by
    simp only [Stmt.senses, Stmt.tokens, List.map_append, Expr.senses_fst, Stmt.senses_fst flags s]
  | .branch c s (some a) => by
    simp only [Stmt.senses, Stmt.tokens, List.map_append, Expr.senses_fst, Stmt.senses_fst flags s,
      Stmt.senses_fst flags a]
  | .function r => by
    rw [Stmt.senses, Stmt.tokens, ← Stmt.sensesRoutine_fst flags r, List.map_cons]
  | .classDecl n none ms => by
    simp only [Stmt.senses, Stmt.tokens, List.map_cons, Stmt.sensesMethods_fst _ ms]
  | .classDecl n (some r) ms => by
    simp only [Stmt.senses, Stmt.tokens, List.map_cons, Stmt.sensesMethods_fst _ ms]

theorem Stmt.sensesAll_fst (flags : List Bool) :
    ∀ l : List Stmt, (Stmt.sensesAll d flags l).map Prod.fst = Stmt.tokensAll l
  | [] => rfl
  | s :: l => by
    simp only [Stmt.sensesAll, Stmt.tokensAll, List.map_append, Stmt.senses_fst flags s,
      Stmt.sensesAll_fst flags l]

theorem Stmt.sensesRoutine_fst (flags : List Bool) : ∀ r : Routine Stmt,
    r.name :: (Stmt.sensesRoutine d flags r).map Prod.fst = Stmt.tokensRoutine r
  | ⟨name, params, body⟩ => by
    have hparams : ∀ b : Sense, (params.map fun p => (p, b)).map Prod.fst = params := fun b => by
      rw [List.map_map]
      exact List.map_id params
    simp only [Stmt.sensesRoutine, Stmt.tokensRoutine, List.map_append, hparams,
      Stmt.sensesAll_fst _ body]

theorem Stmt.sensesMethods_fst (flags : List Bool) : ∀ ms : List (Routine Stmt),
    (Stmt.sensesMethods d flags ms).map Prod.fst = Stmt.tokensMethods ms
  | [] => rfl
  | r :: ms => by
    rw [Stmt.sensesMethods, Stmt.tokensMethods, ← Stmt.sensesRoutine_fst flags r, List.map_cons,
      List.map_append, Stmt.sensesMethods_fst flags ms, List.cons_append]

end

end

/-! ## The names of one scope -/

open Resolver

/-- No two names are spelled the same. -/
def Distinct (names : List (Token × Bool)) : Prop :=
  names.Pairwise fun m n => m.1.lexeme ≠ n.1.lexeme

theorem contains_bound (top : Bindings Bool) (n : Token) (key : String) :
    ((top.insert n.lexeme false).insert n.lexeme true).contains key =
      (decide (n.lexeme = key) || top.contains key) := by
  simp only [Bindings.contains, Bindings.get?_insert]
  by_cases h : n.lexeme = key <;> simp [h]

/-- A statement declares a name that is new in its scope, or nothing. -/
theorem Stmt.Scoped.declared_cases {place : Place} {top : Bindings Bool}
    {κ κ' : List (Bindings Bool)} {s s' : Stmt} (h : Stmt.Scoped place (top :: κ) s s' κ')
    (hb : s.Bare) : (s'.declared = [] ∧ κ' = top :: κ) ∨
      ∃ n b, s'.declared = [(n, b)] ∧ top.contains n.lexeme = false ∧
        κ' = (top.insert n.lexeme false).insert n.lexeme true :: κ := by
  have hquiet := h.eq_of_quiet hb
  cases h with
  | expression | print | block | branch | choice | loop | leave => exact .inl ⟨rfl, hquiet trivial⟩
  | declare hn _ => exact .inr ⟨_, true, rfl, hn top rfl, rfl⟩
  | function hn _ _ => exact .inr ⟨_, false, rfl, hn top rfl, rfl⟩
  | base hn _ => exact .inr ⟨_, false, rfl, hn top rfl, rfl⟩
  | derived hn _ _ => exact .inr ⟨_, false, rfl, hn top rfl, rfl⟩

/-- What a scope declares is new there, and each name only once. -/
theorem Stmt.ScopedAll.distinct {place : Place} {top : Bindings Bool} {κ κ' : List (Bindings Bool)}
    {l l' : List Stmt} (h : Stmt.ScopedAll place (top :: κ) l l' κ') (hb : ∀ s ∈ l, s.Bare) :
    Distinct (Stmt.declaredAll l') ∧
      ∀ n ∈ Stmt.declaredAll l', top.contains n.1.lexeme = false := by
  induction l generalizing top l' with
  | nil =>
    cases h
    exact ⟨.nil, nofun⟩
  | cons s l ih =>
    cases h with | @cons _ _ _ _ _ s' _ l' hs hl =>
    obtain ⟨hbs, hbl⟩ := List.forall_mem_cons.mp hb
    rw [Stmt.declaredAll, List.flatMap_cons]
    rcases hs.declared_cases hbs with ⟨hd, rfl⟩ | ⟨n, b, hd, hn, rfl⟩
    · rw [hd]
      exact ih hl hbl
    · obtain ⟨hdist, hnew⟩ := ih hl hbl
      rw [hd, List.singleton_append]
      -- the names after `n` are new in a scope that has `n`
      have hlater : ∀ m ∈ Stmt.declaredAll l',
          n.lexeme ≠ m.1.lexeme ∧ top.contains m.1.lexeme = false := by
        intro m hm
        have hmnew := hnew m hm
        rw [contains_bound, Bool.or_eq_false_iff, decide_eq_false_iff_not] at hmnew
        exact hmnew
      exact ⟨.cons (fun m hm => (hlater m hm).1) hdist,
        List.forall_mem_cons.mpr ⟨hn, fun m hm => (hlater m hm).2⟩⟩

theorem Resolver.Params.distinct {top : Bindings Bool} {κ κ' : List (Bindings Bool)}
    {ps : List Token} (h : Params (top :: κ) ps κ') : ∃ top', κ' = top' :: κ ∧
      (∀ key, top.contains key = true → top'.contains key = true) ∧
      Distinct (ps.map (·, true)) ∧ ∀ p ∈ ps, top.contains p.lexeme = false ∧
        top'.contains p.lexeme = true := by
  induction ps generalizing top with
  | nil =>
    cases h
    exact ⟨top, rfl, fun _ h => h, .nil, nofun⟩
  | cons p ps ih =>
    cases h with | cons hp hps =>
    obtain ⟨top', rfl, hmono, hdist, hmem⟩ := ih hps
    simp only [contains_bound, Bool.or_eq_false_iff, decide_eq_false_iff_not] at hmono hmem
    refine ⟨top', rfl, fun key hk => hmono key (by simp [hk]), ?_, ?_⟩
    · refine .cons (fun m hm => ?_) hdist
      obtain ⟨q, hq, rfl⟩ := List.mem_map.mp hm
      exact (hmem q hq).1.1
    · exact List.forall_mem_cons.mpr ⟨⟨hp top rfl, hmono _ (by simp)⟩,
        fun q hq => ⟨(hmem q hq).1.2, (hmem q hq).2⟩⟩

/-- Parameters and the names of the body share a scope. -/
theorem distinct_declaredIn {place : Place} {κ κ₁ κ' : List (Bindings Bool)} {ps : List Token}
    {b b' : List Stmt} (hps : Params (.empty :: κ) ps κ₁)
    (h : Stmt.ScopedAll place κ₁ b b' κ') (hb : ∀ s ∈ b, s.Bare) :
    Distinct (Stmt.declaredIn ps b') := by
  obtain ⟨top, rfl, _, hdist, hmem⟩ := hps.distinct
  obtain ⟨hdist', hnew⟩ := h.distinct hb
  refine List.pairwise_append.mpr ⟨hdist, hdist', fun m hm n hn heq => ?_⟩
  obtain ⟨p, hp, rfl⟩ := List.mem_map.mp hm
  have htrue := (hmem p hp).2
  rw [show p.lexeme = n.1.lexeme from heq, hnew n hn] at htrue
  cases htrue

/-! ## What is not the variable -/

/-- Only `d` declares its name in its scope, and the keywords are no names. -/
def Sense.Clear (d : Token) : Token × Sense → Prop
  | (t, .keyword _) => ¬ t.IsName
  | (t, .binder hit) => t.IsName ∧ (hit = true → t = d ∨ t.lexeme ≠ d.lexeme)
  | (t, .definition hit) => hit = true → t.lexeme ≠ d.lexeme
  | (_, .fixed) | (_, .reference _) => True

/-- If the scope has the flag, only `d` is spelled there as `d` is. -/
def Own (d : Token) (hit : Bool) (names : List (Token × Bool)) : Prop :=
  hit = true → ∀ n ∈ names, n = (d, true) ∨ n.1.lexeme ≠ d.lexeme

theorem Distinct.own {names : List (Token × Bool)} (h : Distinct names) (d : Token) :
    Own d (names.contains (d, true)) names := by
  intro hd n hn
  have : Std.Symm fun m n : Token × Bool => m.1.lexeme ≠ n.1.lexeme := ⟨fun _ _ => Ne.symm⟩
  exact Classical.or_iff_not_imp_left.mpr (List.Pairwise.forall h hn (List.contains_iff_mem.mp hd))

theorem Own.mono {d : Token} {hit : Bool} {names names' : List (Token × Bool)}
    (h : Own d hit names) (hsub : ∀ n ∈ names', n ∈ names) : Own d hit names' :=
  fun hh n hn => h hh n (hsub n hn)

theorem own_nil (d : Token) (hit : Bool) : Own d hit [] :=
  fun _ _ h => nomatch h

section

variable (d : Token) (flags : List Bool)

mutual

theorem Expr.Scoped.clear {body : ClassBody} {κ : List (Bindings Bool)} : ∀ {e e' : Expr},
    Expr.Scoped body κ e e' → e.Bare → ∀ p ∈ e'.senses flags, Sense.Clear d p
  | _, _, .literal _, _ => fun _ h => nomatch h
  | _, _, .group h, .group hb => h.clear hb
  | _, _, .unary h, .unary _ hb | _, _, .get h, .get hb =>
    List.forall_mem_cons.mpr ⟨trivial, h.clear hb⟩
  | _, _, .binary h h', .binary _ hb hb' | _, _, .logical h h', .logical hb hb'
  | _, _, .set h h', .set hb hb' =>
    List.forall_mem_cons.mpr ⟨trivial, List.forall_mem_append.mpr ⟨h.clear hb, h'.clear hb'⟩⟩
  | _, _, .var _, _ => fun p hp => by
    obtain rfl := List.mem_singleton.mp hp
    exact trivial
  | _, _, .assign h, .assign _ hb => List.forall_mem_cons.mpr ⟨trivial, h.clear hb⟩
  | _, _, .call h h', .call hb hb' =>
    List.forall_mem_cons.mpr ⟨trivial, List.forall_mem_append.mpr ⟨h.clear hb, h'.clear hb'⟩⟩
  | _, _, .receiver _, .receiver hk => fun p hp => by
    obtain rfl := List.mem_singleton.mp hp
    rw [Sense.Clear, located_name]
    exact hk.not_isName
  | _, _, .inherited _, .inherited _ hk => fun p hp => by
    rcases List.mem_cons.mp hp with rfl | hp
    · rw [Sense.Clear, located_name]
      exact hk.not_isName
    · obtain rfl := List.mem_singleton.mp hp
      exact trivial

theorem Expr.ScopedAll.clear {body : ClassBody} {κ : List (Bindings Bool)} :
    ∀ {es es' : List Expr}, Expr.ScopedAll body κ es es' → (∀ e ∈ es, e.Bare) →
    ∀ p ∈ Expr.sensesAll flags es', Sense.Clear d p
  | _, _, .nil, _ => fun _ h => nomatch h
  | _, _, .cons h h', hb =>
    have hb := List.forall_mem_cons.mp hb
    List.forall_mem_append.mpr ⟨h.clear hb.1, h'.clear hb.2⟩

end

theorem Expr.scoped?_clear {body : ClassBody} {κ : List (Bindings Bool)} {e e' : Option Expr}
    (h : Option.Rel (Expr.Scoped body κ) e e') (hb : ∀ x ∈ e, x.Bare) :
    ∀ p ∈ Expr.senses? flags e', Sense.Clear d p := by
  cases h with
  | none => exact fun _ h => nomatch h
  | some h => exact h.clear d flags (hb _ rfl)

end

theorem Stmt.Scoped.declared_of_quiet {place : Place} {κ κ' : List (Bindings Bool)} {s s' : Stmt}
    (h : Stmt.Scoped place κ s s' κ') (hq : s.Quiet) : s'.declared = [] := by
  cases h with
  | declare | function | base | derived => exact hq.elim
  | expression | print | block | branch | choice | loop | leave => rfl

/-- A declared function or class is not the variable. -/
theorem Own.definition {d n : Token} {hit : Bool} (h : Own d hit [(n, false)]) :
    Sense.Clear d (n, .definition hit) := by
  intro hh
  rcases h hh _ List.mem_cons_self with heq | hne
  · cases congrArg Prod.snd heq
  · exact hne

theorem Own.binder {d n : Token} {hit : Bool} (hn : n.IsName) (h : Own d hit [(n, true)]) :
    Sense.Clear d (n, .binder hit) := by
  refine ⟨hn, fun hh => ?_⟩
  rcases h hh _ List.mem_cons_self with heq | hne
  · exact .inl (congrArg Prod.fst heq)
  · exact .inr hne

theorem Own.params {d : Token} {hit : Bool} {params : List Token} {names : List (Token × Bool)}
    (hps : ∀ p ∈ params, p.IsName) (h : Own d hit (params.map (·, true) ++ names)) :
    ∀ p ∈ params.map fun p => (p, Sense.binder hit), Sense.Clear d p := by
  intro p hp
  obtain ⟨q, hq, rfl⟩ := List.mem_map.mp hp
  refine Own.binder (hps q hq) (h.mono fun n hn => ?_)
  obtain rfl := List.mem_singleton.mp hn
  exact List.mem_append_left _ (List.mem_map_of_mem hq)

section

variable (d : Token)

mutual

theorem Stmt.Scoped.clear : ∀ {place : Place} {κ κ' : List (Bindings Bool)} {s s' : Stmt}
    {flags : List Bool}, Stmt.Scoped place κ s s' κ' → s.Bare →
    Own d (flags.headD false) s'.declared → ∀ p ∈ s'.senses d flags, Sense.Clear d p
  | _, _, _, _, _, flags, .expression h, .expression hb, _
  | _, _, _, _, _, flags, .print h, .print hb, _ => h.clear d flags hb
  | _, _, _, _, _, flags, .declare _ h, .declare hn hb, hown =>
    List.forall_mem_cons.mpr ⟨hown.binder hn, Expr.scoped?_clear d flags h hb⟩
  | _, _, _, _, _, _, .block h, .block hb, _ => h.clear hb ((h.distinct hb).1.own d)
  | _, _, _, _, _, flags, .branch hc h, .branch hcb hb hq _ _, _
  | _, _, _, _, _, flags, .loop hc h, .loop hcb hb hq, _ =>
    List.forall_mem_append.mpr ⟨hc.clear d flags hcb,
      h.clear hb (h.declared_of_quiet hq ▸ own_nil d _)⟩
  | _, _, _, _, _, flags, .choice hc h h', .branch hcb hb hq hb' hq', _ =>
    List.forall_mem_append.mpr ⟨hc.clear d flags hcb, List.forall_mem_append.mpr
      ⟨h.clear hb (h.declared_of_quiet hq ▸ own_nil d _),
        h'.clear (hb' _ rfl) (h'.declared_of_quiet (hq' _ rfl) ▸ own_nil d _)⟩⟩
  | _, _, _, _, _, _, .function _ hps h, .function _ hnames hb, hown => by
    have hself := (distinct_declaredIn hps h hb).own d
    refine List.forall_mem_cons.mpr ⟨hown.definition, List.forall_mem_append.mpr
      ⟨hself.params hnames, h.clear hb (hself.mono fun n hn => List.mem_append_right _ hn)⟩⟩
  | _, _, _, _, _, flags, .leave _ h, .leave hb, _ =>
    List.forall_mem_cons.mpr ⟨trivial, Expr.scoped?_clear d flags h hb⟩
  | _, _, _, _, _, _, .base _ h, .classDecl _ _ hnames hb, hown =>
    List.forall_mem_cons.mpr ⟨hown.definition, h.clear hnames hb⟩
  | _, _, _, _, _, _, .derived _ _ h, .classDecl _ _ hnames hb, hown =>
    List.forall_mem_cons.mpr ⟨hown.definition, List.forall_mem_cons.mpr
      ⟨trivial, h.clear hnames hb⟩⟩

theorem Stmt.ScopedAll.clear : ∀ {place : Place} {κ κ' : List (Bindings Bool)} {l l' : List Stmt}
    {flags : List Bool}, Stmt.ScopedAll place κ l l' κ' → (∀ s ∈ l, s.Bare) →
    Own d (flags.headD false) (Stmt.declaredAll l') →
    ∀ p ∈ Stmt.sensesAll d flags l', Sense.Clear d p
  | _, _, _, _, _, _, .nil, _, _ => fun _ h => nomatch h
  | _, _, _, _, _, _, .cons h h', hb, hown => by
    obtain ⟨hbs, hbl⟩ := List.forall_mem_cons.mp hb
    refine List.forall_mem_append.mpr ⟨h.clear hbs (hown.mono fun n hn => ?_),
      h'.clear hbl (hown.mono fun n hn => ?_)⟩
    · exact List.mem_append_left _ hn
    · exact List.mem_append_right _ hn

theorem Stmt.ScopedMethods.clear : ∀ {body : ClassBody} {κ : List (Bindings Bool)}
    {ms ms' : List (Routine Stmt)} {flags : List Bool}, Stmt.ScopedMethods body κ ms ms' →
    (∀ m ∈ ms, ∀ p ∈ m.params, p.IsName) → (∀ m ∈ ms, ∀ s ∈ m.body, s.Bare) →
    ∀ p ∈ Stmt.sensesMethods d flags ms', Sense.Clear d p
  | _, _, _, _, _, .nil, _, _ => fun _ h => nomatch h
  | _, _, _, _, _, .cons hps h h', hnames, hb => by
    obtain ⟨hn, hnames⟩ := List.forall_mem_cons.mp hnames
    obtain ⟨hbs, hb⟩ := List.forall_mem_cons.mp hb
    have hself := (distinct_declaredIn hps h hbs).own d
    refine List.forall_mem_cons.mpr ⟨trivial, List.forall_mem_append.mpr
      ⟨List.forall_mem_append.mpr ⟨hself.params hn, ?_⟩, h'.clear hnames hb⟩⟩
    exact h.clear hbs (hself.mono fun n hn => List.mem_append_right _ hn)

end

end

/-! ## The variable itself -/

theorem Stmt.mem_variables {names : List (Token × Bool)} {d : Token} :
    d ∈ Stmt.variables names ↔ (d, true) ∈ names := by
  simp [Stmt.variables]

theorem Stmt.binder_mem_senses {d : Token} {flags : List Bool} {s : Stmt}
    (h : (d, true) ∈ s.declared) : (d, .binder (flags.headD false)) ∈ s.senses d flags := by
  cases s with
  | declare n e =>
    obtain rfl : d = n := congrArg Prod.fst (List.mem_singleton.mp h)
    exact List.mem_cons_self
  | function | classDecl => cases congrArg Prod.snd (List.mem_singleton.mp h)
  | expression | print | block | branch | loop | leave => cases h

theorem Stmt.binder_mem_sensesAll {d : Token} {flags : List Bool} {l : List Stmt}
    (h : (d, true) ∈ Stmt.declaredAll l) :
    (d, .binder (flags.headD false)) ∈ Stmt.sensesAll d flags l := by
  induction l with
  | nil => cases h
  | cons s l ih =>
    rcases List.mem_append.mp h with h | h
    · exact List.mem_append_left _ (Stmt.binder_mem_senses h)
    · exact List.mem_append_right _ (ih h)

section

variable (d : Token)

mutual

/-- The token of a local has a sense that is replaced. -/
theorem Stmt.binder_of_mem_locals (flags : List Bool) :
    ∀ s : Stmt, d ∈ s.locals → (d, .binder true) ∈ s.senses d flags
  | .block b, h => by
    rcases List.mem_append.mp h with h | h
    · have hd := Stmt.mem_variables.mp h
      rw [Stmt.senses, List.contains_iff_mem.mpr hd]
      exact Stmt.binder_mem_sensesAll hd
    · exact Stmt.binder_of_mem_localsAll _ b h
  | .branch c s none, h | .loop c s, h =>
    List.mem_append_right _ (Stmt.binder_of_mem_locals flags s h)
  | .branch c s (some a), h => by
    refine List.mem_append_right _ (List.mem_append.mpr ?_)
    exact (List.mem_append.mp h).imp (Stmt.binder_of_mem_locals flags s)
      (Stmt.binder_of_mem_locals flags a)
  | .function r, h => List.mem_cons_of_mem _ (Stmt.binder_of_mem_localsRoutine flags r h)
  | .classDecl n none ms, h => List.mem_cons_of_mem _ (Stmt.binder_of_mem_localsMethods _ ms h)
  | .classDecl n (some r) ms, h =>
    List.mem_cons_of_mem _ (List.mem_cons_of_mem _ (Stmt.binder_of_mem_localsMethods _ ms h))

theorem Stmt.binder_of_mem_localsAll (flags : List Bool) : ∀ l : List Stmt,
    d ∈ Stmt.localsAll l → (d, .binder true) ∈ Stmt.sensesAll d flags l
  | [], h => nomatch h
  | s :: l, h => List.mem_append.mpr <| (List.mem_append.mp h).imp
    (Stmt.binder_of_mem_locals flags s) (Stmt.binder_of_mem_localsAll flags l)

theorem Stmt.binder_of_mem_localsRoutine (flags : List Bool) : ∀ r : Routine Stmt,
    d ∈ Stmt.localsRoutine r → (d, .binder true) ∈ Stmt.sensesRoutine d flags r
  | ⟨n, params, body⟩, h => by
    rcases List.mem_append.mp h with h | h
    · have hd := Stmt.mem_variables.mp h
      rw [Stmt.sensesRoutine, List.contains_iff_mem.mpr hd]
      rcases List.mem_append.mp hd with hp | hb
      · obtain ⟨p, hmem, heq⟩ := List.mem_map.mp hp
        obtain rfl : p = d := congrArg Prod.fst heq
        exact List.mem_append_left _ (List.mem_map_of_mem hmem)
      · exact List.mem_append_right _ (Stmt.binder_mem_sensesAll hb)
    · exact List.mem_append_right _ (Stmt.binder_of_mem_localsAll _ body h)

theorem Stmt.binder_of_mem_localsMethods (flags : List Bool) : ∀ ms : List (Routine Stmt),
    d ∈ Stmt.localsMethods ms → (d, .binder true) ∈ Stmt.sensesMethods d flags ms
  | [], h => nomatch h
  | r :: ms, h => List.mem_cons_of_mem _ <| List.mem_append.mpr <| (List.mem_append.mp h).imp
    (Stmt.binder_of_mem_localsRoutine flags r) (Stmt.binder_of_mem_localsMethods flags ms)

end

end

/-! ## Where the name is replaced -/

/-- Where the tokens of a program are numbered by their lines, the numbers of those
that are replaced when `d` is renamed. -/
def Program.selects (d : Token) (p : Program) (i : Nat) : Bool :=
  (Stmt.sensesAll d [] p).any fun e => e.1.line == i && e.2.renames d e.1

/-- A token that occurs once is replaced if its sense says so. -/
theorem Program.selects_iff {d t : Token} {p : Program} {r : Sense}
    (hnodup : ((Stmt.tokensAll p).map Token.line).Nodup) (h : (t, r) ∈ Stmt.sensesAll d [] p) :
    p.selects d t.line = true ↔ r.renames d t = true := by
  rw [← Stmt.sensesAll_fst d [] p, List.map_map] at hnodup
  rw [Program.selects, List.any_eq_true]
  constructor
  · rintro ⟨e, he, heq⟩
    rw [Bool.and_eq_true, beq_iff_eq] at heq
    obtain rfl : e = (t, r) := List.inj_on_of_nodup_map hnodup he h heq.1
    exact heq.2
  · exact fun hr => ⟨_, h, by simp [hr]⟩

theorem Program.exists_of_selects {d : Token} {p : Program} {i : Nat} (h : p.selects d i = true) :
    ∃ t r, (t, r) ∈ Stmt.sensesAll d [] p ∧ t.line = i ∧ t.lexeme = d.lexeme := by
  obtain ⟨⟨t, r⟩, hmem, heq⟩ := List.any_eq_true.mp h
  rw [Bool.and_eq_true, beq_iff_eq] at heq
  refine ⟨t, r, hmem, heq.1, ?_⟩
  unfold Sense.renames at heq
  split at heq
  · exact eq_of_beq heq.2
  · exact congrArg Token.lexeme (eq_of_beq heq.2)
  · cases heq.2

end Treewalk
