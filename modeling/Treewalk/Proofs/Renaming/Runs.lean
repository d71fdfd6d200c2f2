import Treewalk.Proofs.Lockstep.Evaluation
import Treewalk.Proofs.Renaming.Scopes
import Treewalk.Proofs.Scoping.Tagged

/-!
# Runs of a renamed program

A program and the renamed program run in step (`Renaming.runs`). Each scope that the runs
make has a flag, which says whether it is a scope of the renamed variable; there the two
names are exchanged, and all other scopes are the same (`Renaming.Tables`). The
surroundings of a piece of code are the flags of the scopes around it. Code that was there
before the program runs as it did, in scopes without a flag.
-/

namespace Treewalk

namespace Renaming

variable {R : Renaming}

/-- A name in both runs; `hit` says whether it is looked up in a scope of the renamed
variable. -/
inductive Renames (R : Renaming) : Bool → Token → Token → Prop
  | apart (t : Token) : Renames R false t t
  | other {t : Token} : t.lexeme ≠ R.old → t.lexeme ≠ R.new → Renames R true t t
  | replaced {t : Token} : t.lexeme = R.old → R.occurs t → Renames R true t { t with lexeme := R.new }

/-- The same diagnostic, but for the new name at a token that was replaced. -/
inductive Faults (R : Renaming) : Diagnostic → Diagnostic → Prop
  | same (d : Diagnostic) : Faults R d d
  | undefined {t : Token} : t.lexeme = R.old → R.occurs t →
    Faults R (Scopes.undefined t) (Scopes.undefined { t with lexeme := R.new })
  | superclass {t : Token} : t.lexeme = R.old → R.occurs t →
    Faults R (.runtime t .superclassNotClass) (.runtime { t with lexeme := R.new } .superclassNotClass)

theorem Renames.lexeme_eq {hit : Bool} {t t' : Token} (h : R.Renames hit t t') :
    t'.lexeme = R.key hit t.lexeme := by
  cases h with
  | apart => rfl
  | other hold hnew => exact (Equiv.swap_apply_of_ne_of_ne hold hnew).symm
  | replaced hold _ => simp [key, hold]

theorem Renames.undefined {hit : Bool} {t t' : Token} (h : R.Renames hit t t') :
    R.Faults (Scopes.undefined t) (Scopes.undefined t') := by
  cases h with
  | apart | other => exact .same _
  | replaced hold hocc => exact .undefined hold hocc

theorem Renames.superclass {hit : Bool} {t t' : Token} (h : R.Renames hit t t') :
    R.Faults (.runtime t .superclassNotClass) (.runtime t' .superclassNotClass) := by
  cases h with
  | apart | other => exact .same _
  | replaced hold hocc => exact .superclass hold hocc

/-- The name `this` is not renamed. -/
theorem Proper.renames_this (h : R.Proper) (hit : Bool) (line : Nat) :
    R.Renames hit (.named "this" line) (.named "this" line) := by
  cases hit with
  | false => exact .apart _
  | true => exact .other (Ne.symm h.old_ne_this) (Ne.symm h.new_ne_this)

/-! ## Tables of scopes -/

/-- The scopes of both runs: where the flag is set, the two names are exchanged. -/
structure Tables (R : Renaming) (flags : ScopeId → Bool) (σ σ' : Scopes) : Prop where
  rooted : σ.Rooted
  global : flags Machine.globals = false
  next : σ'.next = σ.next
  parent : ∀ id, σ'.parent? id = σ.parent? id
  value : ∀ id name, σ'.value? id name = σ.value? id (R.key (flags id) name)

namespace Tables

variable {flags : ScopeId → Bool} {σ σ' : Scopes}

theorem refl (hr : σ.Rooted) : R.Tables (fun _ => false) σ σ :=
  ⟨hr, rfl, rfl, fun _ => rfl, fun _ _ => rfl⟩

/-- A new scope may have any flag, since nothing is bound in it. -/
theorem push (h : R.Tables flags σ σ') (parent : Option ScopeId) (hit : Bool) :
    R.Tables (Function.update flags σ.next hit) (σ.push parent) (σ'.push parent) where
  rooted := h.rooted.mono (σ.grows_push parent)
  global := by rw [Function.update_of_ne (Nat.ne_of_lt h.rooted.pos), h.global]
  next := by rw [Scopes.next_push, Scopes.next_push, h.next]
  parent id := by rw [Scopes.parent?_push, Scopes.parent?_push, h.next, h.parent]
  value id name := by
    rw [Scopes.value?_push, Scopes.value?_push]
    by_cases hid : id = σ.next
    · have hle : σ.next ≤ id := Nat.le_of_eq hid.symm
      rw [Scopes.value?_of_next_le hle, Scopes.value?_of_next_le (h.next ▸ hle)]
    · rw [Function.update_of_ne hid, h.value]

theorem define (h : R.Tables flags σ σ') {id : ScopeId} (hlt : id < σ.next) {name name' : String}
    (hname : name' = R.key (flags id) name) (v : Value) :
    R.Tables flags (σ.define id name v) (σ'.define id name' v) where
  rooted := h.rooted.mono (Scopes.grows_define hlt name v)
  global := h.global
  next := by rw [Scopes.next_define, Scopes.next_define, h.next]
  parent other := by rw [Scopes.parent?_define, Scopes.parent?_define, h.parent]
  value other key := by
    rw [Scopes.value?_define hlt, Scopes.value?_define (h.next ▸ hlt), h.value, hname]
    by_cases ho : id = other
    · subst ho
      simp only [true_and, key_eq_iff]
    · simp only [ho, false_and, if_false]

theorem bindAll (h : R.Tables flags σ σ') {id : ScopeId} (hlt : id < σ.next) {ps ps' : List Token}
    (hps : List.Forall₂ (R.Renames (flags id)) ps ps') (args : List Value) :
    R.Tables flags (σ.bindAll id (ps.zip args)) (σ'.bindAll id (ps'.zip args)) := by
  induction hps generalizing σ σ' args with
  | nil => exact h
  | cons hp _ ih =>
    cases args with
    | nil => exact h
    | cons v args => exact ih (h.define hlt hp.lexeme_eq v) (by rwa [Scopes.next_define]) args

theorem ancestor? (h : R.Tables flags σ σ') (id : ScopeId) (d : Nat) :
    σ'.ancestor? id d = σ.ancestor? id d := by
  induction d generalizing id with
  | zero => rfl
  | succ d ih => simp only [Scopes.ancestor?, h.parent, ih]

theorem binds (h : R.Tables flags σ σ') {id : ScopeId} {name name' : String}
    (hname : name' = R.key (flags id) name) : σ'.binds id name' = σ.binds id name := by
  rw [Scopes.binds, Scopes.binds, h.value, hname, key_key]

theorem rooted' (h : R.Tables flags σ σ') : σ'.Rooted :=
  ⟨h.next ▸ h.rooted.pos, (h.parent _).trans h.rooted.parent⟩

/-- The flag at a distance is the flag of the scope there. -/
theorem flag_ancestor (h : R.Tables flags σ σ') {id a : ScopeId} {chain : List ScopeId}
    (hc : σ.Chain id chain) {d : Nat} (ha : σ.ancestor? id d = some a) :
    hitAt (chain.map flags) (some d) = flags a := by
  induction hc generalizing d with
  | globals =>
    cases d with
    | zero =>
      obtain rfl : Machine.globals = a := Option.some.inj ha
      exact h.global.symm
    | succ d => rw [Scopes.ancestor?, h.rooted.parent] at ha; cases ha
  | link _ hp _ ih =>
    cases d with
    | zero => exact congrArg flags (Option.some.inj ha)
    | succ d =>
      rw [Scopes.ancestor?, hp] at ha
      exact ih ha

/-- A name is found in the same scope in both runs. -/
theorem target? (h : R.Tables flags σ σ') {s : ScopeId} {chain : List ScopeId}
    (hc : σ.Chain s chain) {d : Option Nat} {t t' : Token}
    (ht : R.Renames (hitAt (chain.map flags) d) t t') :
    σ'.target? s d t'.lexeme = σ.target? s d t.lexeme ∧
      ∀ id, σ.target? s d t.lexeme = some id → t'.lexeme = R.key (flags id) t.lexeme := by
  have hspell := ht.lexeme_eq
  cases d with
  | some d =>
    simp only [Scopes.target?, Scopes.ownerAt?, h.ancestor?]
    cases ha : σ.ancestor? s d with
    | none => exact ⟨rfl, fun _ hid => by cases hid⟩
    | some a =>
      rw [h.flag_ancestor hc ha] at hspell
      refine ⟨?_, fun id hid => ?_⟩
      · simp only [Option.filter_some, h.binds hspell]
      · obtain rfl := Option.some.inj (Option.filter_eq_some_iff.mp hid).1
        exact hspell
  | none =>
    have hglobal : t'.lexeme = R.key (flags Machine.globals) t.lexeme := by
      rw [h.global]
      exact hspell
    simp only [Scopes.target?, h.rooted.owner?, h.rooted'.owner?, h.binds hglobal, true_and]
    intro id hid
    split at hid
    · obtain rfl := Option.some.inj hid
      exact hglobal
    · cases hid

end Tables

/-! ## Code -/

/-- A token in both runs: `f` gives it as it was, `g` as it is written now. -/
def Fits (R : Renaming) (f g : Token → Token) : Token × Sense → Prop
  | (t, .fixed) => g t = f t
  | (t, .keyword hit) | (t, .definition hit) => g t = f t ∧ R.Renames hit (f t) (g t)
  | (t, .reference hit) | (t, .binder hit) => R.Renames hit (f t) (g t)

theorem Fits.renames {f g : Token → Token} {t : Token} {r : Sense} (h : R.Fits f g (t, r)) :
    R.Renames r.hit (f t) (g t) := by
  cases r with
  | fixed =>
    rw [show g t = f t from h]
    exact .apart _
  | keyword | definition => exact h.2
  | reference | binder => exact h

theorem Fits.writes {f g : Token → Token} (hf : ∀ t, (f t).lexeme = t.lexeme) {p : Token × Sense}
    (h : R.Fits f g p) (hne : p.1.lexeme ≠ R.new) : R.Writes g p := by
  refine ⟨hne, ?_⟩
  rw [h.renames.lexeme_eq, hf]

/-- No scope has a flag. -/
def Plain (κ : List Bool) : Prop :=
  ∀ hit ∈ κ, hit = false

/-- Code of the program beside code of the renamed program, in scopes with these flags,
or other code beside itself. The variable is declared by `d`. -/
def likeness (R : Renaming) (f g : Token → Token) (d : Token) : Likeness where
  Ctx := List Bool
  token _ t t' := t' = t
  names κ depth := R.Renames (hitAt κ depth)
  expr κ e e' := (Plain κ ∧ e' = e) ∨
    ∃ e₀, e = Expr.map f e₀ ∧ e' = e₀.map g ∧ ∀ p ∈ e₀.senses κ, R.Fits f g p
  stmt κ s s' κ' := κ' = κ ∧ ((Plain κ ∧ s' = s) ∨
    ∃ s₀, s = Stmt.map f s₀ ∧ s' = s₀.map g ∧ ∀ p ∈ s₀.senses d κ, R.Fits f g p)
  declares κ n n' κ' := κ' = κ ∧ R.Renames (κ.headD false) n n'
  opens κ κ₀ := ∃ hit, κ₀ = hit :: κ
  enters κ ps ps' κ₀ := ∃ hit, κ₀ = hit :: κ ∧ List.Forall₂ (R.Renames hit) ps ps'
  receives κ := false :: κ
  inherits κ := false :: κ

variable {f g : Token → Token} {d : Token} {κ : List Bool}

theorem Plain.cons (h : Plain κ) : Plain (false :: κ) :=
  List.forall_mem_cons.mpr ⟨rfl, h⟩

theorem plain_map_false (chain : List ScopeId) : Plain (chain.map fun _ => false) := by
  intro hit hmem
  obtain ⟨_, _, rfl⟩ := List.mem_map.mp hmem
  rfl

theorem Plain.headD (h : Plain κ) : κ.headD false = false := by
  cases κ with
  | nil => rfl
  | cons hit κ => exact h hit List.mem_cons_self

theorem Plain.hitAt (h : Plain κ) (depth : Option Nat) : hitAt κ depth = false := by
  cases depth with
  | none => rfl
  | some i =>
    rw [Treewalk.hitAt, List.getD_eq_getElem?_getD]
    cases hi : κ[i]? with
    | none => rfl
    | some hit => exact h hit (List.mem_of_getElem? hi)

theorem Plain.renames (h : Plain κ) (depth : Option Nat) (t : Token) :
    R.Renames (Treewalk.hitAt κ depth) t t := by
  rw [h.hitAt]
  exact .apart t

theorem Plain.declares (h : Plain κ) (t : Token) : (R.likeness f g d).declares κ t t κ := by
  refine ⟨rfl, ?_⟩
  rw [h.headD]
  exact .apart t

/-! Other code stays as it is. -/

theorem Plain.exprParts (h : Plain κ) (e : Expr) : (R.likeness f g d).ExprParts κ e e := by
  have part : ∀ e, (R.likeness f g d).expr κ e e := fun _ => .inl ⟨h, rfl⟩
  have ref : ∀ r, (R.likeness f g d).Ref κ r r := fun r => ⟨rfl, h.renames _ _⟩
  cases e with
  | literal v => exact .literal v
  | group e => exact .group (part e)
  | unary op e => exact .unary rfl (part e)
  | binary op a b => exact .binary rfl (part a) (part b)
  | logical op a b => exact .logical rfl (part a) (part b)
  | var r => exact .var (ref r)
  | assign r e => exact .assign (ref r) (part e)
  | call callee p args => exact .call (part callee) rfl (List.forall₂_same.mpr fun a _ => part a)
  | get o n => exact .get (part o) rfl
  | set o n v => exact .set (part o) rfl (part v)
  | receiver k => exact .receiver (ref k)
  | inherited k m => exact .inherited (ref k) rfl (fun _ _ => h.renames _ _) rfl

theorem Plain.stmts (h : Plain κ) (l : List Stmt) : (R.likeness f g d).Stmts κ l l := by
  induction l with
  | nil => exact .nil
  | cons s l ih => exact .cons ⟨rfl, .inl ⟨h, rfl⟩⟩ ih

theorem Plain.routines (h : Plain κ) (r : Routine Stmt) : (R.likeness f g d).Routines κ r r :=
  ⟨rfl, false :: κ, ⟨false, rfl, List.forall₂_same.mpr fun p _ => .apart p⟩, h.cons.stmts r.body⟩

theorem Plain.stmtParts (h : Plain κ) (s : Stmt) : (R.likeness f g d).StmtParts κ s s κ := by
  have part : ∀ e, (R.likeness f g d).expr κ e e := fun _ => .inl ⟨h, rfl⟩
  have part? : ∀ e, Option.Rel ((R.likeness f g d).expr κ) e e := by
    rintro (_ | e)
    · exact .none
    · exact .some (part e)
  have sub : ∀ s, (R.likeness f g d).stmt κ s s κ := fun _ => ⟨rfl, .inl ⟨h, rfl⟩⟩
  match s with
  | .expression e => exact .expression (part e)
  | .print e => exact .print (part e)
  | .declare n e => exact .declare (part? e) (h.declares n)
  | .block b => exact .block ⟨false, rfl⟩ (h.cons.stmts b)
  | .branch c s none => exact .branch (part c) (sub s) .none
  | .branch c s (some a) => exact .branch (part c) (sub s) (.some (sub a))
  | .loop c s => exact .loop (part c) (sub s)
  | .function r => exact .function (h.declares r.name) (h.routines r)
  | .leave k e => exact .leave (part? e)
  | .classDecl n none ms =>
    exact .base rfl (h.declares n) (List.forall₂_same.mpr fun m _ => h.cons.routines m)
  | .classDecl n (some r) ms =>
    exact .derived rfl ⟨rfl, h.renames _ _⟩ (h.declares n)
      (List.forall₂_same.mpr fun m _ => h.cons.cons.routines m)

/-! Code of the program is renamed. -/

theorem exprs_fits : ∀ {es : List Expr}, (∀ p ∈ Expr.sensesAll κ es, R.Fits f g p) →
    List.Forall₂ ((R.likeness f g d).expr κ) (Expr.mapAll f es) (Expr.mapAll g es)
  | [], _ => .nil
  | e :: _, h =>
    have h := List.forall_mem_append.mp h
    .cons (.inr ⟨e, rfl, rfl, h.1⟩) (exprs_fits h.2)

theorem expr?_fits {e : Option Expr} (h : ∀ p ∈ Expr.senses? κ e, R.Fits f g p) :
    Option.Rel ((R.likeness f g d).expr κ) (e.map (Expr.map f)) (e.map (Expr.map g)) := by
  cases e with
  | none => exact .none
  | some e => exact .some (.inr ⟨e, rfl, rfl, h⟩)

theorem exprParts_fits (hR : R.Proper) {e : Expr} (h : ∀ p ∈ e.senses κ, R.Fits f g p) :
    (R.likeness f g d).ExprParts κ (e.map f) (e.map g) := by
  have part : ∀ {e : Expr}, (∀ p ∈ e.senses κ, R.Fits f g p) →
      (R.likeness f g d).expr κ (e.map f) (e.map g) := fun {e} he => .inr ⟨e, rfl, rfl, he⟩
  cases e with
  | literal v => exact .literal v
  | group e => exact .group (part h)
  | unary op e =>
    obtain ⟨hop, he⟩ := List.forall_mem_cons.mp h
    exact .unary hop (part he)
  | binary op a b =>
    simp only [Expr.senses, List.forall_mem_cons, List.forall_mem_append] at h
    exact .binary h.1 (part h.2.1) (part h.2.2)
  | logical op a b =>
    simp only [Expr.senses, List.forall_mem_cons, List.forall_mem_append] at h
    exact .logical h.1 (part h.2.1) (part h.2.2)
  | var r => exact .var ⟨rfl, h _ (List.mem_singleton_self _)⟩
  | assign r v =>
    obtain ⟨hr, hv⟩ := List.forall_mem_cons.mp h
    exact .assign ⟨rfl, hr⟩ (part hv)
  | call callee p args =>
    simp only [Expr.senses, List.forall_mem_cons, List.forall_mem_append] at h
    exact .call (part h.2.1) h.1 (exprs_fits h.2.2)
  | get o n =>
    obtain ⟨hn, ho⟩ := List.forall_mem_cons.mp h
    exact .get (part ho) hn
  | set o n v =>
    simp only [Expr.senses, List.forall_mem_cons, List.forall_mem_append] at h
    exact .set (part h.2.1) h.1 (part h.2.2)
  | receiver k => exact .receiver ⟨rfl, (h _ (List.mem_singleton_self _)).2⟩
  | inherited k m =>
    simp only [Expr.senses, List.forall_mem_cons] at h
    obtain ⟨⟨hsame, hk⟩, hm, _⟩ := h
    refine .inherited ⟨rfl, hk⟩ hsame (fun depth _ => ?_) hm
    simp only [Reference.map, hsame]
    exact hR.renames_this _ _

theorem stmts_fits : ∀ {l : List Stmt}, (∀ p ∈ Stmt.sensesAll d κ l, R.Fits f g p) →
    (R.likeness f g d).Stmts κ (Stmt.mapAll f l) (Stmt.mapAll g l)
  | [], _ => .nil
  | s :: _, h =>
    have h := List.forall_mem_append.mp h
    .cons ⟨rfl, .inr ⟨s, rfl, rfl, h.1⟩⟩ (stmts_fits h.2)

theorem routines_fits {r : Routine Stmt} (hname : g r.name = f r.name)
    (h : ∀ p ∈ Stmt.sensesRoutine d κ r, R.Fits f g p) :
    (R.likeness f g d).Routines κ (Stmt.mapRoutine f r) (Stmt.mapRoutine g r) := by
  obtain ⟨name, params, body⟩ := r
  obtain ⟨hps, hb⟩ := List.forall_mem_append.mp h
  refine ⟨hname, _, ⟨_, rfl, ?_⟩, stmts_fits hb⟩
  simp only [Stmt.mapRoutine]
  rw [List.forall₂_map_left_iff, List.forall₂_map_right_iff, List.forall₂_same]
  exact fun p hp => hps _ (List.mem_map_of_mem hp)

theorem methods_fits : ∀ {ms : List (Routine Stmt)},
    (∀ p ∈ Stmt.sensesMethods d κ ms, R.Fits f g p) →
    List.Forall₂ ((R.likeness f g d).Routines κ) (Stmt.mapMethods f ms) (Stmt.mapMethods g ms)
  | [], _ => .nil
  | _ :: _, h =>
    have h := List.forall_mem_cons.mp h
    have hms := List.forall_mem_append.mp h.2
    .cons (routines_fits h.1 hms.1) (methods_fits hms.2)

theorem stmtParts_fits {s : Stmt} (h : ∀ p ∈ s.senses d κ, R.Fits f g p) :
    (R.likeness f g d).StmtParts κ (s.map f) (s.map g) κ := by
  have part : ∀ {e : Expr}, (∀ p ∈ e.senses κ, R.Fits f g p) →
      (R.likeness f g d).expr κ (e.map f) (e.map g) := fun {e} he => .inr ⟨e, rfl, rfl, he⟩
  have sub : ∀ {s : Stmt}, (∀ p ∈ s.senses d κ, R.Fits f g p) →
      (R.likeness f g d).stmt κ (s.map f) (s.map g) κ :=
    fun {s} hs => ⟨rfl, .inr ⟨s, rfl, rfl, hs⟩⟩
  match s with
  | .expression e => exact .expression (part h)
  | .print e => exact .print (part h)
  | .declare n e =>
    obtain ⟨hn, he⟩ := List.forall_mem_cons.mp h
    exact .declare (expr?_fits he) ⟨rfl, hn⟩
  | .block b => exact .block ⟨_, rfl⟩ (stmts_fits h)
  | .branch c s none =>
    simp only [Stmt.senses, List.forall_mem_append] at h
    exact .branch (part h.1) (sub h.2) .none
  | .branch c s (some a) =>
    simp only [Stmt.senses, List.forall_mem_append] at h
    exact .branch (part h.1) (sub h.2.1) (.some (sub h.2.2))
  | .loop c s =>
    simp only [Stmt.senses, List.forall_mem_append] at h
    exact .loop (part h.1) (sub h.2)
  | .function ⟨name, params, body⟩ =>
    obtain ⟨hn, hr⟩ := List.forall_mem_cons.mp h
    exact .function ⟨rfl, hn.2⟩ (routines_fits hn.1 hr)
  | .leave k e => exact .leave (expr?_fits (List.forall_mem_cons.mp h).2)
  | .classDecl n none ms =>
    obtain ⟨hn, hms⟩ := List.forall_mem_cons.mp h
    exact .base hn.1 ⟨rfl, hn.2⟩ (methods_fits hms)
  | .classDecl n (some r) ms =>
    simp only [Stmt.senses, List.forall_mem_cons] at h
    exact .derived h.1.1 ⟨rfl, h.2.1⟩ ⟨rfl, h.1.2⟩ (methods_fits h.2.2)

/-! ## Both runs in step -/

theorem parts_of_likeness (hR : R.Proper) {e e' : Expr} (h : (R.likeness f g d).expr κ e e') :
    (R.likeness f g d).ExprParts κ e e' := by
  rcases h with ⟨h, rfl⟩ | ⟨e₀, rfl, rfl, h⟩
  · exact h.exprParts e'
  · exact exprParts_fits hR h

theorem faults_token {t t' : Token} (h : (R.likeness f g d).token κ t t') (fault : RuntimeFault) :
    R.Faults (.runtime t fault) (.runtime t' fault) := by
  rw [show t' = t from h]
  exact .same _

/-- Runs of a program and of the renamed program. -/
def runs (R : Renaming) (hR : R.Proper) (f g : Token → Token) (d : Token) : Correspondence where
  toLikeness := R.likeness f g d
  World := Tagged Bool
  le := Tagged.Le
  le_refl := Tagged.Le.refl
  le_trans := Tagged.Le.trans
  fault := R.Faults
  stands := Tagged.Stands
  scopes w σ σ' := σ = w.scopes ∧ R.Tables w.tags w.scopes σ'
  kind_eq h := congrArg Token.kind (Eq.symm h)
  lexeme_eq h := congrArg Token.lexeme (Eq.symm h)
  fault_token _ h := faults_token h _
  fault_unary := by
    rintro κ _ op op' e e' v f h rfl _
    exact faults_token (parts_of_likeness hR h).unary_token _
  fault_binary := by
    rintro κ _ op op' a a' b b' u v f h rfl _
    exact faults_token (parts_of_likeness hR h).binary_token _
  fault_channel _ := .same _
  fault_superclass h := h.superclass
  names_this := by
    rintro t _ κ rfl
    exact .apart _
  expr_parts := parts_of_likeness hR
  stmt_parts := by
    rintro κ _ s s' ⟨rfl, ⟨h, rfl⟩ | ⟨s₀, rfl, rfl, h⟩⟩
    · exact h.stmtParts s'
    · exact stmtParts_fits h
  length_eq := by
    rintro κ _ ps ps' ⟨hit, rfl, h⟩
    exact h.length_eq
  stands_mono h hs := hs.mono h
  next_eq := by
    rintro w _ σ' ⟨rfl, h⟩
    exact h.next.symm
  find := by
    rintro w _ σ' _ s depth t t' ⟨rfl, h⟩ ⟨chain, hc, rfl⟩ ht
    obtain ⟨htarget, hspell⟩ := h.target? hc ht
    rw [Scopes.find_eq, Scopes.find_eq, htarget]
    refine .valueOf ?_ ht.undefined
    cases hid : w.scopes.target? s depth t.lexeme with
    | none => rfl
    | some id => simp only [Option.bind_some, h.value, hspell id hid, key_key]
  inherited := by
    rintro w σ σ' κ s _ k k' m m' _ _ h rfl
    exact .inl (faults_token (parts_of_likeness hR h).inherited_token _)
  assign := by
    rintro w _ σ' _ s _ r r' e e' v ⟨rfl, h⟩ ⟨chain, hc, rfl⟩ he rfl
    obtain ⟨hd, ht⟩ := (parts_of_likeness hR he).assign_ref
    obtain ⟨htarget, hspell⟩ := h.target? hc ht
    rw [← hd, htarget]
    cases hid : w.scopes.target? s r.depth r.name.lexeme with
    | none => exact .inr ⟨rfl, rfl, ht.undefined⟩
    | some id =>
      have hlt := Scopes.target?_lt_next hid
      exact .inl ⟨id, id, _, rfl, rfl, Tagged.le_define hlt _ v, rfl, h.define hlt (hspell id hid) v⟩
  define := by
    rintro w _ σ' κ _ s n n' v ⟨rfl, h⟩ hs ⟨rfl, hn⟩
    rw [hs.headD h.global] at hn
    have hlt := hs.lt_next h.rooted
    have hle := Tagged.le_define hlt n.lexeme v
    exact ⟨_, hle, ⟨rfl, h.define hlt hn.lexeme_eq v⟩, hs.mono hle⟩
  block := by
    rintro w _ σ' κ _ s ⟨rfl, h⟩ hs ⟨hit, rfl⟩
    exact ⟨_, Tagged.le_push s hit, ⟨rfl, h.push _ hit⟩, hs.push h.rooted hit⟩
  call := by
    rintro w _ σ' κ _ s ps ps' args ⟨rfl, h⟩ hs ⟨hit, rfl, hps⟩ _
    have hlt := w.lt_next_push s hit
    have hle := Tagged.le_bindAll hlt (ps.zip args)
    rw [← w.tags_push_next s hit] at hps
    rw [h.next]
    exact ⟨_, (Tagged.le_push s hit).trans hle, ⟨rfl, (h.push _ hit).bindAll hlt hps args⟩,
      (hs.push h.rooted hit).mono hle⟩
  attach := by
    rintro w _ σ' κ s o ⟨rfl, h⟩ hs
    have hlt := w.lt_next_push s false
    have hle := Tagged.le_define hlt "this" (.object o)
    have hname : "this" = R.key ((w.push s false).tags w.scopes.next) "this" := by simp
    rw [h.next]
    exact ⟨_, (Tagged.le_push s false).trans hle, ⟨rfl, (h.push _ false).define hlt hname _⟩,
      (hs.push h.rooted false).mono hle⟩
  derive := by
    rintro w _ σ' κ _ s n n' c v ⟨rfl, h⟩ hs ⟨rfl, hn⟩
    have hpush := Tagged.le_push (w := w) s false
    have hlt := w.lt_next_push s false
    have hle := Tagged.le_define hlt "super" (.cls c)
    have hname : "super" = R.key ((w.push s false).tags w.scopes.next) "super" := by simp
    have hsuper := (h.push (some s) false).define hlt hname (.cls c)
    -- the scope of the class is older than that of `super`
    have hs' := hs.mono (hpush.trans hle)
    rw [hs'.headD hsuper.global] at hn
    have hlt' := hs'.lt_next hsuper.rooted
    have hle' := Tagged.le_define hlt' n.lexeme v
    rw [h.next]
    exact ⟨_, (hpush.trans hle).trans hle', ⟨rfl, hsuper.define hlt' hn.lexeme_eq v⟩, hs'.mono hle',
      (hs.push h.rooted false).mono (hle.trans hle')⟩

/-- Scopes without flags, and code that is as it was. -/
theorem machines_refl {hR : R.Proper} {m : Machine} (hr : m.store.scopes.Rooted)
    (hfunctions : ∀ id : FunctionId, ∀ f ∈ m.store.functions[id]?,
      ∃ chain, m.store.scopes.Chain f.scope chain)
    (hmethods : ∀ id : ClassId, ∀ c ∈ m.store.classes[id]?, ∀ p ∈ c.methods.entries,
      ∃ chain, m.store.scopes.Chain p.2.scope chain) :
    (R.runs hR f g d).Machines ⟨m.store.scopes, fun _ => false⟩ m.scope m m := by
  refine .self ⟨rfl, .refl hr⟩ (fun id f hf => ?_) (fun id c hc p hp => ?_)
  · obtain ⟨chain, hchain⟩ := hfunctions id f hf
    have hplain := plain_map_false chain
    exact ⟨rfl, rfl, _, ⟨chain, hchain, rfl⟩, hplain.routines _, fun _ => hplain.renames _ _⟩
  · obtain ⟨chain, hchain⟩ := hmethods id c hc p hp
    exact ⟨rfl, rfl, _, ⟨chain, hchain, rfl⟩, (plain_map_false chain).cons.routines _⟩

end Renaming

end Treewalk
