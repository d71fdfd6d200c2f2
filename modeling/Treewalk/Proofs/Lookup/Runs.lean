import Treewalk.Proofs.Lockstep.Diagonal
import Treewalk.Proofs.Lookup.Labels
import Treewalk.Proofs.Scoping.Tagged

/-!
# Runs of located programs

While a located program runs, each scope binds only names of its label (`Bounded`), and the
labels along the chain of the current scope are those around the running node. This is kept
as a correspondence of the run with itself (`locatedRuns`). A name is then found along the
whole chain exactly if it is found at its recorded distance (`Bounded.owner?_eq`).
-/

namespace Treewalk

open Resolver

/-! ## Searching a chain -/

/-- A search that can only end at one place looks there. -/
theorem find?_eq_filter_getElem? {α : Type} {p : α → Bool} {l : List α} {d : Nat}
    (h : ∀ i a, l[i]? = some a → p a = true → i = d) : l.find? p = (l[d]?).filter p := by
  cases hd : (l[d]?).filter p with
  | some a =>
    obtain ⟨ha, hp⟩ := Option.filter_eq_some_iff.mp hd
    obtain ⟨hlt, rfl⟩ := List.getElem?_eq_some_iff.mp ha
    refine List.find?_eq_some_iff_getElem.mpr ⟨hp, d, hlt, rfl, fun j hj => ?_⟩
    have hjlt : j < l.length := Nat.lt_trans hj hlt
    rw [Bool.not_eq_true']
    exact Bool.eq_false_iff.mpr fun hpj =>
      Nat.ne_of_lt hj (h j _ (List.getElem?_eq_getElem hjlt) hpj)
  | none =>
    refine List.find?_eq_none.mpr fun a ha hp => ?_
    obtain ⟨i, hlt, rfl⟩ := List.getElem_of_mem ha
    have hi := List.getElem?_eq_getElem hlt
    obtain rfl := h i _ hi hp
    rw [hi, Option.filter_some, if_pos hp] at hd
    cases hd

namespace Scopes

variable {σ : Scopes} {id : ScopeId} {chain : List ScopeId}

/-- Scopes are made inside older ones. -/
def Older (σ : Scopes) : Prop :=
  ∀ id p, σ.parent? id = some p → p < id

/-- The search outward goes along the chain and then to the globals. -/
theorem Chain.ownerWithin_eq (hr : σ.Rooted) (ho : σ.Older) (hc : σ.Chain id chain) (name : String)
    {steps : Nat} (hlt : id < steps) :
    σ.ownerWithin name steps id = (chain ++ [Machine.globals]).find? (σ.binds · name) := by
  induction hc generalizing steps with
  | globals =>
    obtain ⟨n, rfl⟩ := Nat.exists_eq_succ_of_ne_zero (Nat.ne_of_gt (Nat.zero_lt_of_lt hlt))
    rw [ownerWithin, hr.parent, List.nil_append, List.find?_singleton]
    rfl
  | @link id parent rest _ hp _ ih =>
    obtain ⟨n, rfl⟩ := Nat.exists_eq_succ_of_ne_zero (Nat.ne_of_gt (Nat.zero_lt_of_lt hlt))
    rw [ownerWithin, hp, Option.bind_some,
      ih (Nat.lt_of_lt_of_le (ho id parent hp) (Nat.le_of_lt_succ hlt)), List.cons_append,
      List.find?_cons]
    cases σ.binds id name <;> rfl

theorem Chain.owner?_eq (hr : σ.Rooted) (ho : σ.Older) (hc : σ.Chain id chain) (name : String) :
    σ.owner? id name = (chain ++ [Machine.globals]).find? (σ.binds · name) :=
  hc.ownerWithin_eq hr ho name (hc.lt_next hr)

/-- The scope at a distance, past the chain the globals. -/
theorem Chain.ancestor?_eq (hr : σ.Rooted) (hc : σ.Chain id chain) (d : Nat) :
    σ.ancestor? id d = (chain ++ [Machine.globals])[d]? := by
  induction hc generalizing d with
  | globals =>
    cases d with
    | zero => rfl
    | succ d => rw [Scopes.ancestor?, hr.parent]; rfl
  | link _ hp _ ih =>
    cases d with
    | zero => rfl
    | succ d => rw [Scopes.ancestor?, hp, Option.bind_some, ih]; rfl

end Scopes

/-! ## Scopes and their labels -/

/-- Each scope binds only names of its label, besides `this` and `super`. -/
structure Bounded (G : List String) (w : Tagged (List String)) : Prop where
  rooted : w.scopes.Rooted
  older : w.scopes.Older
  global : w.tags Machine.globals = G
  binds : ∀ id name, w.scopes.binds id name = true → name ∈ w.tags id ∨ Implicit name

namespace Bounded

variable {G : List String} {w : Tagged (List String)} {κ : List (List String)} {s : ScopeId}

theorem push (h : Bounded G w) (hs : s < w.scopes.next) (label : List String) :
    Bounded G (w.push s label) where
  rooted := h.rooted.mono (w.scopes.grows_push _)
  older id p hp := by
    simp only [Tagged.push, Scopes.parent?_push] at hp
    split at hp
    · rename_i heq
      cases hp
      exact heq ▸ hs
    · exact h.older id p hp
  global := by
    rw [← h.global]
    exact Function.update_of_ne (Nat.ne_of_lt h.rooted.pos) _ _
  binds id name hb := by
    simp only [Tagged.push, Scopes.binds, Scopes.value?_push] at hb
    have hlt := Scopes.lt_next_of_binds hb
    rw [show (w.push s label).tags id = w.tags id from
      Function.update_of_ne (Nat.ne_of_lt hlt) _ _]
    exact h.binds id name hb

theorem define (h : Bounded G w) (hs : s < w.scopes.next) {name : String}
    (hn : name ∈ w.tags s ∨ Implicit name) (v : Value) : Bounded G (w.define s name v) where
  rooted := h.rooted.mono (Scopes.grows_define hs name v)
  older id p hp := by
    simp only [Tagged.define, Scopes.parent?_define] at hp
    exact h.older id p hp
  global := h.global
  binds id key hb := by
    simp only [Tagged.define, Scopes.binds_define hs, Bool.or_eq_true, decide_eq_true_eq] at hb
    rcases hb with ⟨rfl, rfl⟩ | hb
    · exact hn
    · exact h.binds id key hb

theorem bindAll (h : Bounded G w) (hs : s < w.scopes.next) {ps : List Token}
    (hps : ∀ p ∈ ps, p.lexeme ∈ w.tags s) (args : List Value) :
    Bounded G ⟨w.scopes.bindAll s (ps.zip args), w.tags⟩ := by
  induction ps generalizing w args with
  | nil => exact h
  | cons p ps ih =>
    cases args with
    | nil => exact h
    | cons v args =>
      obtain ⟨hp, hps⟩ := List.forall_mem_cons.mp hps
      exact ih (h.define hs (.inl hp) v) (by simpa [Tagged.define] using hs) hps args

/-- A located name that is bound somewhere on the way out is bound at its distance. -/
theorem owner?_eq (h : Bounded G w) (hs : w.Stands κ s) {r : Reference} (hr : r.Located G κ) :
    w.scopes.owner? s r.name.lexeme = w.scopes.target? s r.depth r.name.lexeme := by
  obtain ⟨chain, hc, rfl⟩ := hs
  have hlocal : ∀ i a, chain[i]? = some a → w.scopes.binds a r.name.lexeme = true →
      r.depth = some i := by
    intro i a hi hb
    have hmem := (h.binds a _ hb).resolve_right hr.declared
    exact hr.unique i (w.tags a) (by rw [List.getElem?_map, hi]; rfl) hmem
  rw [hc.owner?_eq h.rooted h.older]
  cases hd : r.depth with
  | some d =>
    rw [Scopes.target?, Scopes.ownerAt?, hc.ancestor?_eq h.rooted]
    refine find?_eq_filter_getElem? fun i a hi hb => ?_
    rw [List.getElem?_append] at hi
    split at hi
    · exact Option.some.inj ((hlocal i a hi hb).symm.trans hd)
    · -- the globals do not bind a name that has a distance
      obtain rfl := List.mem_singleton.mp (List.mem_of_getElem? hi)
      have hmem := (h.binds _ _ hb).resolve_right hr.declared
      rw [h.global] at hmem
      rw [hr.global hmem] at hd
      cases hd
  | none =>
    have hnone : chain.find? (w.scopes.binds · r.name.lexeme) = none := by
      refine List.find?_eq_none.mpr fun a ha hb => ?_
      obtain ⟨i, hi⟩ := List.getElem?_of_mem ha
      rw [hlocal i a hi hb] at hd
      cases hd
    rw [Scopes.target?, h.rooted.owner?, List.find?_append, hnone, Option.none_or,
      List.find?_singleton]

end Bounded

/-! ## Code -/

/-- Located code beside itself, in scopes with these labels. -/
def locatedLikeness (G : List String) : Likeness where
  Ctx := List (List String)
  token _ t t' := t = t'
  names _ _ t t' := t = t'
  expr κ e e' := e = e' ∧ e.Located G κ
  stmt κ s s' κ' := κ = κ' ∧ s = s' ∧ s.Located G κ
  declares κ n n' κ' := κ = κ' ∧ n = n' ∧ n.lexeme ∈ κ.headD G
  opens κ κ₀ := ∃ label, κ₀ = label :: κ
  enters κ ps ps' κ₀ := ps = ps' ∧ ∃ label, κ₀ = label :: κ ∧ ∀ p ∈ ps, p.lexeme ∈ label
  receives κ := [] :: κ
  inherits κ := [] :: κ

section

variable {G : List String} {κ : List (List String)}

theorem exprs_located {es : List Expr} (h : Expr.LocatedAll G κ es) :
    List.Forall₂ ((locatedLikeness G).expr κ) es es := by
  induction es with
  | nil => exact .nil
  | cons e es ih => exact .cons ⟨rfl, h.1⟩ (ih h.2)

theorem expr?_located {e : Option Expr} (h : Expr.Located? G κ e) :
    Option.Rel ((locatedLikeness G).expr κ) e e := by
  cases e with
  | none => exact .none
  | some e => exact .some ⟨rfl, h⟩

theorem exprParts_located {e : Expr} (h : e.Located G κ) :
    (locatedLikeness G).ExprParts κ e e := by
  cases e with
  | literal v => exact .literal v
  | group e => exact .group ⟨rfl, h⟩
  | unary op e => exact .unary rfl ⟨rfl, h⟩
  | binary op a b => exact .binary rfl ⟨rfl, h.1⟩ ⟨rfl, h.2⟩
  | logical op a b => exact .logical rfl ⟨rfl, h.1⟩ ⟨rfl, h.2⟩
  | var r => exact .var ⟨rfl, rfl⟩
  | assign r e => exact .assign ⟨rfl, rfl⟩ ⟨rfl, h.2⟩
  | call f p args => exact .call ⟨rfl, h.1⟩ rfl (exprs_located h.2)
  | get o n => exact .get ⟨rfl, h⟩ rfl
  | set o n v => exact .set ⟨rfl, h.1⟩ rfl ⟨rfl, h.2⟩
  | receiver k => exact .receiver ⟨rfl, rfl⟩
  | inherited k m => exact .inherited ⟨rfl, rfl⟩ rfl (fun _ _ => rfl) rfl

theorem stmts_located {l : List Stmt} (h : Stmt.LocatedAll G κ l) :
    (locatedLikeness G).Stmts κ l l := by
  induction l with
  | nil => exact .nil
  | cons s l ih => exact .cons ⟨rfl, rfl, h.1⟩ (ih h.2)

theorem routine_located {r : Routine Stmt} (h : Stmt.LocatedRoutine G κ r) :
    (locatedLikeness G).Routines κ r r := by
  obtain ⟨name, params, body⟩ := r
  exact ⟨rfl, _, ⟨rfl, _, rfl, fun p hp => Stmt.mem_label_params hp body⟩, stmts_located h⟩

theorem methods_located {ms : List (Routine Stmt)} (h : Stmt.LocatedMethods G κ ms) :
    List.Forall₂ ((locatedLikeness G).Routines κ) ms ms := by
  induction ms with
  | nil => exact .nil
  | cons r ms ih => exact .cons (routine_located h.1) (ih h.2)

theorem stmtParts_located {s : Stmt} (h : s.Located G κ) :
    (locatedLikeness G).StmtParts κ s s κ := by
  match s with
  | .expression e => exact .expression ⟨rfl, h⟩
  | .print e => exact .print ⟨rfl, h⟩
  | .declare n e => exact .declare (expr?_located h.2) ⟨rfl, rfl, h.1⟩
  | .block b => exact .block ⟨_, rfl⟩ (stmts_located h)
  | .branch c s none => exact .branch ⟨rfl, h.1⟩ ⟨rfl, rfl, h.2⟩ .none
  | .branch c s (some a) => exact .branch ⟨rfl, h.1⟩ ⟨rfl, rfl, h.2.1⟩ (.some ⟨rfl, rfl, h.2.2⟩)
  | .loop c s => exact .loop ⟨rfl, h.1⟩ ⟨rfl, rfl, h.2⟩
  | .function r => exact .function ⟨rfl, rfl, h.1⟩ (routine_located h.2)
  | .leave k e => exact .leave (expr?_located h)
  | .classDecl n none ms => exact .base rfl ⟨rfl, rfl, h.1⟩ (methods_located h.2)
  | .classDecl n (some r) ms =>
    exact .derived rfl ⟨rfl, rfl⟩ ⟨rfl, rfl, h.1⟩ (methods_located h.2.2)

end

/-! ## A run beside itself -/

/-- A run of located code: scopes bind what is in their labels, and the labels around the
code are those of the chain. -/
def locatedRuns (G : List String) : Correspondence where
  toLikeness := locatedLikeness G
  World := Tagged (List String)
  le := Tagged.Le
  le_refl := Tagged.Le.refl
  le_trans := Tagged.Le.trans
  fault d d' := d = d'
  stands := Tagged.Stands
  scopes w σ σ' := w.scopes = σ ∧ σ = σ' ∧ Bounded G w
  kind_eq := congrArg Token.kind
  lexeme_eq := congrArg Token.lexeme
  fault_token _ h := by
    cases h
    rfl
  fault_channel f := id_eq (Diagnostic.channel f)
  fault_superclass h := by
    cases h
    rfl
  fault_unary := by
    rintro κ _ op op' e e' v f ⟨heq, _⟩ rfl _
    cases heq
    rfl
  fault_binary := by
    rintro κ _ op op' a a' b b' u v f ⟨heq, _⟩ rfl _
    cases heq
    rfl
  names_this _ h := by
    cases h
    rfl
  expr_parts := by
    rintro κ e _ ⟨rfl, h⟩
    exact exprParts_located h
  stmt_parts := by
    rintro κ _ s _ ⟨rfl, rfl, h⟩
    exact stmtParts_located h
  length_eq := by
    rintro κ κ₀ ps _ ⟨rfl, _⟩
    rfl
  stands_mono h hs := hs.mono h
  next_eq h := congrArg Scopes.next h.2.1
  find := by
    rintro w _ _ κ s d t _ ⟨rfl, rfl, _⟩ _ rfl
    exact .of_ok fun _ _ => rfl
  inherited := by
    rintro w σ σ' κ s _ k k' m m' _ _ ⟨heq, _⟩ rfl
    cases heq
    exact .inl rfl
  assign := by
    rintro w _ _ κ s _ r r' e e' v ⟨rfl, rfl, h⟩ hs ⟨heq, he⟩ rfl
    cases heq
    cases hid : w.scopes.target? s r.depth r.name.lexeme with
    | none => exact .inr ⟨rfl, rfl, rfl⟩
    | some id =>
      -- an assignment binds no new name
      have hb := Scopes.binds_of_target? hid
      have hlt := Scopes.lt_next_of_binds hb
      exact .inl ⟨id, id, _, rfl, rfl, Tagged.le_define hlt _ v, rfl, rfl,
        h.define hlt (h.binds id _ hb) v⟩
  define := by
    rintro w _ _ κ _ s n _ v ⟨rfl, rfl, h⟩ hs ⟨rfl, rfl, hn⟩
    rw [hs.headD h.global] at hn
    have hlt := hs.lt_next h.rooted
    have hle := Tagged.le_define hlt n.lexeme v
    exact ⟨_, hle, ⟨rfl, rfl, h.define hlt (.inl hn) v⟩, hs.mono hle⟩
  block := by
    rintro w _ _ κ _ s ⟨rfl, rfl, h⟩ hs ⟨label, rfl⟩
    exact ⟨_, Tagged.le_push s label, ⟨rfl, rfl, h.push (hs.lt_next h.rooted) label⟩,
      hs.push h.rooted label⟩
  call := by
    rintro w _ _ κ _ s ps _ args ⟨rfl, rfl, h⟩ hs ⟨rfl, label, rfl, hps⟩ _
    have hlt := w.lt_next_push s label
    have hle := Tagged.le_bindAll hlt (ps.zip args)
    rw [← w.tags_push_next s label] at hps
    exact ⟨_, (Tagged.le_push s label).trans hle,
      ⟨rfl, rfl, (h.push (hs.lt_next h.rooted) label).bindAll hlt hps args⟩,
      (hs.push h.rooted label).mono hle⟩
  attach := by
    rintro w _ _ κ s o ⟨rfl, rfl, h⟩ hs
    have hlt := w.lt_next_push s []
    have hle := Tagged.le_define hlt "this" (.object o)
    exact ⟨_, (Tagged.le_push s []).trans hle,
      ⟨rfl, rfl, (h.push (hs.lt_next h.rooted) []).define hlt (.inr (.inl rfl)) _⟩,
      (hs.push h.rooted []).mono hle⟩
  derive := by
    rintro w _ _ κ _ s n _ c v ⟨rfl, rfl, h⟩ hs ⟨rfl, rfl, hn⟩
    have hpush := Tagged.le_push (w := w) s []
    have hlt := w.lt_next_push s []
    have hle := Tagged.le_define hlt "super" (.cls c)
    have hsuper := (h.push (hs.lt_next h.rooted) []).define hlt (.inr (.inr rfl)) (.cls c)
    -- the scope of the class is older than that of `super`
    have hs' := hs.mono (hpush.trans hle)
    rw [hs'.headD hsuper.global] at hn
    have hlt' := hs'.lt_next hsuper.rooted
    have hle' := Tagged.le_define hlt' n.lexeme v
    exact ⟨_, (hpush.trans hle).trans hle', ⟨rfl, rfl, hsuper.define hlt' (.inl hn) v⟩,
      hs'.mono hle', (hs.push h.rooted []).mono (hle.trans hle')⟩

theorem locatedRuns_diagonal {G : List String} : (locatedRuns G).Diagonal where
  token_eq h := h
  expr_eq h := h.1
  stmt_eq h := h.2.1
  enters_eq h := h.1
  fault_eq h := h
  scopes_eq h := h.2.1

theorem bounded_start {G : List String} (hG : "clock" ∈ G) (out : Sink) (clock : Nat → Float) :
    Bounded G ⟨(Machine.start out clock).store.scopes, fun _ => G⟩ := by
  have hpush : Bounded G ⟨Scopes.empty.push none, fun _ => G⟩ := by
    refine ⟨⟨Nat.zero_lt_one, rfl⟩, fun id p hp => ?_, rfl, fun id name hb => ?_⟩
    · rw [Scopes.parent?_push] at hp
      split at hp <;> cases hp
    · rw [Scopes.binds, Scopes.value?_push] at hb
      simp [Scopes.value?, Scopes.empty] at hb
  exact hpush.define Nat.zero_lt_one (.inl hG) (.native 0)

/-- A fresh machine is in step with itself. -/
theorem machines_start {G : List String} (hG : "clock" ∈ G) (out : Sink) (clock : Nat → Float) :
    (locatedRuns G).Machines ⟨(Machine.start out clock).store.scopes, fun _ => G⟩ Machine.globals
      (.start out clock) (.start out clock) :=
  ⟨⟨⟨rfl, rfl, bounded_start hG out clock⟩, rfl, fun _ => .none, rfl, rfl, fun _ => .none, rfl⟩, rfl,
    rfl, rfl, rfl, rfl, rfl⟩

end Treewalk
