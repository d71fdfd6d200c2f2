import Mathlib.Logic.Equiv.Basic
import Treewalk.Proofs.Renaming.Senses

/-!
# Resolving a renamed program

A renaming writes a new name in place of the name of one variable. In the scope of that
variable, which has the flag, the two names are exchanged; everywhere else a name stands
for itself (`Renaming.key`). If the new name occurs nowhere in a program and each token
is respelled as its sense asks, the renamed program resolves to the renamed tree, with
the same distances (`Stmt.ScopedAll.rename`).
-/

namespace Treewalk

open Resolver

/-- The name of a variable, and the name it gets. -/
structure Renaming where
  old : String
  new : String
  /-- The tokens that are replaced. -/
  occurs : Token → Prop

namespace Renaming

variable {R : Renaming}

/-- Variables are not named by keywords. -/
structure Proper (R : Renaming) : Prop where
  old_ne_this : R.old ≠ "this"
  new_ne_this : R.new ≠ "this"
  new_ne_super : R.new ≠ "super"

/-- The name in a scope that stands for a name there. -/
def key (R : Renaming) (hit : Bool) (name : String) : String :=
  if hit then Equiv.swap R.old R.new name else name

@[simp] theorem key_false (name : String) : R.key false name = name := rfl

@[simp] theorem key_key (hit : Bool) (name : String) : R.key hit (R.key hit name) = name := by
  cases hit with
  | false => rfl
  | true => exact Equiv.swap_apply_self _ _ _

theorem key_eq_iff {hit : Bool} {name other : String} :
    R.key hit name = other ↔ name = R.key hit other := by
  constructor <;> rintro rfl <;> simp

/-- The name is respelled as it is in a scope. The new name was not in use. -/
def Spells (R : Renaming) (hit : Bool) (name name' : String) : Prop :=
  name ≠ R.new ∧ name' = R.key hit name

theorem Spells.eq_or {hit : Bool} {name name' : String} (h : R.Spells hit name name') :
    name' = name ∨ name = R.old ∧ name' = R.new := by
  obtain ⟨hne, rfl⟩ := h
  cases hit with
  | false => exact .inl rfl
  | true =>
    by_cases hold : name = R.old
    · exact .inr ⟨hold, by simp [key, hold]⟩
    · exact .inl (Equiv.swap_apply_of_ne_of_ne hold hne)

theorem Spells.key_eq {hit : Bool} {name name' : String} (h : R.Spells hit name name') :
    R.key hit name' = name := by
  rw [h.2, key_key]

/-- Names stay apart, whatever scopes they belong to. -/
theorem Spells.ne {hit hit' : Bool} {a a' b b' : String} (h : R.Spells hit a a')
    (h' : R.Spells hit' b b') (hne : a ≠ b) : a' ≠ b' := by
  rcases h.eq_or with rfl | ⟨ha, rfl⟩ <;> rcases h'.eq_or with rfl | ⟨hb, rfl⟩
  · exact hne
  · exact h.1
  · exact Ne.symm h'.1
  · exact absurd (ha.trans hb.symm) hne

/-! ## Open scopes -/

/-- The names of an open scope, and those in the renamed program. -/
structure Matches (R : Renaming) (hit : Bool) (names names' : Bindings Bool) : Prop where
  get? : ∀ name, names'.get? name = names.get? (R.key hit name)
  unused : names.get? R.new = none

theorem matches_empty (hit : Bool) : R.Matches hit .empty .empty :=
  ⟨fun _ => rfl, rfl⟩

theorem Proper.matches_thisScope (h : R.Proper) : R.Matches false thisScope thisScope :=
  ⟨fun _ => rfl, by simp [thisScope, Bindings.get?_insert, Ne.symm h.new_ne_this]⟩

theorem Proper.matches_superScope (h : R.Proper) : R.Matches false superScope superScope :=
  ⟨fun _ => rfl, by simp [superScope, Bindings.get?_insert, Ne.symm h.new_ne_super]⟩

theorem Matches.insert {hit : Bool} {names names' : Bindings Bool} (h : R.Matches hit names names')
    {name name' : String} (hs : R.Spells hit name name') (done : Bool) :
    R.Matches hit (names.insert name done) (names'.insert name' done) := by
  refine ⟨fun other => ?_, ?_⟩
  · rw [Bindings.get?_insert, Bindings.get?_insert, h.get?, hs.2]
    simp only [key_eq_iff]
  · rw [Bindings.get?_insert, if_neg hs.1, h.unused]

/-- What is not declared in a scope is not declared there after the renaming, also if it
is respelled as in another scope. -/
theorem Matches.get?_eq_none {hit other : Bool} {names names' : Bindings Bool}
    (h : R.Matches hit names names') {name name' : String} (hs : R.Spells other name name')
    (hn : names.get? name = none) : names'.get? name' = none := by
  rw [h.get?]
  have hnew : R.key hit R.new = R.new ∨ R.key hit R.new = R.old := by
    cases hit with
    | false => exact .inl rfl
    | true => exact .inr (Equiv.swap_apply_right _ _)
  rcases hs.eq_or with rfl | ⟨rfl, rfl⟩
  · have hspells : R.Spells hit name' (R.key hit name') := ⟨hs.1, rfl⟩
    rcases hspells.eq_or with hk | ⟨_, hk⟩
    · rw [hk, hn]
    · rw [hk, h.unused]
  · rcases hnew with hk | hk
    · rw [hk, h.unused]
    · rw [hk, hn]

/-- Open scopes with their flags, and the open scopes in the renamed program. -/
inductive Stacks (R : Renaming) :
    List Bool → List (Bindings Bool) → List (Bindings Bool) → Prop
  | nil : Stacks R [] [] []
  | cons {hit : Bool} {flags : List Bool} {names names' : Bindings Bool}
      {κ κ' : List (Bindings Bool)} : R.Matches hit names names' → Stacks R flags κ κ' →
    Stacks R (hit :: flags) (names :: κ) (names' :: κ')

namespace Stacks

variable {flags : List Bool} {κ κ' : List (Bindings Bool)}

/-- A respelled name is found at the same distance, and in the innermost scope with the
same mark. -/
theorem distance?_eq (h : R.Stacks flags κ κ') {name name' : String}
    (hs : R.Spells (hitAt flags (distance? κ name)) name name') :
    distance? κ' name' = distance? κ name ∧
      (κ'.head?.bind fun names => names.get? name') = κ.head?.bind fun names => names.get? name := by
  induction h with
  | nil => exact ⟨rfl, rfl⟩
  | @cons hit flags names names' κ κ' hm _ ih =>
    simp only [distance?, List.findIdx?_cons] at hs ih ⊢
    cases hc : names.contains name with
    | true =>
      rw [hc, if_pos rfl] at hs
      change R.Spells hit name name' at hs
      have hget : names'.get? name' = names.get? name := by rw [hm.get?, hs.key_eq]
      have hc' : names'.contains name' = true := by rw [Bindings.contains, hget]; exact hc
      rw [hc']
      exact ⟨rfl, hget⟩
    | false =>
      rw [hc, if_neg (by simp)] at hs
      have hnone : names.get? name = none := by simpa [Bindings.contains] using hc
      have hnone' := hm.get?_eq_none hs hnone
      have hc' : names'.contains name' = false := by simp [Bindings.contains, hnone']
      rw [hc', if_neg (by simp), if_neg (by simp)]
      have hhit : hitAt (hit :: flags) ((κ.findIdx? fun scope => scope.contains name).map (· + 1)) =
          hitAt flags (κ.findIdx? fun scope => scope.contains name) := by
        cases κ.findIdx? fun scope => scope.contains name <;> rfl
      rw [hhit] at hs
      exact ⟨by rw [(ih hs).1], hnone'.trans hnone.symm⟩

theorem fresh (h : R.Stacks flags κ κ') {n n' : Token}
    (hs : R.Spells (flags.headD false) n.lexeme n'.lexeme) (hn : Fresh κ n) : Fresh κ' n' := by
  cases h with
  | nil => exact fun _ h => nomatch h
  | cons hm _ =>
    rw [List.headD_cons] at hs
    intro scope hscope
    obtain rfl := Option.some.inj hscope
    rw [Bindings.contains, hm.get?, hs.key_eq]
    exact hn _ rfl

theorem mark (h : R.Stacks flags κ κ') {n n' : Token}
    (hs : R.Spells (flags.headD false) n.lexeme n'.lexeme) (done : Bool) :
    R.Stacks flags (mark κ n done) (mark κ' n' done) := by
  cases h with
  | nil => exact .nil
  | cons hm h => exact .cons (hm.insert hs done) h

theorem bound (h : R.Stacks flags κ κ') {n n' : Token}
    (hs : R.Spells (flags.headD false) n.lexeme n'.lexeme) :
    R.Stacks flags (bound κ n) (bound κ' n') :=
  (h.mark hs false).mark hs true

theorem params {g : Token → Token} (h : R.Stacks flags κ κ') {ps : List Token}
    {κ₁ : List (Bindings Bool)} (hps : Params κ ps κ₁)
    (hs : ∀ p ∈ ps, R.Spells (flags.headD false) p.lexeme (g p).lexeme) :
    ∃ κ₁', R.Stacks flags κ₁ κ₁' ∧ Params κ' (ps.map g) κ₁' := by
  induction hps generalizing κ' with
  | nil => exact ⟨κ', h, .nil⟩
  | cons hp _ ih =>
    obtain ⟨hs, hrest⟩ := List.forall_mem_cons.mp hs
    obtain ⟨κ₁', hκ, hps⟩ := ih (h.bound hs) hrest
    exact ⟨κ₁', hκ, .cons (h.fresh hs hp) hps⟩

theorem depth_located {r : Reference} (hd : r.depth = none) :
    (located κ r).depth = distance? κ r.name.lexeme := by
  unfold located
  split
  · rename_i heq
    exact heq.symm
  · rename_i heq
    rw [heq, hd]

variable {g : Token → Token} {r : Reference}

theorem located_map (h : R.Stacks flags κ κ') (hd : r.depth = none)
    (hs : R.Spells (hitAt flags (located κ r).depth) (located κ r).name.lexeme
      (g (located κ r).name).lexeme) :
    located κ' (r.map g) = (located κ r).map g := by
  rw [depth_located hd, located_name] at hs
  have hdist := (h.distance?_eq hs).1
  unfold located
  rw [Reference.map, hdist]
  split <;> rfl

theorem readable (h : R.Stacks flags κ κ') (hd : r.depth = none)
    (hs : R.Spells (hitAt flags (located κ r).depth) (located κ r).name.lexeme
      (g (located κ r).name).lexeme) (hr : Readable κ r.name) : Readable κ' (g r.name) := by
  rw [depth_located hd, located_name] at hs
  have hmark := (h.distance?_eq hs).2
  cases h with
  | nil => exact fun _ h => nomatch h
  | cons _ _ =>
    intro scope hscope
    obtain rfl := Option.some.inj hscope
    exact fun hfalse => hr _ rfl (hmark.symm.trans hfalse)

end Stacks

/-- A token is respelled as its sense asks. -/
def Writes (R : Renaming) (g : Token → Token) (p : Token × Sense) : Prop :=
  R.Spells p.2.hit p.1.lexeme (g p.1).lexeme

end Renaming

/-! ## Trees -/

section

variable {R : Renaming} {g : Token → Token} {d : Token}

mutual

theorem Expr.Scoped.rename {body : ClassBody} {flags : List Bool} {κ κ' : List (Bindings Bool)}
    (hκ : R.Stacks flags κ κ') : ∀ {e e' : Expr}, Expr.Scoped body κ e e' → e.Bare →
    (∀ p ∈ e'.senses flags, R.Writes g p) → Expr.Scoped body κ' (e.map g) (e'.map g)
  | _, _, .literal v, _, _ => .literal v
  | _, _, .group h, .group hb, hw => .group (h.rename hκ hb hw)
  | _, _, .unary h, .unary _ hb, hw => .unary (h.rename hκ hb (List.forall_mem_cons.mp hw).2)
  | _, _, .binary h h', .binary _ hb hb', hw =>
    have hw := List.forall_mem_append.mp (List.forall_mem_cons.mp hw).2
    .binary (h.rename hκ hb hw.1) (h'.rename hκ hb' hw.2)
  | _, _, .logical h h', .logical hb hb', hw =>
    have hw := List.forall_mem_append.mp (List.forall_mem_cons.mp hw).2
    .logical (h.rename hκ hb hw.1) (h'.rename hκ hb' hw.2)
  | _, _, .var hr, hb, hw => by
    cases hb with | var _ =>
    have hs := hw _ List.mem_cons_self
    simp only [Expr.map, ← hκ.located_map rfl hs]
    exact .var (hκ.readable rfl hs hr)
  | _, _, .assign h, .assign _ hb, hw => by
    obtain ⟨hs, hw⟩ := List.forall_mem_cons.mp hw
    simp only [Expr.map, ← hκ.located_map rfl hs]
    exact .assign (h.rename hκ hb hw)
  | _, _, .call h h', .call hb hb', hw =>
    have hw := List.forall_mem_append.mp (List.forall_mem_cons.mp hw).2
    .call (h.rename hκ hb hw.1) (h'.rename hκ hb' hw.2)
  | _, _, .get h, .get hb, hw => .get (h.rename hκ hb (List.forall_mem_cons.mp hw).2)
  | _, _, .set h h', .set hb hb', hw =>
    have hw := List.forall_mem_append.mp (List.forall_mem_cons.mp hw).2
    .set (h.rename hκ hb hw.1) (h'.rename hκ hb' hw.2)
  | _, _, .receiver h, .receiver _, hw => by
    simp only [Expr.map, ← hκ.located_map rfl (hw _ List.mem_cons_self)]
    exact .receiver h
  | _, _, .inherited h, .inherited _ _, hw => by
    simp only [Expr.map, ← hκ.located_map rfl (hw _ List.mem_cons_self)]
    exact .inherited h

theorem Expr.ScopedAll.rename {body : ClassBody} {flags : List Bool} {κ κ' : List (Bindings Bool)}
    (hκ : R.Stacks flags κ κ') : ∀ {es es' : List Expr}, Expr.ScopedAll body κ es es' →
    (∀ e ∈ es, e.Bare) → (∀ p ∈ Expr.sensesAll flags es', R.Writes g p) →
    Expr.ScopedAll body κ' (Expr.mapAll g es) (Expr.mapAll g es')
  | _, _, .nil, _, _ => .nil
  | _, _, .cons h h', hb, hw =>
    have hb := List.forall_mem_cons.mp hb
    have hw := List.forall_mem_append.mp hw
    .cons (h.rename hκ hb.1 hw.1) (h'.rename hκ hb.2 hw.2)

end

theorem Expr.scoped?_rename {body : ClassBody} {flags : List Bool} {κ κ' : List (Bindings Bool)}
    (hκ : R.Stacks flags κ κ') {e e' : Option Expr} (h : Option.Rel (Expr.Scoped body κ) e e')
    (hb : ∀ x ∈ e, x.Bare) (hw : ∀ p ∈ Expr.senses? flags e', R.Writes g p) :
    Option.Rel (Expr.Scoped body κ') (e.map (Expr.map g)) (e'.map (Expr.map g)) := by
  cases h with
  | none => exact .none
  | some h => exact .some (h.rename hκ (hb _ rfl) hw)

mutual

theorem Stmt.Scoped.rename (hR : R.Proper) : ∀ {place : Place} {flags : List Bool}
    {κ κ' κ₁ : List (Bindings Bool)} {s s' : Stmt}, Stmt.Scoped place κ s s' κ₁ → s.Bare →
    R.Stacks flags κ κ' → (∀ p ∈ s'.senses d flags, R.Writes g p) →
    ∃ κ₁', R.Stacks flags κ₁ κ₁' ∧ Stmt.Scoped place κ' (s.map g) (s'.map g) κ₁'
  | _, _, _, _, _, _, _, .expression h, .expression hb, hκ, hw =>
    ⟨_, hκ, .expression (h.rename hκ hb hw)⟩
  | _, _, _, _, _, _, _, .print h, .print hb, hκ, hw => ⟨_, hκ, .print (h.rename hκ hb hw)⟩
  | _, _, _, _, _, _, _, .declare hn h, .declare _ hb, hκ, hw => by
    obtain ⟨hs, hw⟩ := List.forall_mem_cons.mp hw
    exact ⟨_, hκ.bound hs, .declare (hκ.fresh hs hn)
      (Expr.scoped?_rename (hκ.mark hs false) h hb hw)⟩
  | _, _, _, _, _, _, _, .block h, .block hb, hκ, hw => by
    obtain ⟨κ₁', _, h'⟩ := h.rename hR hb (.cons (Renaming.matches_empty _) hκ) hw
    obtain ⟨top, rfl⟩ := h'.sameTail.cons
    exact ⟨_, hκ, .block h'⟩
  | _, _, _, _, _, _, _, .branch hc h, .branch hcb hb _ _ _, hκ, hw => by
    obtain ⟨hwc, hw⟩ := List.forall_mem_append.mp hw
    obtain ⟨_, hκ', h'⟩ := h.rename hR hb hκ hw
    exact ⟨_, hκ', .branch (hc.rename hκ hcb hwc) h'⟩
  | _, _, _, _, _, _, _, .choice hc h ha, .branch hcb hb _ hab _, hκ, hw => by
    obtain ⟨hwc, hw⟩ := List.forall_mem_append.mp hw
    obtain ⟨hw, hwa⟩ := List.forall_mem_append.mp hw
    obtain ⟨_, hκ', h'⟩ := h.rename hR hb hκ hw
    obtain ⟨_, hκ'', ha'⟩ := ha.rename hR (hab _ rfl) hκ' hwa
    exact ⟨_, hκ'', .choice (hc.rename hκ hcb hwc) h' ha'⟩
  | _, _, _, _, _, _, _, .loop hc h, .loop hcb hb _, hκ, hw => by
    obtain ⟨hwc, hw⟩ := List.forall_mem_append.mp hw
    obtain ⟨_, hκ', h'⟩ := h.rename hR hb hκ hw
    exact ⟨_, hκ', .loop (hc.rename hκ hcb hwc) h'⟩
  | _, _, _, _, _, _, _, .function hn hps h, .function _ _ hb, hκ, hw => by
    obtain ⟨hs, hw⟩ := List.forall_mem_cons.mp hw
    obtain ⟨hwps, hw⟩ := List.forall_mem_append.mp hw
    obtain ⟨_, hκ', hps'⟩ := Renaming.Stacks.params (.cons (Renaming.matches_empty _) (hκ.bound hs)) hps
      fun p hp => hwps _ (List.mem_map_of_mem hp)
    obtain ⟨κ₁', _, h'⟩ := h.rename hR hb hκ' hw
    obtain ⟨top, rfl⟩ := (hps'.sameTail.trans h'.sameTail).cons
    exact ⟨_, hκ.bound hs, .function (hκ.fresh hs hn) hps' h'⟩
  | _, _, _, _, _, _, _, .leave hin h, .leave hb, hκ, hw =>
    ⟨_, hκ, .leave hin (Expr.scoped?_rename hκ h hb (List.forall_mem_cons.mp hw).2)⟩
  | _, _, _, _, _, _, _, .base hn h, .classDecl _ _ _ hb, hκ, hw => by
    obtain ⟨hs, hw⟩ := List.forall_mem_cons.mp hw
    exact ⟨_, hκ.bound hs, .base (hκ.fresh hs hn)
      (h.rename hR hb (.cons hR.matches_thisScope (hκ.bound hs)) hw)⟩
  | _, _, _, _, _, _, _, .derived hn hne h, .classDecl _ hd _ hb, hκ, hw => by
    obtain ⟨hs, hw⟩ := List.forall_mem_cons.mp hw
    obtain ⟨hr, hw⟩ := List.forall_mem_cons.mp hw
    have hκ' := hκ.bound hs
    refine ⟨_, hκ', ?_⟩
    simp only [Stmt.map, Option.map_some, ← hκ'.located_map (hd _ rfl).1 hr]
    refine .derived (hκ.fresh hs hn) ?_ (h.rename hR hb ?_ hw)
    · rw [Renaming.Writes, located_name] at hr
      exact hr.ne hs hne
    · exact .cons hR.matches_thisScope (.cons hR.matches_superScope hκ')

theorem Stmt.ScopedAll.rename (hR : R.Proper) : ∀ {place : Place} {flags : List Bool}
    {κ κ' κ₁ : List (Bindings Bool)} {l l' : List Stmt}, Stmt.ScopedAll place κ l l' κ₁ →
    (∀ s ∈ l, s.Bare) → R.Stacks flags κ κ' → (∀ p ∈ Stmt.sensesAll d flags l', R.Writes g p) →
    ∃ κ₁', R.Stacks flags κ₁ κ₁' ∧ Stmt.ScopedAll place κ' (Stmt.mapAll g l) (Stmt.mapAll g l') κ₁'
  | _, _, _, _, _, _, _, .nil, _, hκ, _ => ⟨_, hκ, .nil⟩
  | _, _, _, _, _, _, _, .cons h hl, hb, hκ, hw => by
    obtain ⟨hb, hbl⟩ := List.forall_mem_cons.mp hb
    obtain ⟨hw, hwl⟩ := List.forall_mem_append.mp hw
    obtain ⟨_, hκ', h'⟩ := h.rename hR hb hκ hw
    obtain ⟨_, hκ'', hl'⟩ := hl.rename hR hbl hκ' hwl
    exact ⟨_, hκ'', .cons h' hl'⟩

theorem Stmt.ScopedMethods.rename (hR : R.Proper) : ∀ {body : ClassBody} {flags : List Bool}
    {κ κ' : List (Bindings Bool)} {ms ms' : List (Routine Stmt)},
    Stmt.ScopedMethods body κ ms ms' → (∀ m ∈ ms, ∀ s ∈ m.body, s.Bare) → R.Stacks flags κ κ' →
    (∀ p ∈ Stmt.sensesMethods d flags ms', R.Writes g p) →
    Stmt.ScopedMethods body κ' (Stmt.mapMethods g ms) (Stmt.mapMethods g ms')
  | _, _, _, _, _, _, .nil, _, _, _ => .nil
  | _, _, _, _, _, _, .cons hps h hms, hb, hκ, hw => by
    obtain ⟨hb, hbms⟩ := List.forall_mem_cons.mp hb
    obtain ⟨hw, hwms⟩ := List.forall_mem_append.mp (List.forall_mem_cons.mp hw).2
    obtain ⟨hwps, hw⟩ := List.forall_mem_append.mp hw
    obtain ⟨_, hκ', hps'⟩ := Renaming.Stacks.params (.cons (Renaming.matches_empty _) hκ) hps
      fun p hp => hwps _ (List.mem_map_of_mem hp)
    obtain ⟨κ₁', _, h'⟩ := h.rename hR hb hκ' hw
    obtain ⟨top, rfl⟩ := (hps'.sameTail.trans h'.sameTail).cons
    exact .cons hps' h' (hms.rename hR hbms hκ hwms)

end

end

end Treewalk
