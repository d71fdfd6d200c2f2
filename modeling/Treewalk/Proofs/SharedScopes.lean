import Treewalk.Proofs.ForLoops.Turns
import Treewalk.Proofs.Lookup.Runs
import Treewalk.Proofs.StaticDispatch

/-!
# Scopes that are shared

Scopes that come about by operations on scopes that exist (`Scopes.Reachable`) are linked to older
ones only, whatever was cut off in between. So every chain ends, and the search along a chain finds
the nearest scope that binds the name (`Scopes.Nearest`). An assignment rebinds the name there
and changes nothing else (`Scopes.Rebinds`): all the scopes that find the name in the same place
see the new value, and no others do.
-/

namespace Treewalk.Scopes

/-! ## Operations -/

inductive Operation where
  /-- A new scope without a parent. -/
  | root
  | child (parent : ScopeId)
  | define (scope : ScopeId) (name : String) (v : Value)
  | clear (scope : ScopeId)
  | assign (scope : ScopeId) (name : Token) (v : Value)
  | assignAt (scope : ScopeId) (distance : Nat) (name : Token) (v : Value)

namespace Operation

/-- The scope that the operation starts from. -/
def scope? : Operation → Option ScopeId
  | .root => none
  | .child id | .define id _ _ | .clear id | .assign id _ _ | .assignAt id _ _ _ => some id

def run (s : Scopes) : Operation → Except Diagnostic Scopes
  | .root => .ok (s.push none)
  | .child parent => .ok (s.push (some parent))
  | .define id name v => .ok (s.define id name v)
  | .clear id => .ok (s.clear id)
  | .assign id name v => s.assign id name v
  | .assignAt id distance name v => s.assignAt id distance name v

end Operation

/-- The scopes after an operation. One that fails leaves them as they are. -/
def step (s : Scopes) (op : Operation) : Scopes :=
  match op.run s with
  | .ok s' => s'
  | .error _ => s

/-- Operations, each on a scope that exists, have made these scopes. -/
inductive Reachable : Scopes → Prop
  | empty : Reachable .empty
  | step {s : Scopes} {op : Operation} :
    Reachable s → (∀ id ∈ op.scope?, id < s.next) → Reachable (s.step op)

variable {s s' : Scopes} {e a id : ScopeId} {d : Nat} {name : String} {x : Token} {v : Value}

theorem parent?_clear (s : Scopes) (id other : ScopeId) :
    (s.clear id).parent? other = if id = other then none else s.parent? other := by
  simp only [parent?, clear, Array.getElem?_modify]
  split
  · cases s.all[other]? <;> rfl
  · rfl

theorem update_ok {owner : Option ScopeId} (h : s.update owner x v = .ok s') :
    ∃ a, owner = some a ∧ s' = s.define a x.lexeme v := by
  cases owner with
  | none => cases h
  | some a =>
    cases h
    exact ⟨a, rfl, rfl⟩

theorem update_error {owner : Option ScopeId} {err : Diagnostic}
    (h : s.update owner x v = .error err) : owner = none ∧ err = undefined x := by
  cases owner with
  | none =>
    cases h
    exact ⟨rfl, rfl⟩
  | some a => cases h

theorem step_error {op : Operation} {err : Diagnostic} (h : op.run s = .error err) :
    s.step op = s := by
  rw [step, h]

/-! ## Links to older scopes -/

theorem Older.push {parent : Option ScopeId} (h : s.Older) (hparent : ∀ p ∈ parent, p < s.next) :
    (s.push parent).Older := by
  intro id p hp
  rw [parent?_push] at hp
  split at hp
  · next hid => exact hid ▸ hparent p hp
  · exact h id p hp

theorem Older.define (h : s.Older) : (s.define id name v).Older := by
  intro other p hp
  rw [parent?_define] at hp
  exact h other p hp

theorem Older.clear (h : s.Older) : (s.clear id).Older := by
  intro other p hp
  rw [parent?_clear] at hp
  split at hp
  · cases hp
  · exact h other p hp

theorem Older.of_update {owner : Option ScopeId} (h : s.Older) (hok : s.update owner x v = .ok s') :
    s'.Older := by
  obtain ⟨a, -, rfl⟩ := update_ok hok
  exact h.define

theorem Older.run {op : Operation} (h : s.Older) (hop : ∀ id ∈ op.scope?, id < s.next)
    (hok : op.run s = .ok s') : s'.Older := by
  cases op with
  | root =>
    cases hok
    exact h.push fun _ hp => absurd hp (Option.not_mem_none _)
  | child parent =>
    -- the one operation that makes a link
    cases hok
    exact h.push hop
  | define id name v =>
    cases hok
    exact h.define
  | clear id =>
    cases hok
    exact h.clear
  | assign id name v | assignAt id distance name v => exact h.of_update hok

theorem Reachable.older (h : s.Reachable) : s.Older := by
  induction h with
  | empty => exact fun id p hp => by simp [parent?, Scopes.empty] at hp
  | @step s op _ hop ih =>
    cases hrun : op.run s with
    | ok s' =>
      rw [Scopes.step, hrun]
      exact ih.run hop hrun
    | error err => rwa [step_error hrun]

/-! ## Chains -/

theorem Older.add_le (h : s.Older) (hd : s.ancestor? e d = some a) : a + d ≤ e := by
  induction d generalizing e with
  | zero =>
    cases hd
    exact Nat.le_refl _
  | succ d ih =>
    obtain ⟨p, hp, hd⟩ := Option.bind_eq_some_iff.mp hd
    exact Nat.lt_of_le_of_lt (ih hd) (h e p hp)

/-- A chain ends. -/
theorem Older.ancestor?_eq_none (h : s.Older) (e : ScopeId) : s.ancestor? e (e + 1) = none := by
  rw [Option.eq_none_iff_forall_ne_some]
  intro a ha
  exact Nat.not_succ_le_self e (Nat.le_trans (Nat.le_add_left _ a) (h.add_le ha))

/-- The nearest scope on the chain of `e` that binds the name. -/
structure Nearest (s : Scopes) (e : ScopeId) (name : String) (d : Nat) (owner : ScopeId) :
    Prop where
  ancestor : s.ancestor? e d = some owner
  binds : s.binds owner name = true
  least : ∀ k < d, ∀ a, s.ancestor? e k = some a → s.binds a name = false

theorem nearest_zero : s.Nearest e name 0 a ↔ a = e ∧ s.binds e name = true := by
  constructor
  · rintro ⟨ha, hb, -⟩
    cases ha
    exact ⟨rfl, hb⟩
  · rintro ⟨rfl, hb⟩
    exact ⟨rfl, hb, fun k hk => absurd hk (Nat.not_lt_zero k)⟩

theorem nearest_succ : s.Nearest e name (d + 1) a ↔
    s.binds e name = false ∧ ∃ p, s.parent? e = some p ∧ s.Nearest p name d a := by
  constructor
  · rintro ⟨ha, hb, hleast⟩
    obtain ⟨p, hp, ha⟩ := Option.bind_eq_some_iff.mp ha
    refine ⟨hleast 0 (Nat.succ_pos d) e rfl, p, hp, ha, hb, fun k hk b hb => ?_⟩
    exact hleast (k + 1) (Nat.succ_lt_succ hk) b (Option.bind_eq_some_iff.mpr ⟨p, hp, hb⟩)
  · rintro ⟨he, p, hp, ha, hb, hleast⟩
    refine ⟨Option.bind_eq_some_iff.mpr ⟨p, hp, ha⟩, hb, fun k hk b hb => ?_⟩
    cases k with
    | zero =>
      cases hb
      exact he
    | succ k =>
      obtain ⟨q, hq, hb⟩ := Option.bind_eq_some_iff.mp hb
      cases hp.symm.trans hq
      exact hleast k (Nat.lt_of_succ_lt_succ hk) b hb

theorem ownerWithin_eq_some_iff {steps : Nat} :
    s.ownerWithin name steps e = some a ↔ ∃ d < steps, s.Nearest e name d a := by
  induction steps generalizing e with
  | zero => simp [ownerWithin]
  | succ steps ih =>
    rw [ownerWithin]
    split
    · next hb =>
      constructor
      · intro h
        cases h
        exact ⟨0, Nat.succ_pos steps, nearest_zero.mpr ⟨rfl, hb⟩⟩
      · rintro ⟨d, -, hd⟩
        cases d with
        | zero => rw [(nearest_zero.mp hd).1]
        | succ d => exact absurd (nearest_succ.mp hd).1 (ne_true_of_eq_false · hb)
    · next hb =>
      rw [Option.bind_eq_some_iff]
      constructor
      · rintro ⟨p, hp, hown⟩
        obtain ⟨d, hd, hn⟩ := ih.mp hown
        exact ⟨d + 1, Nat.succ_lt_succ hd, nearest_succ.mpr ⟨Bool.eq_false_iff.mpr hb, p, hp, hn⟩⟩
      · rintro ⟨d, hd, hn⟩
        cases d with
        | zero => exact absurd (nearest_zero.mp hn).2 hb
        | succ d =>
          obtain ⟨-, p, hp, hn⟩ := nearest_succ.mp hn
          exact ⟨p, hp, ih.mpr ⟨d, Nat.lt_of_succ_lt_succ hd, hn⟩⟩

/-- If any scope on a chain binds a name, then one of them is nearest. -/
theorem exists_nearest (hd : s.ancestor? e d = some a) (hb : s.binds a name = true) :
    ∃ k b, s.Nearest e name k b := by
  induction d generalizing e with
  | zero =>
    cases hd
    exact ⟨0, a, nearest_zero.mpr ⟨rfl, hb⟩⟩
  | succ d ih =>
    obtain ⟨p, hp, hd⟩ := Option.bind_eq_some_iff.mp hd
    cases he : s.binds e name with
    | true => exact ⟨0, e, nearest_zero.mpr ⟨rfl, he⟩⟩
    | false =>
      obtain ⟨k, b, hn⟩ := ih hd
      exact ⟨k + 1, b, nearest_succ.mpr ⟨he, p, hp, hn⟩⟩

/-- The search goes on for long enough. -/
theorem Older.owner?_eq_some_iff (h : s.Older) :
    s.owner? e name = some a ↔ ∃ d, s.Nearest e name d a := by
  rw [owner?, ownerWithin_eq_some_iff]
  constructor
  · rintro ⟨d, -, hn⟩
    exact ⟨d, hn⟩
  · rintro ⟨d, hn⟩
    have hexists : e < s.next := by
      cases d with
      | zero => exact (nearest_zero.mp hn).1 ▸ lt_next_of_binds hn.binds
      | succ d =>
        obtain ⟨-, p, hp, -⟩ := nearest_succ.mp hn
        exact lt_next_of_parent? hp
    have hdistance : d ≤ e := Nat.le_trans (Nat.le_add_left d a) (h.add_le hn.ancestor)
    exact ⟨d, Nat.lt_of_le_of_lt hdistance hexists, hn⟩

theorem Older.owner?_eq_none_iff (h : s.Older) : s.owner? e name = none ↔
    ∀ d a, s.ancestor? e d = some a → s.binds a name = false := by
  rw [Option.eq_none_iff_forall_ne_some]
  constructor
  · intro hnone d a hd
    refine Bool.eq_false_iff.mpr fun hb => ?_
    obtain ⟨k, b, hn⟩ := exists_nearest hd hb
    exact hnone b (h.owner?_eq_some_iff.mpr ⟨k, hn⟩)
  · intro hnone b hb
    obtain ⟨k, hn⟩ := h.owner?_eq_some_iff.mp hb
    exact ne_true_of_eq_false (hnone k b hn.ancestor) hn.binds

/-! ## Reading -/

theorem Older.get_of_nearest (h : s.Older) (hn : s.Nearest e x.lexeme d a) :
    ∃ w, s.value? a x.lexeme = some w ∧ s.get e x = .ok w ∧ s.getAt e d x = .ok w := by
  obtain ⟨w, hw⟩ := Option.isSome_iff_exists.mp hn.binds
  have howner : s.owner? e x.lexeme = some a := h.owner?_eq_some_iff.mpr ⟨d, hn⟩
  refine ⟨w, hw, ?_, getAt_of_ancestor? hn.ancestor hw⟩
  rw [get, howner, valueOf, Option.bind_some, hw]

theorem Older.get_eq_error_iff (h : s.Older) : s.get e x = .error (undefined x) ↔
    ∀ d a, s.ancestor? e d = some a → s.binds a x.lexeme = false := by
  rw [← h.owner?_eq_none_iff]
  constructor
  · intro herror
    refine Option.eq_none_iff_forall_ne_some.mpr fun a ha => ?_
    obtain ⟨d, hn⟩ := h.owner?_eq_some_iff.mp ha
    obtain ⟨w, -, hok, -⟩ := h.get_of_nearest hn
    rw [hok] at herror
    cases herror
  · intro hnone
    rw [get, hnone]
    rfl

/-! ## Rebinding -/

/-- The name gets the value `v` in the scope `a`, and nothing else changes. Whoever finds the name
in `a` finds the new value. -/
structure Rebinds (s : Scopes) (a : ScopeId) (name : String) (v : Value) (s' : Scopes) : Prop where
  next : s'.next = s.next
  parent : ∀ id, s'.parent? id = s.parent? id
  binds : ∀ id key, s'.binds id key = s.binds id key
  value : s'.value? a name = some v
  others : ∀ id key, ¬ (id = a ∧ key = name) → s'.value? id key = s.value? id key
  seen : ∀ f k, s.Nearest f name k a → ∀ y : Token, y.lexeme = name → s'.get f y = .ok v
  unseen : ∀ f (y : Token), ¬ (y.lexeme = name ∧ ∃ k, s.Nearest f name k a) → s'.get f y = s.get f y
  seenAt : ∀ f k, s.ancestor? f k = some a → ∀ y : Token, y.lexeme = name → s'.getAt f k y = .ok v
  unseenAt : ∀ f k (y : Token), ¬ (y.lexeme = name ∧ s.ancestor? f k = some a) →
    s'.getAt f k y = s.getAt f k y

section

variable (hparent : ∀ id, s'.parent? id = s.parent? id)
  (hbinds : ∀ id key, s'.binds id key = s.binds id key)

include hparent

theorem ancestor?_congr (e : ScopeId) (d : Nat) : s'.ancestor? e d = s.ancestor? e d := by
  induction d generalizing e with
  | zero => rfl
  | succ d ih => simp only [ancestor?, hparent, ih]

include hbinds

theorem nearest_congr : s'.Nearest e name d a ↔ s.Nearest e name d a := by
  constructor
  · rintro ⟨ha, hb, hleast⟩
    simp only [ancestor?_congr hparent, hbinds] at ha hb hleast
    exact ⟨ha, hb, hleast⟩
  · rintro ⟨ha, hb, hleast⟩
    simp only [← ancestor?_congr hparent, ← hbinds] at ha hb hleast
    exact ⟨ha, hb, hleast⟩

/-- A name is read as before if it has the same value where it is found. -/
theorem get_congr (h : s.Older) (h' : s'.Older) {f : ScopeId} {y : Token}
    (hvalue : ∀ k b, s.Nearest f y.lexeme k b → s'.value? b y.lexeme = s.value? b y.lexeme) :
    s'.get f y = s.get f y := by
  by_cases hfound : ∃ k b, s.Nearest f y.lexeme k b
  · obtain ⟨k, b, hn⟩ := hfound
    obtain ⟨w, hw, hget, -⟩ := h.get_of_nearest hn
    obtain ⟨w', hw', hget', -⟩ := h'.get_of_nearest ((nearest_congr hparent hbinds).mpr hn)
    rw [hvalue k b hn, hw] at hw'
    rw [hget, hget', Option.some.inj hw']
  · have hnone : ∀ d a, s.ancestor? f d = some a → s.binds a y.lexeme = false :=
      fun d a hd => Bool.eq_false_iff.mpr fun hb => hfound (exists_nearest hd hb)
    rw [h.get_eq_error_iff.mpr hnone, h'.get_eq_error_iff]
    intro d a hd
    rw [hbinds]
    exact hnone d a (by rwa [ancestor?_congr hparent] at hd)

theorem getAt_congr {f : ScopeId} {k : Nat} {y : Token}
    (hvalue : ∀ b, s.ancestor? f k = some b → s'.value? b y.lexeme = s.value? b y.lexeme) :
    s'.getAt f k y = s.getAt f k y := by
  have howner : s'.ownerAt? f k y.lexeme = s.ownerAt? f k y.lexeme := by
    simp only [ownerAt?, ancestor?_congr hparent, hbinds]
  rw [getAt, getAt, howner]
  cases hk : s.ownerAt? f k y.lexeme with
  | none => rfl
  | some b =>
    have hb := hvalue b (Option.filter_eq_some_iff.mp hk).1
    simp only [valueOf, Option.bind_some, hb]

end

theorem rebinds_define (h : s.Older) (hb : s.binds a name = true) :
    s.Rebinds a name v (s.define a name v) := by
  have hvalue := value?_define (lt_next_of_binds hb) name v
  have hparent := parent?_define s a name v
  have hbinds : ∀ id key, (s.define a name v).binds id key = s.binds id key := by
    intro id key
    rw [binds_define (lt_next_of_binds hb), Bool.or_eq_right_iff_imp]
    intro hdec
    obtain ⟨rfl, rfl⟩ := of_decide_eq_true hdec
    exact hb
  have hself : (s.define a name v).value? a name = some v := by
    rw [hvalue, if_pos ⟨rfl, rfl⟩]
  have hothers : ∀ id key, ¬ (id = a ∧ key = name) →
      (s.define a name v).value? id key = s.value? id key := by
    intro id key hne
    rw [hvalue, if_neg fun heq => hne ⟨heq.1.symm, heq.2.symm⟩]
  refine ⟨next_define .., hparent, hbinds, hself, hothers, ?_, ?_, ?_, ?_⟩
  · rintro f k hn y rfl
    obtain ⟨w, hw, hget, -⟩ := h.define.get_of_nearest ((nearest_congr hparent hbinds).mpr hn)
    rw [hget, Option.some.inj (hw.symm.trans hself)]
  · intro f y hne
    exact get_congr hparent hbinds h h.define fun k b hn =>
      hothers b y.lexeme fun heq => hne ⟨heq.2, k, by rwa [← heq.1, ← heq.2]⟩
  · rintro f k hk y rfl
    exact getAt_of_ancestor? ((ancestor?_congr hparent f k).trans hk) hself
  · intro f k y hne
    exact getAt_congr hparent hbinds fun b hk =>
      hothers b y.lexeme fun heq => hne ⟨heq.2, by rwa [← heq.1]⟩

/-- Writing succeeds where reading does. -/
theorem update_ok_iff {owner : Option ScopeId} (hb : ∀ a ∈ owner, s.binds a x.lexeme = true) :
    (∃ s', s.update owner x v = .ok s') ↔ ∃ w, s.valueOf owner x = .ok w := by
  cases owner with
  | none => simp [update, valueOf]
  | some a =>
    obtain ⟨w, hw⟩ := Option.isSome_iff_exists.mp (hb a rfl)
    simp [update, valueOf, hw]

theorem Older.assign_of_nearest (h : s.Older) (hn : s.Nearest e x.lexeme d a) (v : Value) :
    ∃ s', s.assign e x v = .ok s' ∧ s.Rebinds a x.lexeme v s' := by
  refine ⟨_, ?_, rebinds_define h hn.binds⟩
  rw [assign, h.owner?_eq_some_iff.mpr ⟨d, hn⟩, update]

theorem Older.rebinds_of_assignAt (h : s.Older) (hok : s.assignAt e d x v = .ok s') :
    ∃ a, s.ancestor? e d = some a ∧ s.Rebinds a x.lexeme v s' := by
  obtain ⟨a, howner, rfl⟩ := update_ok hok
  obtain ⟨ha, hb⟩ := Option.filter_eq_some_iff.mp howner
  exact ⟨a, ha, rebinds_define h hb⟩

/-- In scopes that operations have made, a chain ends, a name is read and assigned in the nearest
scope of the chain that binds it or fails if there is none, a distance names one scope of the
chain, and an assignment changes one binding. -/
theorem Reachable.shared_chain_laws (h : s.Reachable) (e : ScopeId) (x : Token) :
    (∃ n, s.ancestor? e n = none) ∧
    (∀ m n, s.ancestor? e (m + n) = (s.ancestor? e m).bind fun a => s.ancestor? a n) ∧
    (∀ d a, s.Nearest e x.lexeme d a →
      ∃ w, s.value? a x.lexeme = some w ∧ s.get e x = .ok w ∧ s.getAt e d x = .ok w) ∧
    (s.get e x = .error (undefined x) ↔
      ∀ d a, s.ancestor? e d = some a → s.binds a x.lexeme = false) ∧
    ∀ v,
      (((∃ s', s.assign e x v = .ok s') ↔ ∃ w, s.get e x = .ok w) ∧
        (∀ d a, s.Nearest e x.lexeme d a →
          ∃ s', s.assign e x v = .ok s' ∧ s.Rebinds a x.lexeme v s') ∧
        ∀ err, s.assign e x v = .error err →
          err = undefined x ∧ s.step (.assign e x v) = s) ∧
      ∀ d, ((∃ s', s.assignAt e d x v = .ok s') ↔ ∃ w, s.getAt e d x = .ok w) ∧
        (∀ s', s.assignAt e d x v = .ok s' →
          ∃ a, s.ancestor? e d = some a ∧ s.Rebinds a x.lexeme v s') ∧
        ∀ err, s.assignAt e d x v = .error err →
          err = undefined x ∧ s.step (.assignAt e d x v) = s := by
  have ho := h.older
  refine ⟨⟨e + 1, ho.ancestor?_eq_none e⟩, ancestor?_add s e, fun d a => ho.get_of_nearest,
    ho.get_eq_error_iff, fun v => ⟨⟨update_ok_iff ?_, fun d a hn => ho.assign_of_nearest hn v, ?_⟩,
    fun d => ⟨update_ok_iff ?_, fun s' => ho.rebinds_of_assignAt, ?_⟩⟩⟩
  · intro a ha
    obtain ⟨d, hn⟩ := ho.owner?_eq_some_iff.mp ha
    exact hn.binds
  · exact fun err herr => ⟨(update_error herr).2, step_error herr⟩
  · exact fun a ha => (Option.filter_eq_some_iff.mp ha).2
  · exact fun err herr => ⟨(update_error herr).2, step_error herr⟩

/-- Scope 3 finds the name in scope 1, which hides that of scope 0. Scope 2 was cut off from it. -/
theorem Reachable.shared_chain_laws_hidden :
    let x : Token := ⟨.identifier, "x", 1⟩
    let s := ((((((Scopes.empty.step .root).step (.child 0)).step (.child 0)).step (.child 1)).step
      (.define 0 "x" .nil)).step (.define 1 "x" (.bool true))).step (.clear 2)
    s.Reachable ∧ s.Nearest 3 "x" 1 1 ∧ ∃ s', s.assign 3 x (.bool false) = .ok s' ∧
      s'.get 1 x = .ok (.bool false) ∧ s'.get 0 x = .ok .nil ∧
      s'.get 2 x = .error (undefined x) := by
  intro x s
  have hs : s.Reachable := .step (.step (.step (.step (.step (.step (.step .empty (by decide))
    (by decide)) (by decide)) (by decide)) (by decide)) (by decide)) (by decide)
  have hnear : s.Nearest 3 "x" 1 1 :=
    nearest_succ.mpr ⟨by decide, 1, by decide, nearest_zero.mpr ⟨rfl, by decide⟩⟩
  obtain ⟨-, -, -, -, hassign⟩ := hs.shared_chain_laws 3 x
  obtain ⟨s', hok, hrebinds⟩ := (hassign (.bool false)).1.2.1 1 1 hnear
  refine ⟨hs, hnear, s', hok, hrebinds.seen 1 0 (nearest_zero.mpr ⟨rfl, by decide⟩) x rfl, ?_, ?_⟩
  · refine (hrebinds.unseen 0 x ?_).trans rfl
    rintro ⟨-, k, hn⟩
    exact absurd (hs.older.add_le hn.ancestor) (by simp)
  · refine (hrebinds.unseen 2 x ?_).trans rfl
    rintro ⟨-, k, hn⟩
    cases k with
    | zero => cases hn.ancestor
    | succ k =>
      obtain ⟨-, p, hp, -⟩ := nearest_succ.mp hn
      cases hp

end Treewalk.Scopes
