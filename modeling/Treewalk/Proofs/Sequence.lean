import Treewalk.Proofs.Scoping
import Treewalk.Proofs.Watch

/-!
# Programs one after the other

A program that the resolver accepts has no `return` outside of functions, so each of
its statements, if it ends, falls through to the next (`exec_falls`). A program that
completes can therefore be followed by another in the same run
(`interpret_append`).
-/

namespace Treewalk.Eval

/-- If the action ends, then not by a `return`. -/
def Falls (x : Eval Flow) : Prop :=
  ∀ m f m', x m = .ok f m' → f = .normal

theorem bind_ok {α β : Type} {x : Eval α} {g : α → Eval β} {m m' : Machine} {b : β}
    (h : (x >>= g) m = .ok b m') : ∃ a m₁, x m = .ok a m₁ ∧ g a m₁ = .ok b m' := by
  change EStateM.bind x g m = _ at h
  unfold EStateM.bind at h
  split at h
  · exact ⟨_, _, ‹_›, h⟩
  · cases h

theorem falls_pure : Falls (pure .normal) := fun _ _ _ h => by
  cases h
  rfl

theorem falls_bind {α : Type} {x : Eval α} {g : α → Eval Flow} (hg : ∀ a, Falls (g a)) :
    Falls (x >>= g) := fun _ _ _ h => by
  obtain ⟨a, m₁, _, h⟩ := bind_ok h
  exact hg a _ _ _ h

theorem falls_within {x : Eval Flow} (hx : Falls x) (scope : ScopeId) : Falls (within scope x) := by
  intro m f m' h
  unfold within at h
  split at h
  · cases h
    exact hx _ _ _ ‹_›
  · cases h

theorem falls_whileTrue (c : Eval Value) {b : Eval Flow} (hb : Falls b) (n : Nat) :
    Falls (whileTrue c b n) := by
  induction n with
  | zero => exact fun _ _ _ h => by cases h
  | succ n ih =>
    refine falls_bind fun v => ?_
    split
    · intro m f m' h
      obtain ⟨f', m₁, hf', h⟩ := bind_ok h
      obtain rfl := hb _ _ _ hf'
      exact ih _ _ _ h
    · exact falls_pure

theorem falls_runAll {ex : Stmt → Eval Flow} {l : List Stmt} (h : ∀ s ∈ l, Falls (ex s)) :
    Falls (runAll ex l) := by
  induction l with
  | nil => exact falls_pure
  | cons s l ih =>
    obtain ⟨hs, hl⟩ := List.forall_mem_cons.mp h
    intro m f m' h
    obtain ⟨f', m₁, hf', h⟩ := bind_ok h
    obtain rfl := hs _ _ _ hf'
    exact ih hl _ _ _ h

theorem falls_of_mem (fuel : Nat) {body : ClassBody}
    (ih : ∀ {κ κ' : List (Bindings Bool)} {s s' : Stmt}, Stmt.Scoped ⟨false, body⟩ κ s s' κ' →
      Falls (exec fuel s'))
    {κ κ' : List (Bindings Bool)} {l l' : List Stmt}
    (h : Stmt.ScopedAll ⟨false, body⟩ κ l l' κ') : ∀ s ∈ l', Falls (exec fuel s) := by
  intro s hs
  induction l generalizing κ l' with
  | nil =>
    cases h
    cases hs
  | cons _ l ihl =>
    cases h with | cons h hl =>
    rcases List.mem_cons.mp hs with rfl | hs
    · exact ih h
    · exact ihl hl hs

/-- Outside of functions, what the resolver accepts falls through. -/
theorem exec_falls (fuel : Nat) {body : ClassBody} {κ κ' : List (Bindings Bool)} {s s' : Stmt}
    (h : Stmt.Scoped ⟨false, body⟩ κ s s' κ') : Falls (exec fuel s') := by
  induction fuel generalizing s s' κ κ' with
  | zero =>
    rw [exec_zero]
    exact fun _ _ _ h => by cases h
  | succ n ih =>
    rw [exec_succ]
    cases h with
    | expression _ => exact falls_bind fun _ => falls_pure
    | print _ => exact falls_bind fun _ => falls_bind fun _ => falls_bind fun _ => falls_pure
    | declare _ _ => exact falls_bind fun _ => falls_bind fun _ => falls_pure
    | block hb => exact falls_bind fun _ => falls_bind fun scope => falls_within (falls_runAll (falls_of_mem n ih hb)) _
    | branch _ ht =>
      refine falls_bind fun v => ?_
      split
      · exact ih ht
      · exact falls_pure
    | choice _ ht ha =>
      refine falls_bind fun v => ?_
      split
      · exact ih ht
      · exact ih ha
    | loop _ ht => exact falls_whileTrue _ (ih ht) n
    | function _ _ _ =>
      exact falls_bind fun _ => falls_bind fun _ => falls_bind fun _ => falls_pure
    | leave hin _ => cases hin
    | base _ _ => exact falls_bind fun _ => falls_pure
    | derived _ _ _ => exact falls_bind fun _ => falls_pure

theorem runAll_append (ex : Stmt → Eval Flow) (p q : List Stmt) {m m' : Machine}
    (h : runAll ex p m = .ok .normal m') : runAll ex (p ++ q) m = runAll ex q m' := by
  induction p generalizing m with
  | nil =>
    cases h
    rfl
  | cons s p ih =>
    obtain ⟨f, m₁, hs, hp⟩ := bind_ok h
    cases f with
    | normal =>
      rw [List.cons_append, runAll]
      show EStateM.bind (ex s) _ m = _
      rw [EStateM.bind, hs]
      exact ih hp
    | returned v => cases hp

/-- A program that completes can be followed by another in the same run. -/
theorem interpret_append (fuel : Nat) {p p' : Program} (hp : p.Scoped p') (q : Program)
    {m m' : Machine} (h : interpret fuel p' m = .ok () m') :
    interpret fuel (p' ++ q) m = interpret fuel q m' := by
  obtain ⟨f, hrun⟩ : ∃ f, runAll (exec fuel) p' m = .ok f m' := by
    unfold interpret at h
    split at h
    · cases h
    · split at h <;> cases h
    · split at h <;> cases h
      exact ⟨_, ‹_›⟩
  obtain rfl := falls_runAll (falls_of_mem fuel (exec_falls fuel) hp) _ _ _ hrun
  rw [interpret, interpret, runAll_append _ _ _ hrun]

end Treewalk.Eval
