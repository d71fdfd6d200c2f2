import Treewalk.Proofs.Lockstep

/-!
# Actions in step

One rule for each action evaluation is made of: from machines that correspond,
the action ends in the same way in both runs, and the machines correspond again.
The rules for what allocates (`attach_sim`, `newFunction_sim`, `callFunction_sim`
and so on) rest on the laws of the correspondence for scopes; the other tables of
the store are the same up to the routines in them.
-/

namespace Treewalk

/-! ## Tables that grow -/

theorem rel_getElem?_push {α β : Type} {R : α → β → Prop} {xs : Array α} {ys : Array β}
    (hsize : xs.size = ys.size) (h : ∀ i : Nat, Option.Rel R xs[i]? ys[i]?) {a : α} {b : β}
    (hab : R a b) (i : Nat) : Option.Rel R (xs.push a)[i]? (ys.push b)[i]? := by
  rw [Array.getElem?_push, Array.getElem?_push, hsize]
  split
  · exact .some hab
  · exact h i

theorem optionRel_imp {α β : Type} {R S : α → β → Prop} (h : ∀ a b, R a b → S a b)
    {x : Option α} {y : Option β} (hr : Option.Rel R x y) : Option.Rel S x y := by
  cases hr with
  | some hab => exact .some (h _ _ hab)
  | none => exact .none

namespace Bindings.Rel

variable {α β : Type} {R S : α → β → Prop} {b : Bindings α} {b' : Bindings β}

theorem imp (h : ∀ x y, R x y → S x y) (hb : b.Rel R b') : b.Rel S b' :=
  List.Forall₂.imp (fun _ _ hxy => ⟨hxy.1, h _ _ hxy.2⟩) hb

theorem get? (hb : b.Rel R b') (name : String) : Option.Rel R (b.get? name) (b'.get? name) := by
  obtain ⟨entries⟩ := b
  obtain ⟨entries'⟩ := b'
  show Option.Rel R (lookup name entries) (lookup name entries')
  replace hb : List.Forall₂ (fun p q => p.1 = q.1 ∧ R p.2 q.2) entries entries' := hb
  induction hb with
  | nil => exact .none
  | @cons p q _ _ hpq _ ih =>
    simp only [lookup, ← hpq.1]
    split
    · exact .some hpq.2
    · exact ih

theorem replace {entries : List (String × α)} {entries' : List (String × β)}
    (h : List.Forall₂ (fun p q => p.1 = q.1 ∧ R p.2 q.2) entries entries') (name : String) {x : α}
    {y : β} (hxy : R x y) : List.Forall₂ (fun p q => p.1 = q.1 ∧ R p.2 q.2)
      (Bindings.replace name x entries) (Bindings.replace name y entries') := by
  induction h with
  | nil => exact .nil
  | @cons p q _ _ hpq hrest ih =>
    simp only [Bindings.replace, ← hpq.1]
    split
    · exact .cons ⟨rfl, hxy⟩ hrest
    · exact .cons ⟨rfl, hpq.2⟩ ih

theorem insert (hb : b.Rel R b') (name : String) {x : α} {y : β} (hxy : R x y) :
    (b.insert name x).Rel R (b'.insert name y) := by
  have hc : b.contains name = b'.contains name := by
    have h := hb.get? name
    unfold contains
    revert h
    generalize b.get? name = u
    generalize b'.get? name = u'
    rintro (_ | _) <;> rfl
  unfold Bindings.insert
  rw [← hc]
  split
  · exact replace hb name hxy
  · exact .cons ⟨rfl, hxy⟩ hb

end Bindings.Rel

/-! ## Variables by their recorded distance -/

theorem Eval.lookUp_eq (r : Reference) {m : Machine} {s : ScopeId} (h : m.scope = s) :
    Eval.lookUp r m = Eval.lift (m.store.scopes.find s r.depth r.name) m := by
  subst h
  unfold Eval.lookUp Scopes.find
  cases r.depth <;> rfl

theorem Eval.assign_eq (r : Reference) (v : Value) {m : Machine} {s : ScopeId} (h : m.scope = s) :
    Eval.assign r v m =
      match m.store.scopes.target? s r.depth r.name.lexeme with
      | some id => .ok () { m with store := m.store.define id r.name.lexeme v }
      | none => .error (.fault (Scopes.undefined r.name)) m := by
  subst h
  unfold Eval.assign Scopes.target?
  cases r.depth <;> rfl

namespace Correspondence

variable {C : Correspondence} {α β γ δ : Type} {w w' : C.World} {s : ScopeId} {κ : C.Ctx}
  {P : C.World → α → β → Prop} {Q : C.World → γ → δ → Prop}

/-! ## What is known stays known -/

theorem Functions.mono (hw : C.le w w') {f f' : Closure} (h : C.Functions w f f') :
    C.Functions w' f f' := by
  obtain ⟨κ, hκ, hr⟩ := h.routine
  exact ⟨h.scope, h.role, κ, C.stands_mono hw hκ, hr⟩

theorem Methods.mono (hw : C.le w w') {f f' : Closure} (h : C.Methods w f f') :
    C.Methods w' f f' := by
  obtain ⟨κ, hκ, hr⟩ := h.routine
  exact ⟨h.scope, h.role, κ, C.stands_mono hw hκ, hr⟩

theorem Classes.mono (hw : C.le w w') {c c' : ClassInfo} (h : C.Classes w c c') :
    C.Classes w' c c' :=
  ⟨h.name, h.superclass, h.methods.imp fun _ _ => Methods.mono hw⟩

/-- Only the scopes of two stores have changed. -/
theorem Stores.withScopes (hw : C.le w w') {st st' : Store} (h : C.Stores w st st')
    {σ σ' : Scopes} (hσ : C.scopes w' σ σ') :
    C.Stores w' { st with scopes := σ } { st' with scopes := σ' } :=
  ⟨hσ, h.functionCount, fun id => optionRel_imp (fun _ _ => Functions.mono hw) (h.functions id),
    h.natives, h.classCount, fun id => optionRel_imp (fun _ _ => Classes.mono hw) (h.classes id),
    h.instances⟩

theorem Machines.withScopes (hw : C.le w w') {m m' : Machine} (h : C.Machines w s m m')
    {σ σ' : Scopes} (hσ : C.scopes w' σ σ') :
    C.Machines w' s { m with store := { m.store with scopes := σ } }
      { m' with store := { m'.store with scopes := σ' } } :=
  ⟨h.store.withScopes hw hσ, h.scope, h.scope', h.depth, h.out, h.clock, h.ticks⟩

theorem Ends.mono {w₁ : C.World} (hw : C.le w w₁) {r : EStateM.Result Stop Machine α}
    {r' : EStateM.Result Stop Machine β} (h : C.Ends w₁ s P r r') : C.Ends w s P r r' := by
  cases h with
  | ok hle hm hp => exact .ok (C.le_trans hw hle) hm hp
  | error hle hm he => exact .error (C.le_trans hw hle) hm he

/-- A machine corresponds to itself if its scopes, functions and methods do. -/
theorem Machines.self {m : Machine} (hσ : C.scopes w m.store.scopes m.store.scopes)
    (hfunctions : ∀ (id : FunctionId) f, m.store.functions[id]? = some f → C.Functions w f f)
    (hmethods : ∀ (id : ClassId) c, m.store.classes[id]? = some c → ∀ p ∈ c.methods.entries,
      C.Methods w p.2 p.2) : C.Machines w m.scope m m where
  store :=
    { scopes := hσ
      functionCount := rfl
      functions id := by
        cases hf : m.store.functions[id]? with
        | none => exact .none
        | some f => exact .some (hfunctions id f hf)
      natives := rfl
      classCount := rfl
      classes id := by
        cases hc : m.store.classes[id]? with
        | none => exact .none
        | some c =>
          exact .some ⟨rfl, rfl, List.forall₂_same.mpr fun p hp => ⟨rfl, hmethods id c hc p hp⟩⟩
      instances := rfl }
  scope := rfl
  scope' := rfl
  depth := rfl
  out := rfl
  clock := rfl
  ticks := rfl

/-! ## Composing actions -/

theorem sim_pure {a : α} {b : β} (h : P w a b) : C.Sim w s P (pure a) (pure b) :=
  fun _ _ hm => .ok (C.le_refl w) hm h

theorem sim_bind {x : Eval α} {y : Eval β} {f : α → Eval γ} {g : β → Eval δ} (hx : C.Sim w s P x y)
    (hf : ∀ w' a b, C.le w w' → P w' a b → C.Sim w' s Q (f a) (g b)) :
    C.Sim w s Q (x >>= f) (y >>= g) := by
  intro m m' hm
  show C.Ends w s Q (EStateM.bind x f m) (EStateM.bind y g m')
  unfold EStateM.bind
  have h := hx m m' hm
  revert h
  generalize x m = r
  generalize y m' = r'
  intro h
  cases h with
  | ok hle hm hp => exact (hf _ _ _ hle hp _ _ hm).mono hle
  | error hle hm he => exact .error hle hm he

theorem Sim.imp {P' : C.World → α → β → Prop} {x : Eval α} {y : Eval β} (h : C.Sim w s P x y)
    (hp : ∀ w' a b, C.le w w' → P w' a b → P' w' a b) : C.Sim w s P' x y := by
  intro m m' hm
  have hr := h m m' hm
  revert hr
  generalize x m = r
  generalize y m' = r'
  intro hr
  cases hr with
  | ok hle hm hq => exact .ok hle hm (hp _ _ _ hle hq)
  | error hle hm he => exact .error hle hm he

theorem sim_exhausted : C.Sim w s P Eval.exhausted Eval.exhausted :=
  fun _ _ hm => .error (C.le_refl w) hm .exhausted

theorem sim_fail {t t' : Token} {f : RuntimeFault} (h : C.fault (.runtime t f) (.runtime t' f)) :
    C.Sim w s P (Eval.fail t f) (Eval.fail t' f) :=
  fun _ _ hm => .error (C.le_refl w) hm (.fault h)

theorem sim_liftAt {t t' : Token} {x : Except RuntimeFault α}
    (h : ∀ f, x = .error f → C.fault (.runtime t f) (.runtime t' f)) :
    C.Sim w s C.Same (Eval.liftAt t x) (Eval.liftAt t' x) := by
  cases x with
  | ok a => exact sim_pure rfl
  | error f => exact sim_fail (h f rfl)

theorem sim_lift {x y : Except Diagnostic Value} (h : Answers C.fault x y) :
    C.Sim w s C.Same (Eval.lift x) (Eval.lift y) := by
  cases h with
  | ok v => exact sim_pure rfl
  | error hd => exact fun _ _ hm => .error (C.le_refl w) hm (.fault hd)

theorem sim_inspect {f : Store → α} {g : Store → β}
    (h : ∀ st st', C.Stores w st st' → P w (f st) (g st')) :
    C.Sim w s P (Eval.inspect f) (Eval.inspect g) :=
  fun _ _ hm => .ok (C.le_refl w) hm (h _ _ hm.store)

theorem sim_currentScope :
    C.Sim w s (fun _ a b => a = s ∧ b = s) Eval.currentScope Eval.currentScope :=
  fun _ _ hm => .ok (C.le_refl w) hm ⟨hm.scope, hm.scope'⟩

/-- Two actions in step in another scope are in step where they are entered from. -/
theorem sim_within {s₀ : ScopeId} {x : Eval α} {y : Eval β} (h : C.Sim w s₀ P x y) :
    C.Sim w s P (Eval.within s₀ x) (Eval.within s₀ y) := by
  intro m m' hm
  have hr := h { m with scope := s₀ } { m' with scope := s₀ }
    ⟨hm.store, rfl, rfl, hm.depth, hm.out, hm.clock, hm.ticks⟩
  unfold Eval.within
  revert hr
  generalize x { m with scope := s₀ } = r
  generalize y { m' with scope := s₀ } = r'
  intro hr
  cases hr with
  | ok hle h₁ hp =>
    exact .ok hle ⟨h₁.store, hm.scope, hm.scope', h₁.depth, h₁.out, h₁.clock, h₁.ticks⟩ hp
  | error hle h₁ he =>
    exact .error hle ⟨h₁.store, hm.scope, hm.scope', h₁.depth, h₁.out, h₁.clock, h₁.ticks⟩ he

/-- Both calls are nested too deeply, or neither. -/
theorem ends_nested {t t' : Token} (ht : C.token κ t t') {x : Eval α} {y : Eval β} {m m' : Machine}
    (hm : C.Machines w s m m')
    (h : ∀ d, C.Ends w s P (x { m with depth := d }) (y { m' with depth := d })) :
    C.Ends w s P (Eval.nested t x m) (Eval.nested t' y m') := by
  unfold Eval.nested
  rw [← hm.depth]
  split
  · exact .error (C.le_refl w) hm (.fault (C.fault_token rfl ht))
  · have hr := h (m.depth + 1)
    revert hr
    generalize x { m with depth := m.depth + 1 } = r
    generalize y { m' with depth := m.depth + 1 } = r'
    intro hr
    cases hr with
    | ok hle h₁ hp =>
      refine .ok hle ⟨h₁.store, h₁.scope, h₁.scope', ?_, h₁.out, h₁.clock, h₁.ticks⟩ hp
      show _ - 1 = _ - 1
      rw [h₁.depth]
    | error hle h₁ he =>
      refine .error hle ⟨h₁.store, h₁.scope, h₁.scope', ?_, h₁.out, h₁.clock, h₁.ticks⟩ he
      show _ - 1 = _ - 1
      rw [h₁.depth]

/-! ## Variables -/

theorem lookUp_sim {κ : C.Ctx} (hκ : C.stands w κ s) {r r' : Reference} (h : C.Ref κ r r') :
    C.Sim w s C.Same (Eval.lookUp r) (Eval.lookUp r') := by
  intro m m' hm
  have hf := C.find hm.store.scopes hκ h.2
  rw [Eval.lookUp_eq r hm.scope, Eval.lookUp_eq r' hm.scope', ← h.1]
  exact sim_lift hf m m' hm

theorem assign_sim {κ : C.Ctx} (hκ : C.stands w κ s) {x : Expr} {r r' : Reference} {e e' : Expr}
    (h : C.expr κ x (.assign r' e')) (hx : C.reading.expr x = .assign r e) (v : Value) :
    C.Sim w s C.Same (Eval.assign r v) (Eval.assign r' v) := by
  intro m m' hm
  rw [Eval.assign_eq r v hm.scope, Eval.assign_eq r' v hm.scope']
  rcases C.assign v hm.store.scopes hκ h hx with ⟨id, id', w', hid, hid', hle, hσ⟩ | ⟨hn, hn', hf⟩
  · rw [hid, hid']
    exact .ok hle (hm.withScopes hle hσ) rfl
  · rw [hn, hn']
    exact .error (C.le_refl w) hm (.fault hf)

theorem define_sim {κ κ' : C.Ctx} (hκ : C.stands w κ s) {n n' : Token} (h : C.declares κ n n' κ')
    (v : Value) :
    C.Sim w s (fun w' _ _ => C.stands w' κ' s) (Eval.define n.lexeme v)
      (Eval.define n'.lexeme v) := by
  intro m m' hm
  obtain ⟨w', hle, hσ, hκ'⟩ := C.define v hm.store.scopes hκ h
  have e : Eval.define n.lexeme v m = .ok () { m with store := m.store.define s n.lexeme v } := by
    rw [← hm.scope]; rfl
  have e' : Eval.define n'.lexeme v m' =
      .ok () { m' with store := m'.store.define s n'.lexeme v } := by
    rw [← hm.scope']; rfl
  rw [e, e']
  exact .ok hle (hm.withScopes hle hσ) hκ'

theorem printLine_sim (text : String) :
    C.Sim w s C.Same (Eval.printLine text) (Eval.printLine text) := by
  rintro ⟨st, sc, dp, out, ck, tk⟩ ⟨st', sc', dp', out', ck', tk'⟩ hm
  obtain ⟨hst, hsc, hsc', hdp, hout, hck, htk⟩ := hm
  simp only at hsc hsc' hdp hout hck htk
  subst hout
  simp only [Eval.printLine]
  cases h : out.write (text ++ "\n") with
  | mk res o =>
    cases res with
    | ok u => exact .ok (C.le_refl w) ⟨hst, hsc, hsc', hdp, rfl, hck, htk⟩ rfl
    | error f =>
      exact .error (C.le_refl w) ⟨hst, hsc, hsc', hdp, rfl, hck, htk⟩ (.fault (C.fault_channel f))

theorem readClock_sim : C.Sim w s C.Same Eval.readClock Eval.readClock := by
  intro m m' hm
  refine .ok (C.le_refl w) ⟨hm.store, hm.scope, hm.scope', hm.depth, hm.out, hm.clock, ?_⟩ ?_
  · show _ + 1 = _ + 1
    rw [hm.ticks]
  · show Value.number _ = Value.number _
    rw [hm.clock, hm.ticks]

end Correspondence

end Treewalk
