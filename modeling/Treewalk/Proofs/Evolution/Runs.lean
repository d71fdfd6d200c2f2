import Mathlib.Data.List.Induction
import Treewalk.Proofs.Evolution
import Treewalk.Proofs.Lockstep.Actions
import Treewalk.Proofs.Sinks
import Treewalk.Proofs.Watch

/-!
# Runs change the store step by step

Whatever a program over a vocabulary does to the store, it does in the steps that `Store.Step`
lists. `Eval.Leads` says so of two runs at once, of which the first may be stopped earlier:
the store of the first comes from the one at the start by steps, and that of the second from
it by further steps. So it speaks of any two moments of a run, in their order.

It also says how the second run ends: with a result that the store has, or with a fault at a
token of the vocabulary (`Stop.At`). The one other fault is a `this` that is not found, since
the token for it is made where it is looked up.
-/

namespace Treewalk

/-- Why a run over the vocabulary stops: the watch said so, there was a fault at a token, a
`this` was missing, the sink was full, or the fuel was used up. -/
inductive Stop.At (V : Vocabulary) (w : Watch) (out : Sink) : Stop → Prop
  | watch {n : Node} {m : Machine} {e : Stop} : w n m = some e → At V w out e
  | token {t : Token} (f : RuntimeFault) : V.token t → At V w out (.fault (.runtime t f))
  | this (line : Nat) : At V w out (.fault (Scopes.undefined (.named "this" line)))
  | channel (f : ChannelFault) : out.limit ≠ none → At V w out (.fault (.channel f))
  | exhausted : At V w out .exhausted

theorem Stop.At.of_bounds {V : Vocabulary} {w : Watch} {out out' : Sink} {e : Stop}
    (h : out'.bounds = out.bounds) (he : e.At V w out') : e.At V w out := by
  cases he with
  | watch h => exact .watch h
  | token f ht => exact .token f ht
  | this line => exact .this line
  | channel f hlimit => exact .channel f fun hnone => hlimit ((congrArg Prod.fst h).trans hnone)
  | exhausted => exact .exhausted

/-- A value that is returned is one that the store has. -/
def Store.HasFlow (s : Store) : Flow → Prop
  | .normal => True
  | .returned v => s.Has v

theorem Store.has_unary (s : Store) {op : Kind} {u v : Value} (h : Value.unary op u = .ok v) :
    s.Has v := by
  unfold Value.unary at h
  repeat' split at h
  all_goals cases h <;> trivial

theorem Store.has_binary (s : Store) {op : Kind} {a b v : Value} (h : Value.binary op a b = .ok v) :
    s.Has v := by
  unfold Value.binary Value.arithmetic at h
  repeat' split at h
  all_goals cases h <;> trivial

/-- A scope that binds nothing yet. -/
structure Store.Fresh (s : Store) (id : ScopeId) : Prop where
  lt_next : id < s.scopes.next
  binds : ∀ name, s.scopes.binds id name = false

/-- A machine with a sound store, in a scope of it. -/
structure Machine.Sound (V : Vocabulary) (m : Machine) : Prop where
  store : m.store.Sound V
  scope : m.scope < m.store.scopes.next

/-- The machine `m'` stands in the scope of `m` and writes to the same kind of sink, and its
store comes from that of `m` by steps. -/
structure Machine.Leads (V : Vocabulary) (m m' : Machine) : Prop where
  steps : m.store.Steps V m'.store
  scope : m'.scope = m.scope
  out : m'.out.bounds = m.out.bounds

namespace Machine

variable {V : Vocabulary} {m m' m'' : Machine}

theorem Leads.refl (m : Machine) : m.Leads V m :=
  ⟨.refl, rfl, rfl⟩

theorem Leads.trans (h : m.Leads V m') (h' : m'.Leads V m'') : m.Leads V m'' :=
  ⟨h.steps.trans h'.steps, h'.scope.trans h.scope, h'.out.trans h.out⟩

theorem Leads.grows (h : m.Leads V m') : m.store.Grows m'.store :=
  Store.Steps.grows h.steps

theorem Leads.sound (h : m.Leads V m') (hm : m.Sound V) : m'.Sound V := by
  refine ⟨Store.Steps.sound h.steps hm.store, ?_⟩
  rw [h.scope]
  exact Nat.lt_of_lt_of_le hm.scope h.grows.scopes.next

theorem leads_step {store : Store} (h : m.store.Step V store) : m.Leads V { m with store } :=
  ⟨.single h, rfl, rfl⟩

theorem sound_start (out : Sink) (clock : Nat → Float) : (Machine.start out clock).Sound V := by
  have hnext : (Machine.start out clock).store.scopes.next = 1 := rfl
  have hvalue : ∀ id name, (Machine.start out clock).store.scopes.value? id name =
      if Machine.globals = id ∧ "clock" = name then some (.native 0) else none := by
    intro id name
    refine (Scopes.value?_define (s := Scopes.empty.push none) Nat.zero_lt_one ..).trans ?_
    rw [Scopes.value?_push]
    rfl
  refine ⟨⟨⟨Nat.zero_lt_one, rfl⟩, fun id hne hlt => ?_, fun id name v hv => ?_, fun _ _ hf => ?_,
    fun id f hf => ?_, fun _ _ hc => ?_, fun _ _ hc => ?_, fun _ _ ho => ?_, fun _ _ ho => ?_⟩,
    Nat.zero_lt_one⟩
  · rw [hnext] at hlt
    exact absurd (Nat.lt_one_iff.mp hlt) hne
  · rw [hvalue] at hv
    split at hv
    · cases hv
      exact Nat.zero_lt_one
    · cases hv
  · cases hf
  · rcases getElem?_push_cases (show (#[].push Native.clock)[id]? = some f from hf) with ⟨_, rfl⟩ | hf
    · rfl
    · cases hf
  all_goals first | cases hc | cases ho

end Machine

namespace Eval

variable {α β : Type} {V : Vocabulary} {w : Watch}

/-- How a run from `m` ends: with a result that `P` holds of in the store, or with a stop. -/
inductive Ends (V : Vocabulary) (w : Watch) (P : Store → α → Prop) (m : Machine) :
    EStateM.Result Stop Machine α → Prop
  | ok {a : α} {m' : Machine} : m.Leads V m' → P m'.store a → Ends V w P m (.ok a m')
  | error {e : Stop} {m' : Machine} : m.Leads V m' → e.At V w m.out → Ends V w P m (.error e m')

/-- How two runs from `m` end: in the same way, or the first was stopped where the second
goes on. -/
inductive Led (V : Vocabulary) (w : Watch) (P : Store → α → Prop) (m : Machine) :
    EStateM.Result Stop Machine α → EStateM.Result Stop Machine α → Prop
  | same {r : EStateM.Result Stop Machine α} : Ends V w P m r → Led V w P m r r
  | cut {e : Stop} {m₁ : Machine} {r : EStateM.Result Stop Machine α} :
    m.store.Steps V m₁.store → m₁.store.Steps V (after r).store → Ends V w P m r →
    Led V w P m (.error e m₁) r

/-- The first action, run from `m`, may be stopped earlier than the second. -/
def Leads (V : Vocabulary) (w : Watch) (P : Store → α → Prop) (m : Machine) (x y : Eval α) : Prop :=
  Led V w P m (x m) (y m)

variable {P : Store → α → Prop} {Q : Store → β → Prop} {m m' : Machine}

theorem Ends.leads {r : EStateM.Result Stop Machine α} (h : Ends V w P m r) :
    m.Leads V (after r) := by
  cases h with
  | ok h _ => exact h
  | error h _ => exact h

theorem Led.ends {r r' : EStateM.Result Stop Machine α} (h : Led V w P m r r') :
    Ends V w P m r' := by
  cases h with
  | same h => exact h
  | cut _ _ h => exact h

theorem Led.steps {r r' : EStateM.Result Stop Machine α} (h : Led V w P m r r') :
    m.store.Steps V (after r).store ∧ (after r).store.Steps V (after r').store := by
  cases h with
  | same h => exact ⟨h.leads.steps, .refl⟩
  | cut h h' _ => exact ⟨h, h'⟩

theorem Ends.of_leads {r : EStateM.Result Stop Machine α} (h : m.Leads V m')
    (hr : Ends V w P m' r) : Ends V w P m r := by
  cases hr with
  | ok h' hp => exact .ok (h.trans h') hp
  | error h' he => exact .error (h.trans h') (he.of_bounds h.out)

theorem Led.of_leads {r r' : EStateM.Result Stop Machine α} (h : m.Leads V m')
    (hr : Led V w P m' r r') : Led V w P m r r' := by
  cases hr with
  | same hr => exact .same (hr.of_leads h)
  | cut h₁ h₂ hr => exact .cut (h.steps.trans h₁) h₂ (hr.of_leads h)

/-! ## Actions -/

theorem leads_pure {a : α} (h : P m.store a) :
    Leads V w P m (pure a) (pure a) :=
  .same (.ok (.refl m) h)

/-- One action after another: the second goes on from where the first leads. -/
theorem Leads.bind {x y : Eval α} {f g : α → Eval β} (hm : m.Sound V) (hx : Leads V w P m x y)
    (hf : ∀ a m', m.Leads V m' → m'.Sound V → P m'.store a → Leads V w Q m' (f a) (g a)) :
    Leads V w Q m (x >>= f) (y >>= g) := by
  show Led V w Q m (EStateM.bind x f m) (EStateM.bind y g m)
  unfold Leads at hx
  unfold EStateM.bind
  generalize x m = r at hx ⊢
  generalize y m = r' at hx ⊢
  cases hx with
  | same h =>
    cases h with
    | ok h hp => exact .of_leads h (hf _ _ h (h.sound hm) hp)
    | error h he => exact .same (.error h he)
  | cut h₁ h₂ h =>
    cases h with
    | @ok a m' h hp =>
      have hg := (hf a m' h (h.sound hm) hp).ends
      exact .cut h₁ (h₂.trans hg.leads.steps) (hg.of_leads h)
    | error h he => exact .cut h₁ h₂ (.error h he)

/-- Something is read from the store and used. -/
theorem leads_inspect (f : Store → α) {k k' : α → Eval β}
    (h : Leads V w Q m (k (f m.store)) (k' (f m.store))) :
    Leads V w Q m (inspect f >>= k) (inspect f >>= k') := h

theorem leads_currentScope {k k' : ScopeId → Eval β}
    (h : Leads V w Q m (k m.scope) (k' m.scope)) :
    Leads V w Q m (currentScope >>= k) (currentScope >>= k') := h

theorem leads_exhausted : Leads V w P m exhausted exhausted :=
  .same (.error (.refl m) .exhausted)

theorem leads_fail {t : Token} (ht : V.token t) (f : RuntimeFault) :
    Leads V w P m (fail t f) (fail t f) :=
  .same (.error (.refl m) (.token f ht))

theorem leads_liftAt {t : Token} (ht : V.token t) {x : Except RuntimeFault α}
    (hx : ∀ a, x = .ok a → P m.store a) : Leads V w P m (liftAt t x) (liftAt t x) := by
  cases x with
  | ok a => exact leads_pure (hx a rfl)
  | error f => exact leads_fail ht f

theorem leads_modifyStore {f : Store → Store} (h : m.store.Step V (f m.store)) :
    Leads V w (fun _ _ => True) m (modifyStore f) (modifyStore f) :=
  .same (.ok (Machine.leads_step h) trivial)

theorem leads_newScope {parent : ScopeId} (h : parent < m.store.scopes.next) :
    Leads V w Store.Fresh m (newScope parent) (newScope parent) := by
  refine .same (.ok (Machine.leads_step (.scope h)) ⟨?_, fun name => ?_⟩)
  · simp [Store.pushScope]
  · simp [Store.pushScope, Scopes.binds, Scopes.value?_of_next_le]

theorem leads_newFunction {f : Closure} (h : f.In V m.store) :
    Leads V w Store.Has m (newFunction f) (newFunction f) := by
  refine .same (.ok (Machine.leads_step (.function h)) ?_)
  simp [Store.Has, Store.pushFunction]

theorem leads_newInstance {c : ClassId} (h : c < m.store.classes.size) :
    Leads V w (fun s id => s.Has (.object id)) m (newInstance c) (newInstance c) := by
  refine .same (.ok (Machine.leads_step (.object h)) ?_)
  simp [Store.Has, Store.pushInstance]

theorem leads_newClass {c : ClassInfo} (hsuper : ∀ parent ∈ c.superclass, parent < m.store.classes.size)
    (hmethods : ∀ name f, c.methods.get? name = some f → f.In V m.store) :
    Leads V w Store.Has m (newClass c) (newClass c) := by
  refine .same (.ok (Machine.leads_step (.cls hsuper hmethods)) ?_)
  simp [Store.Has, Store.pushClass]

theorem leads_define (hm : m.Sound V) {name : String} (hn : V.name name) {v : Value}
    (hv : m.store.Has v) :
    Leads V w (fun _ _ => True) m (define name v) (define name v) :=
  .same (.ok (Machine.leads_step (.bind hm.scope hv (.inl hn))) trivial)

theorem leads_readClock : Leads V w Store.Has m readClock readClock :=
  .same (.ok ⟨.refl, rfl, rfl⟩ trivial)

theorem leads_printLine (text : String) :
    Leads V w (fun _ _ => True) m (printLine text) (printLine text) := by
  obtain ⟨store, scope, depth, out, clock, ticks⟩ := m
  unfold Leads
  simp only [printLine]
  have hbounds := out.bounds_write (text ++ "\n")
  have hfull : ∀ f, (out.write (text ++ "\n")).1 = .error f → out.limit ≠ none := by
    intro f hf hnone
    rw [Sink.write_of_unlimited hnone] at hf
    cases hf
  generalize out.write (text ++ "\n") = written at hbounds hfull ⊢
  rcases written with ⟨f | _, out'⟩
  · exact .same (.error ⟨.refl, rfl, hbounds⟩ (.channel f (hfull f rfl)))
  · exact .same (.ok ⟨.refl, rfl, hbounds⟩ trivial)

/-- What a name is bound to is a value of the store. -/
theorem leads_valueOf (hm : m.Sound V) (owner : Option ScopeId) {t : Token}
    (ht : Stop.At V w m.out (.fault (Scopes.undefined t))) :
    Leads V w Store.Has m (lift (m.store.scopes.valueOf owner t))
      (lift (m.store.scopes.valueOf owner t)) := by
  unfold Scopes.valueOf
  split
  · next v hv =>
    obtain ⟨id, _, hid⟩ := Option.bind_eq_some_iff.mp hv
    exact leads_pure (hm.store.values id _ v hid)
  · exact .same (.error (.refl m) ht)

theorem leads_lookUp (hm : m.Sound V) {ref : Reference} (ht : V.token ref.name) :
    Leads V w Store.Has m (lookUp ref) (lookUp ref) := by
  unfold Leads lookUp
  dsimp only
  split
  · exact leads_valueOf hm _ (.token _ ht)
  · exact leads_valueOf hm _ (.token _ ht)

theorem leads_receiverOf (hm : m.Sound V) (f : Closure) :
    Leads V w Store.Has m (receiverOf f) (receiverOf f) :=
  leads_valueOf hm _ (.this _)

/-- A name is looked up at a distance, and its value used. -/
theorem leads_found (hm : m.Sound V) (scope : ScopeId) (d : Nat) {t : Token}
    (ht : Stop.At V w m.out (.fault (Scopes.undefined t))) {k k' : Value → Eval β}
    (hk : ∀ v, m.store.Has v → Leads V w Q m (k v) (k' v)) :
    Leads V w Q m (do k (← lift (← inspect fun s => s.scopes.getAt scope d t)))
      (do k' (← lift (← inspect fun s => s.scopes.getAt scope d t))) := by
  refine leads_inspect (fun s => s.scopes.getAt scope d t) ?_
  have h := leads_valueOf hm (m.store.scopes.ownerAt? scope d t.lexeme) ht
  unfold Scopes.getAt
  generalize m.store.scopes.valueOf (m.store.scopes.ownerAt? scope d t.lexeme) t = found at h ⊢
  cases found with
  | ok v =>
    cases h with
    | same h => cases h with | ok _ hv => exact hk v hv
  | error d =>
    cases h with
    | same h => cases h with | error h he => exact .same (.error h he)
    | cut _ _ h => cases h with | error h he => exact .same (.error h he)

theorem leads_assign {ref : Reference} (ht : V.Binds ref.name) {v : Value} (hv : m.store.Has v) :
    Leads V w (fun _ _ => True) m (assign ref v) (assign ref v) := by
  unfold Leads
  rw [assign_eq ref v rfl]
  split
  · next id hid =>
    exact .same (.ok (Machine.leads_step (.bind (Scopes.target?_lt_next hid) hv (.inl ht.name)))
      trivial)
  · exact .same (.error (.refl m) (.token _ ht.token))

/-- Code that ran in another scope comes back to the one it was run from. -/
theorem Ends.back {scope : ScopeId} {r : EStateM.Result Stop Machine α} :
    Ends V w P { m with scope } r →
    Ends V w P m (match r with
      | .ok a m' => .ok a { m' with scope := m.scope }
      | .error e m' => .error e { m' with scope := m.scope }) := by
  intro h
  cases h with
  | ok h hp => exact .ok ⟨h.steps, rfl, h.out⟩ hp
  | error h he => exact .error ⟨h.steps, rfl, h.out⟩ he

theorem leads_within {scope : ScopeId} {x y : Eval α}
    (h : Leads V w P { m with scope } x y) :
    Leads V w P m (within scope x) (within scope y) := by
  unfold Leads at h ⊢
  unfold within
  dsimp only
  generalize x { m with scope } = r at h ⊢
  generalize y { m with scope } = r' at h ⊢
  cases h with
  | same h => exact .same h.back
  | cut h₁ h₂ h =>
    refine .cut h₁ ?_ h.back
    cases r' <;> exact h₂

/-- A call that ends leaves one level of nesting. -/
theorem Ends.up {r : EStateM.Result Stop Machine α} :
    Ends V w P { m with depth := m.depth + 1 } r →
    Ends V w P m (match r with
      | .ok a m' => .ok a { m' with depth := m'.depth - 1 }
      | .error e m' => .error e { m' with depth := m'.depth - 1 }) := by
  intro h
  cases h with
  | ok h hp => exact .ok ⟨h.steps, h.scope, h.out⟩ hp
  | error h he => exact .error ⟨h.steps, h.scope, h.out⟩ he

theorem leads_nested {paren : Token} (ht : V.token paren) {x y : Eval α}
    (h : Leads V w P { m with depth := m.depth + 1 } x y) :
    Leads V w P m (nested paren x) (nested paren y) := by
  unfold Leads at h ⊢
  unfold nested
  split
  · exact .same (.error (.refl m) (.token _ ht))
  · generalize x { m with depth := m.depth + 1 } = r at h ⊢
    generalize y { m with depth := m.depth + 1 } = r' at h ⊢
    cases h with
    | same h => exact .same h.up
    | cut h₁ h₂ h =>
      refine .cut h₁ ?_ h.up
      cases r' <;> exact h₂

/-- Of two watches the second stops a run only where the first does. -/
theorem leads_watched {watch : Watch} (hw : ∀ n m e, w n m = some e → watch n m = some e)
    (node : Node) {x y : Eval α} (h : Leads V w P m x y) :
    Leads V w P m (watched watch node x) (watched w node y) := by
  unfold Leads watched
  cases hstop : w node m with
  | some e =>
    rw [hw node m e hstop]
    exact .same (.error (.refl m) (.watch hstop))
  | none =>
    cases watch node m with
    | some e => exact .cut .refl h.ends.leads.steps h.ends
    | none => exact h

/-! ## Objects -/

theorem leads_attach (hm : m.Sound V) {f : Closure} (hf : f.In V m.store) {o : InstanceId}
    (ho : m.store.Has (.object o)) :
    Leads V w (Closure.In V) m (attach f o) (attach f o) := by
  refine .bind hm (leads_newScope hf.scope) fun scope m₁ h₁ hm₁ hscope => ?_
  refine .bind hm₁ (leads_modifyStore (.bind hscope.lt_next (ho.mono h₁.grows)
    (.inr (hscope.binds _)))) fun _ m₂ h₂ _ _ => ?_
  exact leads_pure ⟨Nat.lt_of_lt_of_le hscope.lt_next h₂.grows.scopes.next, hf.routine⟩

theorem leads_boundMethod (hm : m.Sound V) {f : Closure} (hf : f.In V m.store) {o : InstanceId}
    (ho : m.store.Has (.object o)) :
    Leads V w Store.Has m (boundMethod f o) (boundMethod f o) :=
  .bind hm (leads_attach hm hf ho) fun _ _ _ _ hf' => leads_newFunction hf'

theorem leads_defineAll (hm : m.Sound V) {scope : ScopeId} (hscope : scope < m.store.scopes.next)
    {l : List (Token × Value)} (hl : ∀ b ∈ l, V.name b.1.lexeme ∧ m.store.Has b.2) :
    Leads V w (fun _ _ => True) m (defineAll scope l) (defineAll scope l) := by
  induction l generalizing m with
  | nil => exact leads_pure trivial
  | cons b rest ih =>
    obtain ⟨⟨hname, hv⟩, hrest⟩ := List.forall_mem_cons.mp hl
    refine .bind hm (leads_modifyStore (.bind hscope hv (.inl hname))) fun _ m' h hm' _ => ?_
    exact ih hm' (Nat.lt_of_lt_of_le hscope h.grows.scopes.next)
      fun b hb => ⟨(hrest b hb).1, (hrest b hb).2.mono h.grows⟩

theorem leads_property (hm : m.Sound V) {o : InstanceId} (ho : m.store.Has (.object o))
    {name : Token} (ht : V.token name) :
    Leads V w Store.Has m (property o name) (property o name) := by
  refine leads_inspect _ ?_
  cases hfield : m.store.field? o name.lexeme with
  | some v =>
    obtain ⟨i, hi, hv⟩ := Option.bind_eq_some_iff.mp hfield
    exact leads_pure (hm.store.fields o i hi _ v hv)
  | none =>
    refine leads_inspect _ ?_
    split
    · next f hf =>
      obtain ⟨i, _, hf⟩ := Option.bind_eq_some_iff.mp hf
      exact leads_boundMethod hm (hm.store.method hf) ho
    · exact leads_fail ht _

theorem leads_superMethod (hm : m.Sound V) {keyword : Reference} (ht : V.token keyword.name)
    {name : Token} (hname : V.token name) :
    Leads V w Store.Has m (superMethod keyword name) (superMethod keyword name) := by
  unfold superMethod
  dsimp only
  split
  · exact leads_fail ht _
  refine leads_currentScope (leads_found hm _ _ (.token _ ht) fun c _ => ?_)
  split
  · split
    · exact leads_fail ht _
    refine leads_found hm _ _ (.this _) fun o ho => ?_
    split
    · refine leads_inspect _ ?_
      split
      · next f hf => exact leads_boundMethod hm (hm.store.method hf) ho
      · exact leads_fail hname _
    · exact leads_fail ht _
  · exact leads_fail ht _

theorem leads_superclassOf (hm : m.Sound V) {r : Option Reference}
    (ht : ∀ x ∈ r, V.token x.name) :
    Leads V w (fun s c => ∀ id ∈ c, id < s.classes.size) m (superclassOf r) (superclassOf r) := by
  cases r with
  | none => exact leads_pure nofun
  | some ref =>
    refine .bind hm (leads_lookUp hm (ht ref rfl)) fun v m' _ _ hv => ?_
    split
    · exact leads_pure fun _ h => Option.some.inj h ▸ hv
    · exact leads_fail (ht ref rfl) _

theorem leads_methodScope (hm : m.Sound V) {c : Option ClassId}
    (hc : ∀ id ∈ c, id < m.store.classes.size) :
    Leads V w (fun s id => id < s.scopes.next) m (methodScope c) (methodScope c) := by
  cases c with
  | none => exact .same (.ok (.refl m) hm.scope)
  | some c =>
    refine leads_currentScope (.bind hm (leads_newScope hm.scope) fun scope m₁ h₁ hm₁ hscope => ?_)
    have hhas : m₁.store.Has (.cls c) := Store.Has.mono h₁.grows (hc c rfl)
    refine .bind hm₁ (leads_modifyStore (.bind hscope.lt_next hhas (.inr (hscope.binds _))))
      fun _ m₂ h₂ _ _ => ?_
    exact leads_pure (Nat.lt_of_lt_of_le hscope.lt_next h₂.grows.scopes.next)

/-- The methods of a class are made in one scope, out of its routines. -/
theorem mem_methodTable {scope : ScopeId} {ms : List (Routine Stmt)} {name : String} {f : Closure}
    (h : (methodTable scope ms).get? name = some f) : f.scope = scope ∧ f.routine ∈ ms ∧
      f.role = if f.routine.name.lexeme = initializerName then .initializer else .method := by
  unfold methodTable at h
  -- the last method is inserted last
  induction ms using List.reverseRecOn with
  | nil => simp at h
  | append_singleton ms r ih =>
    rw [List.foldl_append, List.foldl_cons, List.foldl_nil, Bindings.get?_insert] at h
    split at h
    · cases h
      exact ⟨rfl, List.mem_append_right _ (List.mem_singleton_self r), rfl⟩
    · obtain ⟨hscope, hmem, hrole⟩ := ih h
      exact ⟨hscope, List.mem_append_left _ hmem, hrole⟩

theorem leads_declareClass (hm : m.Sound V) {n : Token} {r : Option Reference}
    {ms : List (Routine Stmt)} (h : Stmt.Over V (.classDecl n r ms)) :
    Leads V w (fun _ _ => True) m (declareClass n r ms) (declareClass n r ms) := by
  have hms := h.methods
  cases h with
  | classDecl hn hr _ _ _ =>
    refine .bind hm (leads_superclassOf hm hr) fun c m₁ _ hm₁ hc => ?_
    refine .bind hm₁ (leads_methodScope hm₁ hc) fun scope m₂ h₂ hm₂ hscope => ?_
    have hsuper : ∀ id ∈ c, id < m₂.store.classes.size := fun id hid =>
      Nat.lt_of_lt_of_le (hc id hid) h₂.grows.classes_size_le
    refine .bind hm₂ (leads_newClass hsuper fun name f hf => ?_) fun v _ _ hm₃ hv =>
      leads_define hm₃ hn.name hv
    obtain ⟨rfl, hmem, _⟩ := mem_methodTable hf
    exact ⟨hscope, hms _ hmem⟩

/-! ## Callables -/

section Callables

variable {run run' : List Stmt → Eval Flow}
  (hrun : ∀ b m, (∀ s ∈ b, s.Over V) → m.Sound V → Leads V w Store.HasFlow m (run b) (run' b))
include hrun

theorem leads_callFunction (hm : m.Sound V) {f : Closure} (hf : f.In V m.store)
    {args : List Value} (hargs : ∀ v ∈ args, m.store.Has v) :
    Leads V w Store.Has m (callFunction run f args) (callFunction run' f args) := by
  refine .bind hm (leads_newScope hf.scope) fun scope m₁ h₁ hm₁ hscope => ?_
  have hbinds : ∀ b ∈ f.routine.params.zip args, V.name b.1.lexeme ∧ m₁.store.Has b.2 :=
    fun b hb => ⟨(hf.routine.params _ (List.of_mem_zip hb).1).name,
      (hargs _ (List.of_mem_zip hb).2).mono h₁.grows⟩
  refine .bind hm₁ (leads_defineAll hm₁ hscope.lt_next hbinds) fun _ m₂ h₂ hm₂ _ => ?_
  have hinside : Machine.Sound V { m₂ with scope } :=
    ⟨hm₂.store, Nat.lt_of_lt_of_le hscope.lt_next h₂.grows.scopes.next⟩
  refine .bind hm₂ (leads_within (hrun _ _ hf.routine.body hinside)) fun flow m₃ _ hm₃ hflow => ?_
  split
  · exact leads_receiverOf hm₃ f
  · exact leads_pure hflow
  · exact leads_pure trivial

theorem leads_instantiate (hm : m.Sound V) {c : ClassId} (hc : m.store.Has (.cls c))
    {args : List Value} (hargs : ∀ v ∈ args, m.store.Has v) :
    Leads V w Store.Has m (instantiate run c args) (instantiate run' c args) := by
  refine .bind hm (leads_newInstance hc) fun o m₁ h₁ hm₁ ho => leads_inspect _ ?_
  cases hinit : m₁.store.method? c initializerName with
  | none => exact leads_pure ho
  | some init =>
    refine .bind hm₁ (leads_attach hm₁ (hm₁.store.method hinit) ho) fun f m₂ h₂ hm₂ hf => ?_
    have hargs₂ : ∀ v ∈ args, m₂.store.Has v :=
      fun v hv => (hargs v hv).mono (h₁.trans h₂).grows
    exact .bind hm₂ (leads_callFunction hrun hm₂ hf hargs₂) fun _ _ h₃ _ _ =>
      leads_pure (ho.mono (h₂.trans h₃).grows)

theorem leads_apply (hm : m.Sound V) {callee : Value} (hcallee : m.store.Has callee)
    {paren : Token} (ht : V.token paren) {args : List Value} (hargs : ∀ v ∈ args, m.store.Has v) :
    Leads V w Store.Has m (apply run callee paren args) (apply run' callee paren args) := by
  cases callee with
  | function id =>
    refine leads_inspect _ ?_
    cases hf : m.store.functions[id]? with
    | some f => exact leads_callFunction hrun hm (hm.store.functions id f hf) hargs
    | none => exact leads_fail ht _
  | native id =>
    refine leads_inspect _ ?_
    cases hf : m.store.natives[id]? with
    | some f =>
      obtain rfl := hm.store.natives id f hf
      exact leads_readClock
    | none => exact leads_fail ht _
  | cls id => exact leads_instantiate hrun hm hcallee hargs
  | nil | bool | number | string | object => exact leads_fail ht _

theorem leads_call (hm : m.Sound V) {callee : Value} (hcallee : m.store.Has callee)
    {paren : Token} (ht : V.token paren) {args : List Value} (hargs : ∀ v ∈ args, m.store.Has v) :
    Leads V w Store.Has m (call run callee paren args) (call run' callee paren args) := by
  refine leads_inspect _ ?_
  split
  · exact leads_fail ht _
  · split
    · exact leads_fail ht _
    · have hinside : Machine.Sound V { m with depth := m.depth + 1 } := ⟨hm.store, hm.scope⟩
      exact leads_nested ht (leads_apply hrun hinside hcallee ht hargs)

end Callables

/-! ## Rules -/

section Rules

variable {ev ev' : Expr → Eval Value} {ex ex' : Stmt → Eval Flow}
  (hev : ∀ e m, e.Over V → m.Sound V → Leads V w Store.Has m (ev e) (ev' e))
  (hex : ∀ s m, s.Over V → m.Sound V → Leads V w Store.HasFlow m (ex s) (ex' s))

include hev in
theorem leads_evalAll (hm : m.Sound V) {es : List Expr} (h : ∀ e ∈ es, e.Over V) :
    Leads V w (fun s vs => ∀ v ∈ vs, s.Has v) m (evalAll ev es) (evalAll ev' es) := by
  induction es generalizing m with
  | nil => exact leads_pure nofun
  | cons e es ih =>
    obtain ⟨he, hes⟩ := List.forall_mem_cons.mp h
    refine .bind hm (hev e m he hm) fun v m₁ h₁ hm₁ hv => ?_
    refine .bind hm₁ (ih hm₁ hes) fun vs m₂ h₂ _ hvs => ?_
    exact leads_pure (List.forall_mem_cons.mpr ⟨hv.mono h₂.grows, hvs⟩)

include hev in
theorem leads_evalOption (hm : m.Sound V) {e : Option Expr} (h : ∀ x ∈ e, x.Over V) :
    Leads V w Store.Has m (evalOption ev e) (evalOption ev' e) := by
  cases e with
  | none => exact leads_pure trivial
  | some e => exact hev e m (h e rfl) hm

include hex in
theorem leads_runAll (hm : m.Sound V) {b : List Stmt} (h : ∀ s ∈ b, s.Over V) :
    Leads V w Store.HasFlow m (runAll ex b) (runAll ex' b) := by
  induction b generalizing m with
  | nil => exact leads_pure trivial
  | cons s b ih =>
    obtain ⟨hs, hb⟩ := List.forall_mem_cons.mp h
    refine .bind hm (hex s m hs hm) fun flow m₁ _ hm₁ hflow => ?_
    cases flow with
    | normal => exact ih hm₁ hb
    | returned v => exact leads_pure hflow

theorem leads_whileTrue {c c' : Eval Value} {b b' : Eval Flow}
    (hc : ∀ m, m.Sound V → Leads V w Store.Has m c c')
    (hb : ∀ m, m.Sound V → Leads V w Store.HasFlow m b b') (n : Nat) (hm : m.Sound V) :
    Leads V w Store.HasFlow m (whileTrue c b n) (whileTrue c' b' n) := by
  induction n generalizing m with
  | zero => exact leads_exhausted
  | succ n ih =>
    refine .bind hm (hc m hm) fun v m₁ _ hm₁ _ => ?_
    split
    · refine .bind hm₁ (hb m₁ hm₁) fun flow m₂ _ hm₂ hflow => ?_
      cases flow with
      | normal => exact ih hm₂
      | returned v => exact leads_pure hflow
    · exact leads_pure trivial

include hev in
theorem leads_evalOver {run run' : List Stmt → Eval Flow}
    (hrun : ∀ b m, (∀ s ∈ b, s.Over V) → m.Sound V → Leads V w Store.HasFlow m (run b) (run' b))
    (hm : m.Sound V) {e : Expr} (h : e.Over V) :
    Leads V w Store.Has m (evalOver ev run e) (evalOver ev' run' e) := by
  cases h with
  | literal v => exact leads_pure (by cases v <;> trivial)
  | group he => exact hev _ m he hm
  | unary ht he =>
    exact .bind hm (hev _ m he hm) fun _ m' _ _ _ => leads_liftAt ht fun _ hv => m'.store.has_unary hv
  | binary ht ha hb =>
    refine .bind hm (hev _ m ha hm) fun _ m₁ _ hm₁ _ => ?_
    exact .bind hm₁ (hev _ m₁ hb hm₁) fun _ m₂ _ _ _ =>
      leads_liftAt ht fun _ hv => m₂.store.has_binary hv
  | logical ht ha hb =>
    refine .bind hm (hev _ m ha hm) fun v m₁ _ hm₁ hv => ?_
    split
    · exact leads_pure hv
    · exact hev _ m₁ hb hm₁
  | var ht => exact leads_lookUp hm ht.token
  | assign ht he =>
    refine .bind hm (hev _ m he hm) fun v m₁ _ hm₁ hv => ?_
    exact .bind hm₁ (leads_assign ht hv) fun _ _ h₂ _ _ => leads_pure (hv.mono h₂.grows)
  | call hf ht hargs =>
    refine .bind hm (hev _ m hf hm) fun f m₁ _ hm₁ hcallee => ?_
    exact .bind hm₁ (leads_evalAll hev hm₁ hargs) fun vs m₂ h₂ hm₂ hvs =>
      leads_call hrun hm₂ (hcallee.mono h₂.grows) ht hvs
  | get ho ht =>
    refine .bind hm (hev _ m ho hm) fun v m₁ _ hm₁ hv => ?_
    split
    · exact leads_property hm₁ hv ht
    · exact leads_fail ht _
  | set ho ht he =>
    refine .bind hm (hev _ m ho hm) fun o m₁ _ hm₁ _ => ?_
    split
    · refine .bind hm₁ (hev _ m₁ he hm₁) fun v m₂ _ hm₂ hv => ?_
      exact .bind hm₂ (leads_modifyStore (.field _ _ hv)) fun _ _ h₃ _ _ =>
        leads_pure (hv.mono h₃.grows)
    · exact leads_fail ht _
  | receiver ht => exact leads_lookUp hm ht
  | inherited ht hname => exact leads_superMethod hm ht hname

include hev hex in
theorem leads_execOver (n : Nat) (hm : m.Sound V) {s : Stmt} (h : s.Over V) :
    Leads V w Store.HasFlow m (execOver ev ex n s) (execOver ev' ex' n s) := by
  cases s with
  | expression e =>
    cases h with
    | expression he => exact .bind hm (hev e m he hm) fun _ _ _ _ _ => leads_pure trivial
  | print e =>
    cases h with
    | print he =>
      refine .bind hm (hev e m he hm) fun _ m₁ _ hm₁ _ => leads_inspect _ ?_
      exact .bind hm₁ (leads_printLine _) fun _ _ _ _ _ => leads_pure trivial
  | declare name e =>
    cases h with
    | declare hn he =>
      refine .bind hm (leads_evalOption hev hm he) fun _ m₁ _ hm₁ hv => ?_
      exact .bind hm₁ (leads_define hm₁ hn.name hv) fun _ _ _ _ _ => leads_pure trivial
  | block b =>
    cases h with
    | block hb =>
      refine leads_currentScope (.bind hm (leads_newScope hm.scope) fun scope m₁ _ hm₁ hscope => ?_)
      have hinside : Machine.Sound V { m₁ with scope } := ⟨hm₁.store, hscope.lt_next⟩
      exact leads_within (leads_runAll hex hinside hb)
  | branch c t a =>
    cases h with
    | branch hc ht ha =>
      refine .bind hm (hev c m hc hm) fun v m₁ _ hm₁ _ => ?_
      split
      · exact hex t m₁ ht hm₁
      · cases a with
        | some a => exact hex a m₁ (ha a rfl) hm₁
        | none => exact leads_pure trivial
  | loop c b =>
    cases h with
    | loop hc hb =>
      exact leads_whileTrue (fun m hm => hev c m hc hm) (fun m hm => hex b m hb hm) n hm
  | function r =>
    have hr := h.routine
    cases h with
    | function hn _ _ =>
      refine leads_currentScope (.bind hm (leads_newFunction ⟨hm.scope, hr⟩) fun f m₁ _ hm₁ hf => ?_)
      exact .bind hm₁ (leads_define hm₁ hn.name hf) fun _ _ _ _ _ => leads_pure trivial
  | leave t e =>
    cases h with
    | leave _ he => exact .bind hm (leads_evalOption hev hm he) fun _ _ _ _ hv => leads_pure hv
  | classDecl n r ms =>
    exact .bind hm (leads_declareClass hm h) fun _ _ _ _ _ => leads_pure trivial

end Rules

/-! ## Runs -/

variable {watch : Watch} (hw : ∀ n m e, w n m = some e → watch n m = some e)
include hw

/-- Two watched evaluators, of which the second is stopped no earlier. -/
theorem leads_evalWatched (n : Nat) :
    (∀ e m, e.Over V → m.Sound V →
      Leads V w Store.Has m (evalWatched watch n e) (evalWatched w n e)) ∧
    ∀ s m, s.Over V → m.Sound V →
      Leads V w Store.HasFlow m (execWatched watch n s) (execWatched w n s) := by
  induction n with
  | zero =>
    refine ⟨fun e m _ _ => ?_, fun s m _ _ => ?_⟩
    · rw [evalWatched, evalWatched]
      exact leads_exhausted
    · rw [execWatched, execWatched]
      exact leads_exhausted
  | succ n ih =>
    refine ⟨fun e m he hm => ?_, fun s m hs hm => ?_⟩
    · rw [evalWatched, evalWatched]
      exact leads_watched hw _
        (leads_evalOver ih.1 (fun _ _ hb hm => leads_runAll ih.2 hm hb) hm he)
    · rw [execWatched, execWatched]
      exact leads_watched hw _ (leads_execOver ih.1 ih.2 n hm hs)

/-- A program, watched in two ways. -/
theorem leads_program (fuel : Nat) (hm : m.Sound V) {p : Program} (hp : p.Over V) :
    Leads V w Store.HasFlow m (runAll (execWatched watch fuel) p)
      (runAll (execWatched w fuel) p) :=
  leads_runAll (leads_evalWatched hw fuel).2 hm hp

omit hw in
/-- The run of a program on a sound machine. -/
theorem ends_exec (hm : m.Sound V) {p : Program} (hp : p.Over V) (fuel : Nat) :
    Ends V silent Store.HasFlow m (runAll (exec fuel) p m) := by
  have h := (leads_program (w := silent) (fun _ _ _ h => h) fuel hm hp).ends
  rwa [show execWatched silent fuel = exec fuel from funext (watched_eq fuel).2] at h

end Eval

end Treewalk
