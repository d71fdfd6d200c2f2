import Mathlib.Logic.Relation
import Treewalk.Proofs.Scoping.Chains
import Treewalk.Proofs.Vocabulary

/-!
# How a store changes

A program changes the store in six ways (`Store.Step`): it makes a scope, a function, a class
or an instance out of what there is already, binds a name in a scope, and sets a field. A name
that no variable has is bound once in a scope and never again.

What holds of every store that such steps lead to follows from the steps alone. A store only
grows (`Steps.grows`), bindings of the other names are final (`Steps.fixed`), and no object
refers to one that is missing or to one made later than itself (`Store.Sound`). So the chain
of scopes around a scope and the line of classes above a class come to an end.
-/

namespace Treewalk

/-- The value refers to an object of the store, if to any. -/
def Store.Has (s : Store) : Value → Prop
  | .function id => id < s.functions.size
  | .native id => id < s.natives.size
  | .cls id => id < s.classes.size
  | .object id => id < s.instances.size
  | .nil | .bool _ | .number _ | .string _ => True

/-- A function over the vocabulary, made in a scope of the store. -/
structure Closure.In (V : Vocabulary) (s : Store) (f : Closure) : Prop where
  scope : f.scope < s.scopes.next
  routine : f.routine.Over V

/-- One change that a program over the vocabulary makes to the store. -/
inductive Store.Step (V : Vocabulary) (s : Store) : Store → Prop
  | scope {parent : ScopeId} : parent < s.scopes.next → Step V s (s.pushScope (some parent))
  | bind {id : ScopeId} {name : String} {v : Value} : id < s.scopes.next → s.Has v →
    V.name name ∨ s.scopes.binds id name = false → Step V s (s.define id name v)
  | function {f : Closure} : f.In V s → Step V s (s.pushFunction f)
  | cls {c : ClassInfo} : (∀ parent ∈ c.superclass, parent < s.classes.size) →
    (∀ name f, c.methods.get? name = some f → f.In V s) → Step V s (s.pushClass c)
  | object {c : ClassId} : c < s.classes.size → Step V s (s.pushInstance c)
  | field (id : InstanceId) (name : String) {v : Value} : s.Has v → Step V s (s.setField id name v)

/-- Any number of changes. -/
abbrev Store.Steps (V : Vocabulary) : Store → Store → Prop :=
  Relation.ReflTransGen (Store.Step V)

/-! ## Stores only grow -/

/-- What there is stays: scopes keep their link and their names, functions, natives and
classes are as they were, and instances keep their class and the names of their fields. -/
structure Store.Grows (s s' : Store) : Prop where
  scopes : s.scopes.Grows s'.scopes
  functions : ∀ (id : FunctionId) f, s.functions[id]? = some f → s'.functions[id]? = some f
  natives : ∀ (id : NativeId) f, s.natives[id]? = some f → s'.natives[id]? = some f
  classes : ∀ (id : ClassId) c, s.classes[id]? = some c → s'.classes[id]? = some c
  instances : ∀ (id : InstanceId) o, s.instances[id]? = some o → ∃ o', s'.instances[id]? = some o' ∧
    o'.cls = o.cls ∧ ∀ name, o.fields.contains name = true → o'.fields.contains name = true

theorem getElem?_push_of_some {α : Type} {xs : Array α} {i : Nat} {a : α} (b : α)
    (h : xs[i]? = some a) : (xs.push b)[i]? = some a := by
  have hlt : i < xs.size := (Array.getElem?_eq_some_iff.mp h).1
  rw [Array.getElem?_push, if_neg (Nat.ne_of_lt hlt), h]

/-- What is found in an array with one entry more. -/
theorem getElem?_push_cases {α : Type} {xs : Array α} {i : Nat} {a b : α}
    (h : (xs.push b)[i]? = some a) : i = xs.size ∧ a = b ∨ xs[i]? = some a := by
  rw [Array.getElem?_push] at h
  split at h
  · exact .inl ⟨‹_›, (Option.some.inj h).symm⟩
  · exact .inr h

/-- An array that still has every entry is at least as long. -/
theorem size_le_of_getElem? {α : Type} {xs ys : Array α}
    (h : ∀ (i : Nat) a, xs[i]? = some a → ∃ b, ys[i]? = some b) : xs.size ≤ ys.size := by
  refine Classical.byContradiction fun hlt => ?_
  have hlt : ys.size < xs.size := Nat.not_le.mp hlt
  obtain ⟨b, hb⟩ := h ys.size _ (Array.getElem?_eq_getElem hlt)
  have := (Array.getElem?_eq_some_iff.mp hb).1
  omega

theorem Bindings.contains_insert {α : Type} (b : Bindings α) (name key : String) (value : α) :
    (b.insert name value).contains key = (decide (name = key) || b.contains key) := by
  rw [contains, get?_insert]
  split
  · simp [*]
  · simp [*, contains]

namespace Store

variable {V : Vocabulary} {s s' s'' : Store}

theorem Grows.refl (s : Store) : s.Grows s :=
  ⟨.refl _, fun _ _ h => h, fun _ _ h => h, fun _ _ h => h,
    fun _ o h => ⟨o, h, rfl, fun _ hn => hn⟩⟩

theorem Grows.trans (h : s.Grows s') (h' : s'.Grows s'') : s.Grows s'' := by
  refine ⟨h.scopes.trans h'.scopes, fun id f hf => h'.functions id f (h.functions id f hf),
    fun id f hf => h'.natives id f (h.natives id f hf),
    fun id c hc => h'.classes id c (h.classes id c hc), fun id o ho => ?_⟩
  obtain ⟨o', ho', hcls, hfields⟩ := h.instances id o ho
  obtain ⟨o'', ho'', hcls', hfields'⟩ := h'.instances id o' ho'
  exact ⟨o'', ho'', hcls'.trans hcls, fun name hn => hfields' name (hfields name hn)⟩

theorem Grows.classes_size_le (h : s.Grows s') : s.classes.size ≤ s'.classes.size :=
  size_le_of_getElem? fun id c hc => ⟨c, h.classes id c hc⟩

/-- A store that has an object goes on to have it. -/
theorem Has.mono (h : s.Grows s') {v : Value} (hv : s.Has v) : s'.Has v := by
  cases v with
  | function id =>
    exact Nat.lt_of_lt_of_le hv (size_le_of_getElem? fun id f hf => ⟨f, h.functions id f hf⟩)
  | native id =>
    exact Nat.lt_of_lt_of_le hv (size_le_of_getElem? fun id f hf => ⟨f, h.natives id f hf⟩)
  | cls id => exact Nat.lt_of_lt_of_le hv h.classes_size_le
  | object id =>
    refine Nat.lt_of_lt_of_le hv (size_le_of_getElem? fun id o ho => ?_)
    obtain ⟨o', ho', _⟩ := h.instances id o ho
    exact ⟨o', ho'⟩
  | nil | bool | number | string => trivial

theorem Grows.closure (h : s.Grows s') {f : Closure} (hf : f.In V s) : f.In V s' :=
  ⟨Nat.lt_of_lt_of_le hf.scope h.scopes.next, hf.routine⟩

theorem instances_setField {id : InstanceId} {name : String} {v : Value} {i : InstanceId}
    {o : Instance} (h : s.instances[i]? = some o) :
    (s.setField id name v).instances[i]? =
      some (if id = i then { o with fields := o.fields.insert name v } else o) := by
  simp only [setField, Array.getElem?_modify, h]
  split <;> rfl

theorem Step.grows (h : Step V s s') : s.Grows s' := by
  have same := Grows.refl s
  cases h with
  | scope hp => exact { same with scopes := s.scopes.grows_push _ }
  | bind hid _ _ => exact { same with scopes := Scopes.grows_define hid _ _ }
  | function _ => exact { same with functions := fun _ _ => getElem?_push_of_some _ }
  | cls _ _ => exact { same with classes := fun _ _ => getElem?_push_of_some _ }
  | object _ =>
    exact { same with
      instances := fun _ o ho => ⟨o, getElem?_push_of_some _ ho, rfl, fun _ hn => hn⟩ }
  | field id name _ =>
    refine { same with instances := fun i o ho => ⟨_, instances_setField ho, ?_, fun key hk => ?_⟩ }
    · split <;> rfl
    · split
      · simp [Bindings.contains_insert, hk]
      · exact hk

theorem Steps.grows (h : Steps V s s') : s.Grows s' := by
  induction h with
  | refl => exact .refl _
  | tail _ hstep ih => exact ih.trans hstep.grows

/-! ## Final bindings -/

/-- A binding of a name that no variable has. -/
theorem Step.fixed (h : Step V s s') {id : ScopeId} {name : String} {v : Value}
    (hname : ¬ V.name name) (hv : s.scopes.value? id name = some v) :
    s'.scopes.value? id name = some v := by
  cases h with
  | scope _ => exact (Scopes.value?_push ..).trans hv
  | @bind id' name' v' hid _ hfree =>
    refine (Scopes.value?_define hid ..).trans ?_
    split
    · next heq =>
      obtain ⟨rfl, rfl⟩ := heq
      have hbound := hfree.resolve_left hname
      simp [Scopes.binds, hv] at hbound
    · exact hv
  | function _ | cls _ _ | object _ | field _ _ _ => exact hv

theorem Steps.fixed (h : Steps V s s') {id : ScopeId} {name : String} {v : Value}
    (hname : ¬ V.name name) (hv : s.scopes.value? id name = some v) :
    s'.scopes.value? id name = some v := by
  induction h with
  | refl => exact hv
  | tail _ hstep ih => exact hstep.fixed hname ih

/-! ## Sound stores -/

/-- All that objects refer to is there, scopes and classes refer to older ones, and all code
is over the vocabulary. -/
structure Sound (V : Vocabulary) (s : Store) : Prop where
  rooted : s.scopes.Rooted
  parent : ∀ id, id ≠ Machine.globals → id < s.scopes.next →
    ∃ p, s.scopes.parent? id = some p ∧ p < id
  values : ∀ id name v, s.scopes.value? id name = some v → s.Has v
  functions : ∀ (id : FunctionId) f, s.functions[id]? = some f → f.In V s
  natives : ∀ (id : NativeId) f, s.natives[id]? = some f → f = .clock
  superclass : ∀ (id : ClassId) c, s.classes[id]? = some c → ∀ parent ∈ c.superclass, parent < id
  methods : ∀ (id : ClassId) c, s.classes[id]? = some c →
    ∀ name f, c.methods.get? name = some f → f.In V s
  instances : ∀ (id : InstanceId) o, s.instances[id]? = some o → o.cls < s.classes.size
  fields : ∀ (id : InstanceId) o, s.instances[id]? = some o →
    ∀ name v, o.fields.get? name = some v → s.Has v

namespace Step

variable (h : Step V s s') (hs : Sound V s)
include h hs

theorem parent {id : ScopeId} (hne : id ≠ Machine.globals) (hlt : id < s'.scopes.next) :
    ∃ p, s'.scopes.parent? id = some p ∧ p < id := by
  cases h with
  | @scope parent hp =>
    simp only [pushScope, Scopes.parent?_push, Scopes.next_push] at hlt ⊢
    split
    · next heq => exact ⟨parent, rfl, heq ▸ hp⟩
    · next hold => exact hs.parent id hne (Nat.lt_of_le_of_ne (Nat.le_of_lt_succ hlt) hold)
  | bind =>
    simp only [define, Scopes.parent?_define, Scopes.next_define] at hlt ⊢
    exact hs.parent id hne hlt
  | function | cls | object | field => exact hs.parent id hne hlt

theorem values {id : ScopeId} {name : String} {v : Value}
    (hv : s'.scopes.value? id name = some v) : s'.Has v := by
  refine Has.mono h.grows ?_
  cases h with
  | scope => exact hs.values id name v ((Scopes.value?_push ..).symm.trans hv)
  | bind hid hhas _ =>
    have hv := (Scopes.value?_define hid ..).symm.trans hv
    split at hv
    · obtain rfl := Option.some.inj hv
      exact hhas
    · exact hs.values id name v hv
  | function | cls | object | field => exact hs.values id name v hv

theorem functions {id : FunctionId} {f : Closure} (hf : s'.functions[id]? = some f) :
    f.In V s' := by
  refine h.grows.closure ?_
  cases h with
  | function hnew =>
    rcases getElem?_push_cases hf with ⟨_, rfl⟩ | hf
    · exact hnew
    · exact hs.functions id f hf
  | scope | bind | cls | object | field => exact hs.functions id f hf

theorem superclass {id : ClassId} {c : ClassInfo} (hc : s'.classes[id]? = some c) :
    ∀ parent ∈ c.superclass, parent < id := by
  cases h with
  | cls hsuper _ =>
    rcases getElem?_push_cases hc with ⟨rfl, rfl⟩ | hc
    · exact hsuper
    · exact hs.superclass id c hc
  | scope | bind | function | object | field => exact hs.superclass id c hc

theorem methods {id : ClassId} {c : ClassInfo} (hc : s'.classes[id]? = some c) {name : String}
    {f : Closure} (hf : c.methods.get? name = some f) : f.In V s' := by
  refine h.grows.closure ?_
  cases h with
  | cls _ hnew =>
    rcases getElem?_push_cases hc with ⟨_, rfl⟩ | hc
    · exact hnew name f hf
    · exact hs.methods id c hc name f hf
  | scope | bind | function | object | field => exact hs.methods id c hc name f hf

theorem instances {id : InstanceId} {o : Instance} (ho : s'.instances[id]? = some o) :
    o.cls < s'.classes.size ∧ ∀ name v, o.fields.get? name = some v → s'.Has v := by
  have hg := h.grows
  have old : s.instances[id]? = some o →
      o.cls < s'.classes.size ∧ ∀ name v, o.fields.get? name = some v → s'.Has v := fun ho =>
    ⟨Nat.lt_of_lt_of_le (hs.instances id o ho) hg.classes_size_le,
      fun name v hv => (hs.fields id o ho name v hv).mono hg⟩
  cases h with
  | object hc =>
    rcases getElem?_push_cases ho with ⟨_, rfl⟩ | ho
    · exact ⟨hc, fun _ _ hv => by simp at hv⟩
    · exact old ho
  | field i key hhas =>
    have hmodified : ∃ o', s.instances[id]? = some o' := by
      simp only [setField, Array.getElem?_modify] at ho
      cases hi : s.instances[id]? with
      | none => simp [hi] at ho
      | some o' => exact ⟨o', rfl⟩
    obtain ⟨o', ho'⟩ := hmodified
    obtain rfl := Option.some.inj ((instances_setField ho').symm.trans ho)
    split
    · refine ⟨hs.instances id o' ho', fun name v hv => ?_⟩
      rw [Bindings.get?_insert] at hv
      split at hv
      · obtain rfl := Option.some.inj hv
        exact hhas.mono hg
      · exact (hs.fields id o' ho' name v hv).mono hg
    · exact ⟨hs.instances id o' ho', fun name v hv => (hs.fields id o' ho' name v hv).mono hg⟩
  | scope | bind | function | cls => exact old ho

theorem sound : Sound V s' where
  rooted := hs.rooted.mono h.grows.scopes
  parent _ := h.parent hs
  values _ _ _ := h.values hs
  functions _ _ := h.functions hs
  natives := by cases h <;> exact hs.natives
  superclass _ _ := h.superclass hs
  methods _ _ hc _ _ := h.methods hs hc
  instances _ _ ho := (h.instances hs ho).1
  fields _ _ ho := (h.instances hs ho).2

end Step

theorem Steps.sound (h : Steps V s s') (hs : Sound V s) : Sound V s' := by
  induction h with
  | refl => exact hs
  | tail _ hstep ih => exact hstep.sound ih

/-! ## Chains that end -/

/-- The class and the classes above it, up to one without a superclass. -/
inductive Lineage (s : Store) : ClassId → List ClassId → Prop
  | top {id : ClassId} {c : ClassInfo} : s.classes[id]? = some c → c.superclass = none →
    Lineage s id [id]
  | link {id parent : ClassId} {c : ClassInfo} {rest : List ClassId} : s.classes[id]? = some c →
    c.superclass = some parent → Lineage s parent rest → Lineage s id (id :: rest)

/-- The search for a method, from a class upward for as long as it takes. -/
inductive Finds (s : Store) (name : String) : ClassId → Option Closure → Prop
  | own {id : ClassId} {c : ClassInfo} {f : Closure} : s.classes[id]? = some c →
    c.methods.get? name = some f → Finds s name id (some f)
  | inherited {id parent : ClassId} {c : ClassInfo} {found : Option Closure} :
    s.classes[id]? = some c → c.methods.get? name = none → c.superclass = some parent →
    Finds s name parent found → Finds s name id found
  | missing {id : ClassId} {c : ClassInfo} : s.classes[id]? = some c →
    c.methods.get? name = none → c.superclass = none → Finds s name id none

/-- The search has one result. -/
theorem Finds.unique {name : String} {id : ClassId} {found found' : Option Closure}
    (h : s.Finds name id found) (h' : s.Finds name id found') : found = found' := by
  induction h with
  | own hc hf => cases h' <;> simp_all
  | inherited hc hf hparent _ ih =>
    cases h' with
    | own | missing => simp_all
    | inherited hc' _ hparent' h' =>
      cases hc.symm.trans hc'
      cases hparent.symm.trans hparent'
      exact ih h'
  | missing hc hf hparent => cases h' <;> simp_all

/-- A method that is found is one of some class in the store. -/
theorem exists_of_method? {id : ClassId} {name : String} {f : Closure}
    (h : s.method? id name = some f) :
    ∃ (id' : ClassId) (c : ClassInfo), s.classes[id']? = some c ∧ c.methods.get? name = some f := by
  rw [method?] at h
  generalize s.classes.size = steps at h
  induction steps generalizing id with
  | zero => cases h
  | succ steps ih =>
    rw [methodWithin] at h
    split at h
    · cases h
    · next c hc =>
      split at h
      · next f' hf' =>
        obtain rfl := Option.some.inj h
        exact ⟨id, c, hc, hf'⟩
      · obtain ⟨parent, _, hparent⟩ := Option.bind_eq_some_iff.mp h
        exact ih hparent

namespace Sound

variable (hs : Sound V s)
include hs

theorem chain {id : ScopeId} (hlt : id < s.scopes.next) : ∃ chain, s.scopes.Chain id chain := by
  -- parents are older
  induction id using Nat.strongRecOn with
  | ind id ih =>
    by_cases hne : id = Machine.globals
    · subst hne
      exact ⟨[], .globals⟩
    · obtain ⟨p, hp, hpid⟩ := hs.parent id hne hlt
      obtain ⟨rest, hrest⟩ := ih p hpid (Nat.lt_trans hpid hlt)
      exact ⟨id :: rest, .link hne hp hrest⟩

theorem lineage {id : ClassId} (hlt : id < s.classes.size) : ∃ line, s.Lineage id line := by
  induction id using Nat.strongRecOn with
  | ind id ih =>
    have hc : s.classes[id]? = some s.classes[id] := Array.getElem?_eq_getElem hlt
    cases hsuper : s.classes[id].superclass with
    | none => exact ⟨[id], .top hc hsuper⟩
    | some parent =>
      have hparent := hs.superclass id _ hc parent hsuper
      obtain ⟨rest, hrest⟩ := ih parent hparent (Nat.lt_trans hparent hlt)
      exact ⟨id :: rest, .link hc hsuper hrest⟩

/-- A walk over more classes than the class has index finds what the search does. -/
theorem finds_methodWithin (name : String) {steps : Nat} {id : ClassId}
    (hlt : id < s.classes.size) (hsteps : id < steps) :
    s.Finds name id (s.methodWithin name steps id) := by
  induction steps generalizing id with
  | zero => exact absurd hsteps (Nat.not_lt_zero id)
  | succ steps ih =>
    have hc : s.classes[id]? = some s.classes[id] := Array.getElem?_eq_getElem hlt
    simp only [methodWithin, hc]
    cases hmethod : s.classes[id].methods.get? name with
    | some f => exact .own hc hmethod
    | none =>
      cases hsuper : s.classes[id].superclass with
      | none => exact .missing hc hmethod hsuper
      | some parent =>
        have hparent := hs.superclass id _ hc parent hsuper
        exact .inherited hc hmethod hsuper (ih (Nat.lt_trans hparent hlt)
          (Nat.lt_of_lt_of_le hparent (Nat.le_of_lt_succ hsteps)))

/-- Looking a method up comes to an end, at the class that the search comes to. -/
theorem finds (name : String) {id : ClassId} (hlt : id < s.classes.size) :
    s.Finds name id (s.method? id name) :=
  hs.finds_methodWithin name hlt hlt

/-- Methods that are found are functions of the store. -/
theorem method {id : ClassId} {name : String} {f : Closure} (h : s.method? id name = some f) :
    f.In V s := by
  obtain ⟨id', c, hc, hf⟩ := exists_of_method? h
  exact hs.methods id' c hc name f hf

end Sound

end Store

end Treewalk
