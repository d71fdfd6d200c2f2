import Treewalk.Proofs.Watch

/-!
# The frames of a run

`evalFramed` and `execFramed` are the evaluators with the number of active calls passed
along: the body of a callee runs one frame further in than the call. A watch sees the frames
at every node and at every entry of a call, and may stop the run there. A run comes to a
moment of some kind (`Comes`) if a watch that stops only at such moments changes what becomes
of it.

The machine counts its calls too. `Tracks` says how the two go together: wherever the
framed run is stopped, the count is the number of frames, and the plain run leaves scope and
count as they were.
-/

namespace Treewalk

/-- What happens at a moment of a run: a node is about to run, or a call is entered whose
callee takes the arguments. -/
inductive Moment where
  | node (n : Node)
  | entry (paren : Token)

/-- Sees the number of active calls, the moment and the machine, and may stop the run. -/
abbrev FrameWatch := Nat → Moment → Machine → Option Stop

theorem Value.unary_ne_overflow (op : Kind) (v : Value) : Value.unary op v ≠ .error .stackOverflow := by
  unfold Value.unary
  repeat' split
  all_goals exact nofun

theorem Value.binary_ne_overflow (op : Kind) (u v : Value) :
    Value.binary op u v ≠ .error .stackOverflow := by
  unfold Value.binary Value.arithmetic
  repeat' split
  all_goals exact nofun

namespace Eval

variable {α β : Type}

/-- Runs an action, unless the watch stops the run before it. -/
def watchedIn (watch : FrameWatch) (frames : Nat) (moment : Moment) (action : Eval α) : Eval α :=
  fun m =>
    match watch frames moment m with
    | some stop => .error stop m
    | none => action m

/-- `call`, watched where the call is entered. -/
def callFramed (watch : FrameWatch) (frames : Nat) (run : List Stmt → Eval Flow) (callee : Value)
    (paren : Token) (args : List Value) : Eval Value := do
  match ← inspect fun s => s.arity? callee with
  | none => fail paren .notCallable
  | some arity =>
    if args.length ≠ arity then fail paren (.arity arity args.length)
    else watchedIn watch frames (.entry paren) (nested paren (apply run callee paren args))

/-- `evalOver`, watched where calls are entered. -/
def evalFramedOver (watch : FrameWatch) (frames : Nat) (ev : Expr → Eval Value)
    (run : List Stmt → Eval Flow) : Expr → Eval Value
  | .call callee paren args => do
    let callee ← ev callee
    let args ← evalAll ev args
    callFramed watch frames run callee paren args
  | e => evalOver ev run e

mutual

def evalFramed (watch : FrameWatch) : Nat → Nat → Expr → Eval Value
  | 0, _, _ => exhausted
  | n + 1, frames, e =>
    watchedIn watch frames (.node (.expr e)) (evalFramedOver watch frames
      (evalFramed watch n frames) (runAll (execFramed watch n (frames + 1))) e)

def execFramed (watch : FrameWatch) : Nat → Nat → Stmt → Eval Flow
  | 0, _, _ => exhausted
  | n + 1, frames, s =>
    watchedIn watch frames (.node (.stmt s))
      (execOver (evalFramed watch n frames) (execFramed watch n frames) n s)

end

/-- The run of a program from `m` comes to a moment at which `P` holds of the number of
active calls, the moment and the machine. -/
def Comes (fuel : Nat) (program : Program) (m : Machine) (P : Nat → Moment → Machine → Prop) :
    Prop :=
  ∃ watch : FrameWatch, (∀ k p now, watch k p now ≠ none → P k p now) ∧
    runAll (execFramed watch fuel 0) program m ≠ runAll (exec fuel) program m

/-! ## Framed and plain runs -/

/-- The fault of a call that is nested too deeply. -/
def overflow (paren : Token) : Stop :=
  .fault (.runtime paren .stackOverflow)

/-- Scope and count of calls are what they were in `m`. -/
structure Keeps (m : Machine) (r : EStateM.Result Stop Machine α) : Prop where
  scope : (after r).scope = m.scope
  depth : (after r).depth = m.depth

/-- The watch lets a call at `t` pass that is entered with all frames in use. -/
def Passes (watch : FrameWatch) (k : Nat) (t : Token) : Prop :=
  ∃ k' now, maxDepth ≤ k' ∧ k' ≤ max k maxDepth ∧ watch k' (.entry t) now = none

/-- The watch stops the run with `s`, where the machine counts the frames; the plain run
has no frames left for a call that is entered there and overflows. -/
def Stops (watch : FrameWatch) (k : Nat) (s : Stop) (r : EStateM.Result Stop Machine α) : Prop :=
  ∃ k' p now, watch k' p now = some s ∧ now.depth = k' ∧ k' ≤ max k maxDepth ∧
    ∀ t, p = .entry t → maxDepth ≤ k' → ∃ m', r = .error (overflow t) m'

/-- How a framed run from `m` and the plain run end: in the same way, or the watch stopped
the first. -/
inductive Tracked (watch : FrameWatch) (k : Nat) (m : Machine) :
    EStateM.Result Stop Machine α → EStateM.Result Stop Machine α → Prop
  | ok {a : α} {m' : Machine} : Keeps m (.ok a m') → Tracked watch k m (.ok a m') (.ok a m')
  | error {s : Stop} {m' : Machine} : Keeps m (.error s m' : EStateM.Result Stop Machine α) →
    (∀ t, s = overflow t → Passes watch k t) → Tracked watch k m (.error s m') (.error s m')
  | stopped {s : Stop} {m' : Machine} {r : EStateM.Result Stop Machine α} : Keeps m r →
    Stops watch k s r → Tracked watch k m (.error s m') r

/-- With `k` calls active, the first action runs with a watch as the second does without. -/
def Tracks (watch : FrameWatch) (k : Nat) (x y : Eval α) : Prop :=
  ∀ m, m.depth = k → Tracked watch k m (x m) (y m)

variable {watch : FrameWatch} {k : Nat} {m : Machine}

theorem Tracked.keeps {r r' : EStateM.Result Stop Machine α} (h : Tracked watch k m r r') :
    Keeps m r' := by
  cases h with
  | ok h => exact h
  | error h _ => exact h
  | stopped h _ => exact h

theorem Keeps.trans {m' : Machine} {r : EStateM.Result Stop Machine α}
    {r' : EStateM.Result Stop Machine β} (h : Keeps m r) (hm : after r = m') (h' : Keeps m' r') :
    Keeps m r' := by
  subst hm
  exact ⟨h'.scope.trans h.scope, h'.depth.trans h.depth⟩

theorem Stops.imp {s : Stop} {r : EStateM.Result Stop Machine α} {r' : EStateM.Result Stop Machine β}
    (h : Stops watch k s r)
    (hr : ∀ t m', r = .error (overflow t) m' → ∃ m'', r' = .error (overflow t) m'') :
    Stops watch k s r' := by
  obtain ⟨k', p, now, hw, hd, hle, hover⟩ := h
  refine ⟨k', p, now, hw, hd, hle, fun t hp hk' => ?_⟩
  obtain ⟨m', he⟩ := hover t hp hk'
  exact hr t m' he

theorem Tracked.trans {a : α} {m' : Machine} {r r' : EStateM.Result Stop Machine β}
    (h : Keeps m (.ok a m')) (h' : Tracked watch k m' r r') : Tracked watch k m r r' := by
  cases h' with
  | ok h' => exact .ok (h.trans rfl h')
  | error h' ho => exact .error (h.trans rfl h') ho
  | stopped h' hs => exact .stopped (h.trans rfl h') hs

/-! ## Actions -/

theorem tracks_pure (a : α) : Tracks watch k (pure a) (pure a) :=
  fun _ _ => .ok ⟨rfl, rfl⟩

theorem tracks_bind {x y : Eval α} {f g : α → Eval β} (hx : Tracks watch k x y)
    (hf : ∀ a, Tracks watch k (f a) (g a)) : Tracks watch k (x >>= f) (y >>= g) := by
  intro m hm
  show Tracked watch k m (EStateM.bind x f m) (EStateM.bind y g m)
  unfold EStateM.bind
  have h := hx m hm
  generalize x m = r at h ⊢
  generalize y m = r' at h ⊢
  cases h with
  | ok hk => exact .trans hk (hf _ _ (hk.depth.trans hm))
  | error hk ho => exact .error ⟨hk.scope, hk.depth⟩ ho
  | stopped hk hs =>
    refine .stopped ?_ (hs.imp fun t m' e => ⟨m', by rw [e]⟩)
    cases r' with
    | ok b m' => exact hk.trans rfl (hf b m' (hk.depth.trans hm)).keeps
    | error s' m' => exact ⟨hk.scope, hk.depth⟩

theorem tracks_exhausted : Tracks watch k (exhausted : Eval α) exhausted :=
  fun _ _ => .error ⟨rfl, rfl⟩ nofun

theorem tracks_fail (t : Token) {f : RuntimeFault} (hf : f ≠ .stackOverflow) :
    Tracks watch k (fail t f : Eval α) (fail t f) := by
  refine fun _ _ => .error ⟨rfl, rfl⟩ fun t' h => ?_
  cases h
  exact absurd rfl hf

theorem tracks_liftAt (t : Token) {x : Except RuntimeFault α} (hx : x ≠ .error .stackOverflow) :
    Tracks watch k (liftAt t x) (liftAt t x) := by
  cases x with
  | ok a => exact tracks_pure a
  | error f => exact tracks_fail t fun h => hx (by rw [h])

theorem tracks_inspect (f : Store → α) : Tracks watch k (inspect f) (inspect f) :=
  fun _ _ => .ok ⟨rfl, rfl⟩

theorem tracks_modifyStore (f : Store → Store) : Tracks watch k (modifyStore f) (modifyStore f) :=
  fun _ _ => .ok ⟨rfl, rfl⟩

theorem tracks_newScope (parent : ScopeId) : Tracks watch k (newScope parent) (newScope parent) :=
  fun _ _ => .ok ⟨rfl, rfl⟩

theorem tracks_newFunction (f : Closure) : Tracks watch k (newFunction f) (newFunction f) :=
  fun _ _ => .ok ⟨rfl, rfl⟩

theorem tracks_newClass (c : ClassInfo) : Tracks watch k (newClass c) (newClass c) :=
  fun _ _ => .ok ⟨rfl, rfl⟩

theorem tracks_newInstance (c : ClassId) : Tracks watch k (newInstance c) (newInstance c) :=
  fun _ _ => .ok ⟨rfl, rfl⟩

theorem tracks_currentScope : Tracks watch k currentScope currentScope :=
  fun _ _ => .ok ⟨rfl, rfl⟩

theorem tracks_define (name : String) (v : Value) : Tracks watch k (define name v) (define name v) :=
  fun _ _ => .ok ⟨rfl, rfl⟩

theorem tracks_readClock : Tracks watch k readClock readClock :=
  fun _ _ => .ok ⟨rfl, rfl⟩

theorem tracks_printLine (text : String) : Tracks watch k (printLine text) (printLine text) := by
  rintro ⟨store, scope, depth, out, clock, ticks⟩ _
  simp only [printLine]
  rcases out.write (text ++ "\n") with ⟨_ | _, out⟩
  · exact .error ⟨rfl, rfl⟩ fun _ h => by cases h
  · exact .ok ⟨rfl, rfl⟩

/-- Looking a name up fails for want of the name only. -/
theorem tracked_valueOf (σ : Scopes) (owner : Option ScopeId) (t : Token) :
    Tracked watch k m (lift (σ.valueOf owner t) m) (lift (σ.valueOf owner t) m) := by
  unfold Scopes.valueOf
  split
  · exact .ok ⟨rfl, rfl⟩
  · exact .error ⟨rfl, rfl⟩ fun _ h => by cases h

theorem tracks_lookUp (ref : Reference) : Tracks watch k (lookUp ref) (lookUp ref) := by
  intro m _
  unfold lookUp
  dsimp only
  split
  · exact tracked_valueOf _ _ _
  · exact tracked_valueOf _ _ _

theorem tracks_receiverOf (f : Closure) : Tracks watch k (receiverOf f) (receiverOf f) :=
  fun _ _ => tracked_valueOf _ _ _

/-- A name is looked up at a distance, and its value used. -/
theorem tracks_found (scope : ScopeId) (d : Nat) (t : Token) {f : Value → Eval α}
    (hf : ∀ v, Tracks watch k (f v) (f v)) :
    Tracks watch k (do f (← lift (← inspect fun s => s.scopes.getAt scope d t)))
      (do f (← lift (← inspect fun s => s.scopes.getAt scope d t))) := by
  intro m hm
  exact tracks_bind (x := fun m => lift (m.store.scopes.getAt scope d t) m)
    (fun _ _ => tracked_valueOf _ _ _) hf m hm

theorem tracks_assign (ref : Reference) (v : Value) :
    Tracks watch k (assign ref v) (assign ref v) := by
  intro m _
  unfold assign
  dsimp only
  split
  · exact .ok ⟨rfl, rfl⟩
  · exact .error ⟨rfl, rfl⟩ fun _ h => by cases h

theorem tracks_within (scope : ScopeId) {x y : Eval α} (h : Tracks watch k x y) :
    Tracks watch k (within scope x) (within scope y) := by
  intro m hm
  have hxy := h { m with scope } hm
  unfold within
  dsimp only
  generalize x { m with scope } = r at hxy ⊢
  generalize y { m with scope } = r' at hxy ⊢
  cases hxy with
  | ok hk => exact .ok ⟨rfl, hk.depth⟩
  | error hk ho => exact .error ⟨rfl, hk.depth⟩ ho
  | stopped hk hs =>
    refine .stopped ?_ (hs.imp fun t m' e => by rw [e]; exact ⟨_, rfl⟩)
    cases r' <;> exact ⟨rfl, hk.depth⟩

theorem tracks_watchedIn (n : Node) {x y : Eval α} (h : Tracks watch k x y) :
    Tracks watch k (watchedIn watch k (.node n) x) y := by
  intro m hm
  unfold watchedIn
  split
  · next s hs =>
    exact .stopped (h m hm).keeps ⟨k, .node n, m, hs, hm, Nat.le_max_left _ _, nofun⟩
  · exact h m hm

/-! ## Calls -/

theorem Passes.of_succ (hk : k < maxDepth) {t : Token} (h : Passes watch (k + 1) t) :
    Passes watch k t := by
  obtain ⟨k', now, hle, hle', hw⟩ := h
  exact ⟨k', now, hle, by omega, hw⟩

theorem Stops.of_succ (hk : k < maxDepth) {s : Stop} {r : EStateM.Result Stop Machine α}
    (h : Stops watch (k + 1) s r) : Stops watch k s r := by
  obtain ⟨k', p, now, hw, hd, hle, hover⟩ := h
  exact ⟨k', p, now, hw, hd, by omega, hover⟩

/-- An action that is run as a call has one frame more. -/
theorem tracks_nested (paren : Token) (hk : k < maxDepth) {x y : Eval α}
    (h : Tracks watch (k + 1) x y) : Tracks watch k (nested paren x) (nested paren y) := by
  intro m hm
  have hxy := h { m with depth := m.depth + 1 } (by rw [hm])
  unfold nested
  rw [if_neg (by omega), if_neg (by omega)]
  generalize x { m with depth := m.depth + 1 } = r at hxy ⊢
  generalize y { m with depth := m.depth + 1 } = r' at hxy ⊢
  have back : ∀ {m' : Machine}, m'.depth = m.depth + 1 → m'.depth - 1 = m.depth := by omega
  cases hxy with
  | ok hk' => exact .ok ⟨hk'.scope, back hk'.depth⟩
  | error hk' ho => exact .error ⟨hk'.scope, back hk'.depth⟩ fun t e => (ho t e).of_succ hk
  | stopped hk' hs =>
    refine .stopped ?_ ((hs.of_succ hk).imp fun t m' e => by rw [e]; exact ⟨_, rfl⟩)
    cases r' <;> exact ⟨hk'.scope, back hk'.depth⟩

/-- A call overflows if it is entered with all frames in use, unless the watch stops it. -/
theorem tracks_entry (paren : Token) {x y : Eval α} (h : Tracks watch (k + 1) x y) :
    Tracks watch k (watchedIn watch k (.entry paren) (nested paren x)) (nested paren y) := by
  intro m hm
  unfold watchedIn
  by_cases hk : k < maxDepth
  · have hn := tracks_nested paren hk h m hm
    split
    · next s hs =>
      exact .stopped hn.keeps ⟨k, .entry paren, m, hs, hm, Nat.le_max_left _ _, fun _ _ hle => by omega⟩
    · exact hn
  · have he : ∀ z : Eval α, nested paren z m = .error (overflow paren) m :=
      fun z => if_pos (by omega)
    rw [he y]
    split
    · next s hs =>
      refine .stopped ⟨rfl, rfl⟩ ⟨k, .entry paren, m, hs, hm, Nat.le_max_left _ _, fun t ht _ => ?_⟩
      cases ht
      exact ⟨m, rfl⟩
    · next hnone =>
      rw [he x]
      refine .error ⟨rfl, rfl⟩ fun t ht => ?_
      cases ht
      exact ⟨k, m, by omega, Nat.le_max_left _ _, hnone⟩

/-! ## Objects -/

theorem tracks_attach (f : Closure) (o : InstanceId) : Tracks watch k (attach f o) (attach f o) :=
  tracks_bind (tracks_newScope _) fun _ => tracks_bind (tracks_modifyStore _) fun _ => tracks_pure _

theorem tracks_boundMethod (f : Closure) (o : InstanceId) :
    Tracks watch k (boundMethod f o) (boundMethod f o) :=
  tracks_bind (tracks_attach f o) fun _ => tracks_newFunction _

theorem tracks_defineAll (scope : ScopeId) (l : List (Token × Value)) :
    Tracks watch k (defineAll scope l) (defineAll scope l) := by
  induction l with
  | nil => exact tracks_pure ()
  | cons _ _ ih => exact tracks_bind (tracks_modifyStore _) fun _ => ih

theorem tracks_property (o : InstanceId) (name : Token) :
    Tracks watch k (property o name) (property o name) := by
  refine tracks_bind (tracks_inspect _) fun v => ?_
  cases v with
  | some v => exact tracks_pure v
  | none =>
    refine tracks_bind (tracks_inspect _) fun f => ?_
    cases f with
    | some f => exact tracks_boundMethod f o
    | none => exact tracks_fail _ nofun

theorem tracks_superMethod (keyword : Reference) (name : Token) :
    Tracks watch k (superMethod keyword name) (superMethod keyword name) := by
  unfold superMethod
  dsimp only
  split
  · exact tracks_fail _ nofun
  refine tracks_bind tracks_currentScope fun scope => tracks_found scope _ _ fun c => ?_
  split
  · split
    · exact tracks_fail _ nofun
    refine tracks_found scope _ _ fun o => ?_
    split
    · refine tracks_bind (tracks_inspect _) fun f => ?_
      split
      · exact tracks_boundMethod _ _
      · exact tracks_fail _ nofun
    · exact tracks_fail _ nofun
  · exact tracks_fail _ nofun

theorem tracks_declareClass (name : Token) (superclass : Option Reference)
    (methods : List (Routine Stmt)) :
    Tracks watch k (declareClass name superclass methods) (declareClass name superclass methods) := by
  have hsuper : Tracks watch k (superclassOf superclass) (superclassOf superclass) := by
    cases superclass with
    | none => exact tracks_pure none
    | some ref =>
      refine tracks_bind (tracks_lookUp ref) fun v => ?_
      split
      · exact tracks_pure _
      · exact tracks_fail _ nofun
  have hscope : ∀ c : Option ClassId, Tracks watch k (methodScope c) (methodScope c) := by
    intro c
    cases c with
    | none => exact tracks_currentScope
    | some c =>
      exact tracks_bind tracks_currentScope fun _ => tracks_bind (tracks_newScope _) fun _ =>
        tracks_bind (tracks_modifyStore _) fun _ => tracks_pure _
  exact tracks_bind hsuper fun c => tracks_bind (hscope c) fun _ =>
    tracks_bind (tracks_newClass _) fun _ => tracks_define _ _

/-! ## Callables -/

section Callables

variable {run run' : List Stmt → Eval Flow} (hrun : ∀ b, Tracks watch k (run b) (run' b))
include hrun

theorem tracks_callFunction (f : Closure) (args : List Value) :
    Tracks watch k (callFunction run f args) (callFunction run' f args) := by
  refine tracks_bind (tracks_newScope _) fun scope => tracks_bind (tracks_defineAll _ _) fun _ => ?_
  refine tracks_bind (tracks_within scope (hrun _)) fun flow => ?_
  split
  · exact tracks_receiverOf f
  · exact tracks_pure _
  · exact tracks_pure _

theorem tracks_instantiate (c : ClassId) (args : List Value) :
    Tracks watch k (instantiate run c args) (instantiate run' c args) := by
  refine tracks_bind (tracks_newInstance c) fun o => tracks_bind (tracks_inspect _) fun init => ?_
  cases init with
  | none => exact tracks_pure _
  | some init =>
    exact tracks_bind (tracks_attach init o) fun f =>
      tracks_bind (tracks_callFunction hrun f args) fun _ => tracks_pure _

theorem tracks_apply (callee : Value) (paren : Token) (args : List Value) :
    Tracks watch k (apply run callee paren args) (apply run' callee paren args) := by
  cases callee with
  | function id =>
    refine tracks_bind (tracks_inspect _) fun f => ?_
    cases f with
    | some f => exact tracks_callFunction hrun f args
    | none => exact tracks_fail _ nofun
  | native id =>
    refine tracks_bind (tracks_inspect _) fun f => ?_
    cases f with
    | none => exact tracks_fail _ nofun
    | some f =>
      cases f with
      | clock => exact tracks_readClock
      | host n host =>
        refine tracks_bind (tracks_inspect _) fun shown => tracks_liftAt _ ?_
        cases host shown <;> exact nofun
  | cls id => exact tracks_instantiate hrun id args
  | nil | bool | number | string | object => exact tracks_fail _ nofun

end Callables

theorem tracks_callFramed {run run' : List Stmt → Eval Flow}
    (hrun : ∀ b, Tracks watch (k + 1) (run b) (run' b)) (callee : Value) (paren : Token)
    (args : List Value) :
    Tracks watch k (callFramed watch k run callee paren args) (call run' callee paren args) := by
  refine tracks_bind (tracks_inspect _) fun arity => ?_
  cases arity with
  | none => exact tracks_fail _ nofun
  | some arity =>
    dsimp only
    split
    · exact tracks_fail _ nofun
    · exact tracks_entry paren (tracks_apply hrun callee paren args)

/-! ## Rules -/

section Rules

variable {ev ev' : Expr → Eval Value} {ex ex' : Stmt → Eval Flow}
  (hev : ∀ e, Tracks watch k (ev e) (ev' e)) (hex : ∀ s, Tracks watch k (ex s) (ex' s))

include hev in
theorem tracks_evalAll (es : List Expr) : Tracks watch k (evalAll ev es) (evalAll ev' es) := by
  induction es with
  | nil => exact tracks_pure []
  | cons e _ ih => exact tracks_bind (hev e) fun _ => tracks_bind ih fun _ => tracks_pure _

include hev in
theorem tracks_evalOption (e : Option Expr) :
    Tracks watch k (evalOption ev e) (evalOption ev' e) := by
  cases e with
  | none => exact tracks_pure _
  | some e => exact hev e

include hex in
theorem tracks_runAll (b : List Stmt) : Tracks watch k (runAll ex b) (runAll ex' b) := by
  induction b with
  | nil => exact tracks_pure _
  | cons s _ ih =>
    refine tracks_bind (hex s) fun f => ?_
    cases f with
    | normal => exact ih
    | returned v => exact tracks_pure _

theorem tracks_whileTrue {c c' : Eval Value} {b b' : Eval Flow} (hc : Tracks watch k c c')
    (hb : Tracks watch k b b') (n : Nat) :
    Tracks watch k (whileTrue c b n) (whileTrue c' b' n) := by
  induction n with
  | zero => exact tracks_exhausted
  | succ n ih =>
    refine tracks_bind hc fun v => ?_
    split
    · refine tracks_bind hb fun f => ?_
      cases f with
      | normal => exact ih
      | returned v => exact tracks_pure _
    · exact tracks_pure _

include hev in
theorem tracks_evalFramedOver {run run' : List Stmt → Eval Flow}
    (hrun : ∀ b, Tracks watch (k + 1) (run b) (run' b)) (e : Expr) :
    Tracks watch k (evalFramedOver watch k ev run e) (evalOver ev' run' e) := by
  cases e with
  | literal v => exact tracks_pure _
  | group e => exact hev e
  | unary op e => exact tracks_bind (hev e) fun v => tracks_liftAt op (Value.unary_ne_overflow _ v)
  | binary op a b =>
    exact tracks_bind (hev a) fun u => tracks_bind (hev b) fun v =>
      tracks_liftAt op (Value.binary_ne_overflow _ u v)
  | logical op a b =>
    refine tracks_bind (hev a) fun v => ?_
    split
    · exact tracks_pure _
    · exact hev b
  | var r => exact tracks_lookUp r
  | assign r e =>
    exact tracks_bind (hev e) fun v => tracks_bind (tracks_assign r v) fun _ => tracks_pure v
  | call f paren args =>
    exact tracks_bind (hev f) fun v => tracks_bind (tracks_evalAll hev args) fun vs =>
      tracks_callFramed hrun v paren vs
  | get o name =>
    refine tracks_bind (hev o) fun v => ?_
    split
    · exact tracks_property _ name
    · exact tracks_fail _ nofun
  | set o name e =>
    refine tracks_bind (hev o) fun v => ?_
    split
    · exact tracks_bind (hev e) fun v => tracks_bind (tracks_modifyStore _) fun _ => tracks_pure v
    · exact tracks_fail _ nofun
  | receiver r => exact tracks_lookUp r
  | inherited r name => exact tracks_superMethod r name

include hev hex in
theorem tracks_execOver (n : Nat) (s : Stmt) :
    Tracks watch k (execOver ev ex n s) (execOver ev' ex' n s) := by
  cases s with
  | expression e => exact tracks_bind (hev e) fun _ => tracks_pure _
  | print e =>
    exact tracks_bind (hev e) fun _ => tracks_bind (tracks_inspect _) fun text =>
      tracks_bind (tracks_printLine text) fun _ => tracks_pure _
  | declare name e =>
    exact tracks_bind (tracks_evalOption hev e) fun v =>
      tracks_bind (tracks_define name.lexeme v) fun _ => tracks_pure _
  | block b =>
    exact tracks_bind tracks_currentScope fun _ => tracks_bind (tracks_newScope _) fun scope =>
      tracks_within scope (tracks_runAll hex b)
  | branch c t a =>
    refine tracks_bind (hev c) fun v => ?_
    split
    · exact hex t
    · cases a with
      | some a => exact hex a
      | none => exact tracks_pure _
  | loop c b => exact tracks_whileTrue (hev c) (hex b) n
  | function r =>
    exact tracks_bind tracks_currentScope fun _ => tracks_bind (tracks_newFunction _) fun f =>
      tracks_bind (tracks_define _ f) fun _ => tracks_pure _
  | leave t e => exact tracks_bind (tracks_evalOption hev e) fun _ => tracks_pure _
  | classDecl name superclass methods =>
    exact tracks_bind (tracks_declareClass name superclass methods) fun _ => tracks_pure _

end Rules

/-- The evaluators with frames run like the evaluators, however many frames there are. -/
theorem tracks_framed (watch : FrameWatch) (n : Nat) :
    ∀ k, (∀ e, Tracks watch k (evalFramed watch n k e) (eval n e)) ∧
      ∀ s, Tracks watch k (execFramed watch n k s) (exec n s) := by
  induction n with
  | zero =>
    refine fun k => ⟨fun e => ?_, fun s => ?_⟩
    · rw [evalFramed, eval_zero]
      exact tracks_exhausted
    · rw [execFramed, exec_zero]
      exact tracks_exhausted
  | succ n ih =>
    refine fun k => ⟨fun e => ?_, fun s => ?_⟩
    · rw [evalFramed, eval_succ]
      exact tracks_watchedIn _ (tracks_evalFramedOver (ih k).1 (tracks_runAll (ih (k + 1)).2) e)
    · rw [execFramed, exec_succ]
      exact tracks_watchedIn _ (tracks_execOver (ih k).1 (ih k).2 n s)

end Eval

end Treewalk
