import Treewalk.Proofs.Lockstep.Evaluation
import Treewalk.Proofs.Moments

/-!
# Runs that are images of runs

A correspondence may relate each routine to one other alone, its image. Then a machine has one
machine that it corresponds to (`Image.machine_eq`), and a run in step with another ends with
the image of how the other ends (`Image.ends_eq`). What the correspondence gives for a node
holds whenever one of the two runs comes to it (`of_visitsRead`, `Image.of_visits`), and the two come
to the same nodes (`Image.visits_iff`).
-/

namespace Treewalk

/-! ## Changing routines -/

def Bindings.map {α β : Type} (f : α → β) (b : Bindings α) : Bindings β :=
  ⟨b.entries.map fun p => (p.1, f p.2)⟩

def Closure.mapRoutine (f : Routine Stmt → Routine Stmt) (c : Closure) : Closure :=
  { c with routine := f c.routine }

def ClassInfo.mapRoutines (f : Routine Stmt → Routine Stmt) (c : ClassInfo) : ClassInfo :=
  { c with methods := c.methods.map (Closure.mapRoutine f) }

def Store.mapRoutines (f : Routine Stmt → Routine Stmt) (st : Store) : Store :=
  { st with
    functions := st.functions.map (Closure.mapRoutine f)
    classes := st.classes.map (ClassInfo.mapRoutines f) }

/-- The machine with all its routines changed. -/
def Machine.mapRoutines (f : Routine Stmt → Routine Stmt) (m : Machine) : Machine :=
  { m with store := m.store.mapRoutines f }

theorem Machine.mapRoutines_id (m : Machine) : m.mapRoutines id = m := by
  have hclosure : Closure.mapRoutine id = id := rfl
  have hclass : ClassInfo.mapRoutines id = id := by
    funext c
    simp [ClassInfo.mapRoutines, Bindings.map, hclosure]
  simp [Machine.mapRoutines, Store.mapRoutines, hclosure, hclass]

def Stop.map (g : Diagnostic → Diagnostic) : Stop → Stop
  | .fault d => .fault (g d)
  | .exhausted => .exhausted

/-- A result with its machine and its fault changed. -/
def Eval.image {α : Type} (f : Machine → Machine) (g : Diagnostic → Diagnostic) :
    EStateM.Result Stop Machine α → EStateM.Result Stop Machine α
  | .ok a m => .ok a (f m)
  | .error e m => .error (e.map g) (f m)

theorem Eval.image_eq_mapMachine {α : Type} (f : Machine → Machine)
    (r : EStateM.Result Stop Machine α) : image f id r = mapMachine f r := by
  cases r with
  | ok => rfl
  | error e => cases e <;> rfl

theorem Eval.image_id {α : Type} (r : EStateM.Result Stop Machine α) :
    image (Machine.mapRoutines id) id r = r := by
  cases r <;> simp [image_eq_mapMachine, mapMachine, Machine.mapRoutines_id]

namespace Correspondence

/-- What is in step with a routine or a fault is its image. -/
structure Image (C : Correspondence) (f : Routine Stmt → Routine Stmt)
    (g : Diagnostic → Diagnostic) : Prop where
  routine_eq {κ : C.Ctx} {r r' : Routine Stmt} : C.Routines κ r r' → f r = r'
  fault_eq {d d' : Diagnostic} : C.fault d d' → g d = d'
  scopes_eq {w : C.World} {σ σ' : Scopes} : C.scopes w σ σ' → σ = σ'

variable {C : Correspondence} {w : C.World} {κ : C.Ctx} {s : ScopeId} {m m' : Machine}
  {p p' : Program} {fuel : Nat} {f : Routine Stmt → Routine Stmt} {g : Diagnostic → Diagnostic}

theorem Ends.after {α β : Type} {Q : C.World → α → β → Prop} {r : EStateM.Result Stop Machine α}
    {r' : EStateM.Result Stop Machine β} (h : C.Ends w s Q r r') :
    ∃ w', C.le w w' ∧ C.Machines w' s (Eval.after r) (Eval.after r') := by
  cases h with
  | ok hle hm _ | error hle hm _ => exact ⟨_, hle, hm⟩

namespace Image

theorem closure_eq {c c' : Closure} (hr : f c.routine = c'.routine) (hs : c.scope = c'.scope)
    (hrole : c.role = c'.role) : c.mapRoutine f = c' := by
  cases c; cases c'
  simp_all [Closure.mapRoutine]

theorem function_eq (hC : C.Image f g) {c c' : Closure} (h : C.Functions w c c') :
    c.mapRoutine f = c' := by
  obtain ⟨hscope, hrole, κ, _, hr, _⟩ := h
  exact closure_eq (hC.routine_eq hr) hscope hrole

theorem method_eq (hC : C.Image f g) {c c' : Closure} (h : C.Methods w c c') :
    c.mapRoutine f = c' := by
  obtain ⟨hscope, hrole, κ, _, hr⟩ := h
  exact closure_eq (hC.routine_eq hr) hscope hrole

theorem class_eq (hC : C.Image f g) {c c' : ClassInfo} (h : C.Classes w c c') :
    c.mapRoutines f = c' := by
  obtain ⟨name, superclass, ⟨methods⟩⟩ := c
  obtain ⟨name', superclass', ⟨methods'⟩⟩ := c'
  obtain ⟨hname, hsuper, hmethods⟩ := h
  have hm : methods.map (fun p => (p.1, p.2.mapRoutine f)) = methods' := by
    refine List.forall₂_eq_eq_eq ▸ List.forall₂_map_left_iff.mpr
      (List.Forall₂.imp (fun _ _ hpq => ?_) hmethods)
    exact Prod.ext hpq.1 (hC.method_eq hpq.2)
  rw [ClassInfo.mapRoutines, Bindings.map, show name = name' from hname,
    show superclass = superclass' from hsuper, hm]

theorem eq_of_rel {α : Type} {R : α → α → Prop} {f : α → α} (h : ∀ a b, R a b → f a = b)
    {xs ys : Array α} (hxy : ∀ i : Nat, Option.Rel R xs[i]? ys[i]?) : xs.map f = ys := by
  refine Array.ext_getElem? fun i => ?_
  have hi := hxy i
  rw [Array.getElem?_map]
  revert hi
  generalize xs[i]? = x
  generalize ys[i]? = y
  rintro (hab | _)
  · exact congrArg some (h _ _ hab)
  · rfl

/-- What is in step with a machine is its image. -/
theorem machine_eq (hC : C.Image f g) (h : C.Machines w s m m') : m.mapRoutines f = m' := by
  obtain ⟨⟨σ, fs, ns, cs, is⟩, sc, dp, out, ck, tk⟩ := m
  obtain ⟨⟨σ', fs', ns', cs', is'⟩, sc', dp', out', ck', tk'⟩ := m'
  obtain ⟨hst, hsc, hsc', hdp, hout, hck, htk⟩ := h
  have hf : fs.map (Closure.mapRoutine f) = fs' :=
    eq_of_rel (R := C.Functions w) (fun _ _ h => hC.function_eq h) hst.functions
  have hc : cs.map (ClassInfo.mapRoutines f) = cs' :=
    eq_of_rel (R := C.Classes w) (fun _ _ h => hC.class_eq h) hst.classes
  rw [Machine.mapRoutines, Store.mapRoutines, hf, hc, show σ = σ' from hC.scopes_eq hst.scopes,
    show ns = ns' from hst.natives, show is = is' from hst.instances,
    show sc = sc' from hsc.trans hsc'.symm, show dp = dp' from hdp, show out = out' from hout,
    show ck = ck' from hck, show tk = tk' from htk]

theorem ends_eq (hC : C.Image f g) {α : Type} {r r' : EStateM.Result Stop Machine α}
    (h : C.Ends w s C.Same r r') : Eval.image (Machine.mapRoutines f) g r = r' := by
  cases h with
  | ok _ hm hab => rw [Eval.image, hC.machine_eq hm, show _ = _ from hab]
  | error _ hm he =>
    rw [Eval.image, hC.machine_eq hm]
    cases he with
    | exhausted => rfl
    | fault hd => rw [Stop.map, hC.fault_eq hd]

/-- The second run only comes to nodes that the correspondence gives `P` for. -/
theorem of_visits (hC : C.Image f g) {P : Node → Machine → Prop}
    (hexpr : ∀ {w κ s e e' m m'}, C.Machines w s m m' → C.stands w κ s → C.expr κ e e' →
      P (.expr e') m')
    (hstmt : ∀ {w κ κ' s t t' m m'}, C.Machines w s m m' → C.stands w κ s → C.stmt κ t t' κ' →
      P (.stmt t') m')
    (hm : C.Machines w s m m') (hκ : C.stands w κ s) (hp : C.Stmts κ p p') {node : Node}
    {now : Machine} (hv : Eval.Visits fuel p' m' node now) : P node now := by
  refine Eval.Visits.of_silent (fun watch hwatch => ?_) hv
  have hpass : ∀ {n m'}, P n m' → Option.Rel C.Stops (Eval.silent n m') (watch n m') := by
    intro n m' hP
    rw [hwatch _ _ hP]
    exact .none
  have halike : C.Alike Eval.silent watch :=
    ⟨fun h hs he => hpass (hexpr h hs he), fun h hs ht => hpass (hstmt h hs ht)⟩
  have hwatched := hC.ends_eq (runAll_watched_sim halike hκ hp fuel m m' hm)
  exact hwatched.symm.trans (hC.ends_eq (runAll_read_sim hκ hp fuel m m' hm))

/-- The second run comes to a node just where the first comes to code and a machine whose images
these are. -/
theorem visits_iff (hC : C.Image f g) {strip : Node → Node}
    (hexpr : ∀ {κ e e'}, C.expr κ e e' → strip (.expr e) = .expr e')
    (hstmt : ∀ {κ κ' t t'}, C.stmt κ t t' κ' → strip (.stmt t) = .stmt t')
    (hm : C.Machines w s m m') (hκ : C.stands w κ s) (hp : C.Stmts κ p p') {node : Node}
    {now : Machine} : Eval.Visits fuel p' m' node now ↔
      ∃ x now', Eval.VisitsRead C.reading fuel p m x now' ∧ strip x = node ∧
        now'.mapRoutines f = now := by
  classical
  -- a stop that both runs know and that the second does not end with by itself
  obtain ⟨e, hstops, hmap, hne⟩ : ∃ e, C.Stops e e ∧ e.map g = e ∧
      ∀ m₁, Eval.runAll (Eval.exec fuel) p' m' ≠ .error e m₁ := by
    have hfault : Stop.map g (.fault (.channel .sinkFull)) = .fault (.channel .sinkFull) := by
      rw [Stop.map, hC.fault_eq (C.fault_channel _)]
    cases Eval.runAll (Eval.exec fuel) p' m' with
    | ok => exact ⟨.exhausted, .exhausted, rfl, nofun⟩
    | error e =>
      cases e with
      | exhausted => exact ⟨_, .fault (C.fault_channel _), hfault, nofun⟩
      | fault => exact ⟨.exhausted, .exhausted, rfl, nofun⟩
  let watch' : Watch := fun n m₁ => if n = node ∧ m₁ = now then some e else none
  let watch : Watch := fun n m₁ => watch' (strip n) (m₁.mapRoutines f)
  have honly : ∀ n m₁, watch' n m₁ ≠ none → n = node ∧ m₁ = now :=
    fun n m₁ h => Classical.byContradiction fun hne => h (if_neg hne)
  have hsame : ∀ n m₁, watch' n m₁ ≠ none → watch' n m₁ = some e :=
    fun n m₁ h => if_pos (honly n m₁ h)
  have hself : ∀ n m₁, Option.Rel C.Stops (watch' n m₁) (watch' n m₁) := by
    intro n m₁
    simp only [watch']
    split
    · exact .some hstops
    · exact .none
  have halike : C.Alike watch watch' := by
    refine ⟨fun h _ he => ?_, fun h _ ht => ?_⟩
    · simp only [watch, hexpr he, hC.machine_eq h]
      exact hself _ _
    · simp only [watch, hstmt ht, hC.machine_eq h]
      exact hself _ _
  have hwatched := hC.ends_eq (runAll_watched_sim halike hκ hp fuel m m' hm)
  have hsilent := hC.ends_eq (runAll_read_sim hκ hp fuel m m' hm)
  constructor
  · intro hv
    obtain ⟨m₁, hstopped⟩ := hv.stopped (if_pos ⟨rfl, rfl⟩) hsame
    have hchanged : Eval.runAll (Eval.execRead C.reading watch fuel) p m ≠
        Eval.runAll (Eval.execRead C.reading Eval.silent fuel) p m := by
      intro heq
      rw [heq, hsilent] at hwatched
      exact hne m₁ (hwatched.trans hstopped)
    obtain ⟨x, now', hx, hcomes⟩ := Eval.exists_visitsRead hchanged
    exact ⟨x, now', hcomes, honly _ _ hx⟩
  · rintro ⟨x, now', hcomes, rfl, rfl⟩
    obtain ⟨m₁, hstopped⟩ := hcomes.stopped (show watch x now' = some e from if_pos ⟨rfl, rfl⟩)
      fun n m₁ h => hsame _ _ h
    rw [hstopped, Eval.image, hmap] at hwatched
    exact ⟨watch', honly, fun heq => hne _ (heq.symm.trans hwatched.symm)⟩

end Image

/-- The first run only comes to nodes that the correspondence gives `P` for. -/
theorem of_visitsRead {P : Node → Machine → Prop}
    (hexpr : ∀ {w κ s e e' m m'}, C.Machines w s m m' → C.stands w κ s → C.expr κ e e' →
      P (.expr e) m)
    (hstmt : ∀ {w κ κ' s t t' m m'}, C.Machines w s m m' → C.stands w κ s → C.stmt κ t t' κ' →
      P (.stmt t) m)
    (hm : C.Machines w s m m') (hκ : C.stands w κ s) (hp : C.Stmts κ p p') {node : Node}
    {now : Machine} (hv : Eval.VisitsRead C.reading fuel p m node now) : P node now := by
  classical
  refine Classical.byContradiction fun hP => ?_
  -- a stop that the second run does not end with
  obtain ⟨e, hne⟩ : ∃ e, ∀ m₁, ¬ C.Ends w s C.Same (.error e m₁)
      (Eval.runAll (Eval.exec fuel) p' m') := by
    cases Eval.runAll (Eval.exec fuel) p' m' with
    | ok => exact ⟨.exhausted, nofun⟩
    | error e =>
      cases e with
      | exhausted =>
        refine ⟨.fault (.channel .sinkFull), fun _ h => ?_⟩
        cases h with | error _ _ hstop => cases hstop
      | fault =>
        refine ⟨.exhausted, fun _ h => ?_⟩
        cases h with | error _ _ hstop => cases hstop
  rcases Eval.unchanged_or_visitsRead C.reading fuel p m (fun n m₁ => ¬ P n m₁) with
    hsame | ⟨n₁, m₁, m₂, hD, _, hstop⟩
  · obtain ⟨watch, honly, hchanged⟩ := hv
    refine hchanged (hsame watch fun n m₁ hn => ?_)
    obtain ⟨rfl, rfl⟩ := honly n m₁ hn
    exact hP
  · let watch : Watch := fun n m₁ => if P n m₁ then none else some e
    have hpass : ∀ {n n' m₁ m₁'}, P n m₁ → Option.Rel C.Stops (watch n m₁) (Eval.silent n' m₁') := by
      intro n n' m₁ m₁' hP
      rw [show watch n m₁ = none from if_pos hP]
      exact .none
    have halike : C.Alike watch Eval.silent :=
      ⟨fun h hs he => hpass (hexpr h hs he), fun h hs ht => hpass (hstmt h hs ht)⟩
    have hends := runAll_watched_sim halike hκ hp fuel m m' hm
    rw [hstop watch e (fun n m₁ hn hP => hn (if_pos hP)) (if_neg hD), Eval.runAll_silent] at hends
    exact hne m₂ hends

end Correspondence

end Treewalk
