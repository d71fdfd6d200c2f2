import Treewalk.Proofs.Congruence
import Treewalk.Proofs.Watch

/-!
# The moments of a run

Of all the nodes where watches might stop a run there is a first one that it comes to, and a
watch that stops there stops the run, whatever it stops it with (`Eval.Heeds`). So what a watch
changes it changes at a node that the run comes to (`Eval.exists_visits`), and a watch that is
silent at all of those changes nothing.

An invariant that is kept from node to node may speak about the nodes passed before. To show
that it holds wherever a run comes to, watch for the nodes where it fails: the alarm is never
raised (`Eval.Visits.of_unalarmed`).
-/

namespace Treewalk

/-- The watch stops at nodes of `D` only. -/
def Watch.Within (w : Watch) (D : Node → Machine → Prop) : Prop :=
  ∀ node m, w node m ≠ none → D node m

theorem Watch.Within.eq_none {w : Watch} {D : Node → Machine → Prop} (h : w.Within D) {node : Node}
    {m : Machine} (hD : ¬ D node m) : w node m = none :=
  Classical.byContradiction fun hw => hD (h node m hw)

namespace Eval

variable {α β : Type}

/-! ## The first node where a watch stops -/

/-- How the watches within `D` change an action: not at all, or there is a first node of `D`
that it comes to, and those that stop there stop it. -/
inductive Heeded (D : Node → Machine → Prop) (x : Watch → Eval α) (m : Machine) : Prop
  | unchanged : (∀ w : Watch, w.Within D → x w m = x silent m) → Heeded D x m
  | stopped {node : Node} {now m' : Machine} : D node now →
    (∀ (w : Watch) (e : Stop), w.Within D → w node now = some e → x w m = .error e m') →
    Heeded D x m

/-- The action depends on a watch by where the watch stops first. -/
def Heeds (x : Watch → Eval α) : Prop :=
  ∀ D m, Heeded D x m

theorem heeds_const (x : Eval α) : Heeds fun _ => x :=
  fun _ _ => .unchanged fun _ _ => rfl

theorem Heeds.bind {x : Watch → Eval α} {f : Watch → α → Eval β} (hx : Heeds x)
    (hf : ∀ a, Heeds fun w => f w a) : Heeds fun w => x w >>= f w := by
  intro D m
  cases hx D m with
  | stopped hD h => exact .stopped hD fun w e hw he => bind_of_error (h w e hw he) _
  | unchanged h =>
    cases hr : x silent m with
    | error e m' =>
      refine .unchanged fun w hw => ?_
      exact (bind_of_error ((h w hw).trans hr) _).trans (bind_of_error hr _).symm
    | ok a m' =>
      cases hf a D m' with
      | stopped hD h' =>
        exact .stopped hD fun w e hw he =>
          (bind_of_ok ((h w hw).trans hr) _).trans (h' w e hw he)
      | unchanged h' =>
        refine .unchanged fun w hw => ?_
        exact (bind_of_ok ((h w hw).trans hr) _).trans ((h' w hw).trans (bind_of_ok hr _).symm)

/-- An action between two changes of the machine. -/
theorem Heeded.between {D : Node → Machine → Prop} {x y : Watch → Eval α} {m m' : Machine}
    {back : Machine → Machine} (hx : Heeded D x m') (h : ∀ w, y w m = mapMachine back (x w m')) :
    Heeded D y m := by
  cases hx with
  | unchanged hx => exact .unchanged fun w hw => by rw [h, h, hx w hw]
  | stopped hD hx => exact .stopped hD fun w e hw he => by rw [h, hx w e hw he, mapMachine]

theorem Heeds.within {x : Watch → Eval α} (hx : Heeds x) (scope : ScopeId) :
    Heeds fun w => within scope (x w) :=
  fun D m => (hx D { m with scope }).between fun w => within_eq scope (x w) m

theorem Heeds.nested {x : Watch → Eval α} (hx : Heeds x) (t : Token) :
    Heeds fun w => nested t (x w) := by
  intro D m
  by_cases hd : maxDepth ≤ m.depth
  · have hfail : ∀ w, Eval.nested t (x w) m = fail t .stackOverflow m := fun w => by
      rw [nested_eq, if_pos hd]
    exact .unchanged fun w _ => (hfail w).trans (hfail silent).symm
  · exact (hx D { m with depth := m.depth + 1 }).between fun w => by rw [nested_eq, if_neg hd]

theorem Heeds.watched {x : Watch → Eval α} (hx : Heeds x) (node : Node) :
    Heeds fun w => watched w node (x w) := by
  intro D m
  by_cases hD : D node m
  · have hstop : ∀ (w : Watch) (e : Stop), w.Within D → w node m = some e →
        Eval.watched w node (x w) m = .error e m := fun w e _ he => by
      simp only [Eval.watched, he]
    exact .stopped hD hstop
  · have hpass : ∀ w : Watch, w.Within D → Eval.watched w node (x w) m = x w m :=
      fun w hw => watched_of_none _ (hw.eq_none hD)
    cases hx D m with
    | unchanged h => exact .unchanged fun w hw => (hpass w hw).trans (h w hw)
    | stopped hD' h => exact .stopped hD' fun w e hw he => (hpass w hw).trans (h w e hw he)

/-! ## Rules -/

theorem heeds_congruence : Congruence @Heeds where
  const _ := heeds_const _
  bind := Heeds.bind
  within scope h := h.within scope
  nested t h := h.nested t

theorem heeds_whileTrue {c : Watch → Eval Value} {b : Watch → Eval Flow} (hc : Heeds c)
    (hb : Heeds b) (n : Nat) : Heeds fun w => whileTrue (c w) (b w) n := by
  induction n with
  | zero => exact heeds_const _
  | succ n ih =>
    refine .bind hc fun v => ?_
    split
    · refine .bind hb fun flow => ?_
      cases flow with
      | normal => exact ih
      | returned v => exact heeds_const _
    · exact heeds_const _

theorem heeds_read (reading : CodeReading) (n : Nat) :
    (∀ e, Heeds fun w => evalRead reading w n e) ∧ ∀ s, Heeds fun w => execRead reading w n s := by
  induction n with
  | zero =>
    simp only [evalRead, execRead]
    exact ⟨fun _ => heeds_const _, fun _ => heeds_const _⟩
  | succ n ih =>
    simp only [evalRead, execRead]
    have hrun := heeds_congruence.runAll ih.2
    exact ⟨fun e => (heeds_congruence.evalOver hrun ih.1 _).watched (.expr e),
      fun s => (heeds_congruence.execOver ih.1 ih.2
        (fun c s => heeds_whileTrue (ih.1 c) (ih.2 s) n) _
        fun e _ => (ih.1 e).bind fun _ => heeds_const _).watched (.stmt s)⟩

theorem heeds_watched (n : Nat) : (∀ e, Heeds fun w => evalWatched w n e) ∧
    ∀ s, Heeds fun w => execWatched w n s := by
  have h := heeds_read .plain n
  simp only [(read_plain _ n).1, (read_plain _ n).2] at h
  exact h

/-! ## What a watch changes -/

variable {fuel : Nat} {p : Program} {m : Machine}

theorem runAll_silent : runAll (execWatched silent fuel) p m = runAll (exec fuel) p m := by
  rw [show execWatched silent fuel = exec fuel from funext (watched_eq fuel).2]

theorem exists_stop_ne (r : EStateM.Result Stop Machine α) : ∃ e, ∀ m', r ≠ .error e m' := by
  cases r with
  | ok => exact ⟨.exhausted, by simp⟩
  | error e =>
    cases e with
    | exhausted => exact ⟨.fault (.channel .sinkFull), by simp⟩
    | fault => exact ⟨.exhausted, by simp⟩

/-- Watches within `D` change nothing, or there is a node of `D` that the run comes to, where
every one of them that stops there stops the run. -/
theorem unchanged_or_visitsRead (reading : CodeReading) (fuel : Nat) (p : Program) (m : Machine)
    (D : Node → Machine → Prop) :
    (∀ w : Watch, w.Within D →
      runAll (execRead reading w fuel) p m = runAll (execRead reading silent fuel) p m) ∨
    ∃ node now m', D node now ∧ VisitsRead reading fuel p m node now ∧
      ∀ (w : Watch) (e : Stop), w.Within D → w node now = some e →
        runAll (execRead reading w fuel) p m = .error e m' := by
  cases heeds_congruence.runAll (heeds_read reading fuel).2 p D m with
  | unchanged h => exact .inl h
  | @stopped node now m' hD h =>
    refine .inr ⟨node, now, m', hD, ?_, h⟩
    classical
    -- a watch at this node alone stops the run with something that it does not end with itself
    obtain ⟨e, he⟩ := exists_stop_ne (runAll (execRead reading silent fuel) p m)
    let only : Watch := fun n m' => if n = node ∧ m' = now then some e else none
    have honly : ∀ n m', only n m' ≠ none → n = node ∧ m' = now :=
      fun n m' hn => Classical.byContradiction fun hne => hn (if_neg hne)
    refine ⟨only, honly, fun heq => he m' ?_⟩
    rw [← heq]
    refine h only e (fun n m' hn => ?_) (if_pos ⟨rfl, rfl⟩)
    obtain ⟨rfl, rfl⟩ := honly n m' hn
    exact hD

theorem visitsRead_plain {node : Node} {now : Machine} :
    VisitsRead .plain fuel p m node now ↔ Visits fuel p m node now := by
  simp only [VisitsRead, Visits, ← runAll_silent,
    show ∀ w, execRead .plain w fuel = execWatched w fuel from
      fun w => funext (read_plain w fuel).2]

theorem unchanged_or_visits (fuel : Nat) (p : Program) (m : Machine) (D : Node → Machine → Prop) :
    (∀ w : Watch, w.Within D → runAll (execWatched w fuel) p m = runAll (exec fuel) p m) ∨
    ∃ node now m', D node now ∧ Visits fuel p m node now ∧
      ∀ (w : Watch) (e : Stop), w.Within D → w node now = some e →
        runAll (execWatched w fuel) p m = .error e m' := by
  have h := unchanged_or_visitsRead .plain fuel p m D
  simp only [visitsRead_plain, show ∀ w, execRead .plain w fuel = execWatched w fuel from
    fun w => funext (read_plain w fuel).2, runAll_silent] at h
  exact h

/-- What a watch changes, it changes at a node that the run comes to. -/
theorem exists_visitsRead {reading : CodeReading} {w : Watch}
    (h : runAll (execRead reading w fuel) p m ≠ runAll (execRead reading silent fuel) p m) :
    ∃ node now, w node now ≠ none ∧ VisitsRead reading fuel p m node now := by
  rcases unchanged_or_visitsRead reading fuel p m fun node now => w node now ≠ none with
    hsame | ⟨node, now, _, hD, hv, _⟩
  · exact absurd (hsame w fun _ _ hw => hw) h
  · exact ⟨node, now, hD, hv⟩

theorem exists_visits {w : Watch} (h : runAll (execWatched w fuel) p m ≠ runAll (exec fuel) p m) :
    ∃ node now, w node now ≠ none ∧ Visits fuel p m node now := by
  rcases unchanged_or_visits fuel p m fun node now => w node now ≠ none with
    hsame | ⟨node, now, _, hD, hv, _⟩
  · exact absurd (hsame w fun _ _ hw => hw) h
  · exact ⟨node, now, hD, hv⟩

/-- A watch that stops where the run comes to stops the run, if all its stops are the same. -/
theorem VisitsRead.stopped {reading : CodeReading} {node : Node} {now : Machine}
    (hv : VisitsRead reading fuel p m node now) {watch : Watch} {e : Stop}
    (hself : watch node now = some e) (hsame : ∀ n m', watch n m' ≠ none → watch n m' = some e) :
    ∃ m', runAll (execRead reading watch fuel) p m = .error e m' := by
  rcases unchanged_or_visitsRead reading fuel p m fun n m' => watch n m' ≠ none with
    hunchanged | ⟨n₁, m₁, m', hD, _, hstop⟩
  · obtain ⟨w, hw, hchanged⟩ := hv
    refine absurd (hunchanged w fun n m' hn => ?_) hchanged
    obtain ⟨rfl, rfl⟩ := hw n m' hn
    exact hself ▸ nofun
  · exact ⟨m', hstop watch e (fun _ _ h => h) (hsame n₁ m₁ hD)⟩

theorem Visits.stopped {node : Node} {now : Machine} (hv : Visits fuel p m node now) {watch : Watch}
    {e : Stop} (hself : watch node now = some e)
    (hsame : ∀ n m', watch n m' ≠ none → watch n m' = some e) :
    ∃ m', runAll (execWatched watch fuel) p m = .error e m' := by
  have h := (visitsRead_plain.mpr hv).stopped hself hsame
  rwa [show execRead .plain watch fuel = execWatched watch fuel from
    funext (read_plain watch fuel).2] at h

/-- A watch that is silent wherever the run comes to leaves the run as it is. -/
theorem runAll_of_silent_visits {w : Watch}
    (h : ∀ node now, Visits fuel p m node now → w node now = none) :
    runAll (execWatched w fuel) p m = runAll (exec fuel) p m := by
  refine Classical.byContradiction fun hne => ?_
  obtain ⟨node, now, hw, hv⟩ := exists_visits hne
  exact hw (h node now hv)

/-- If a watch that lets pass only nodes that the run comes to and is not alarmed where `P`
holds never ends the run with the alarm, then `P` holds wherever the run comes to. -/
theorem Visits.of_unalarmed {P : Node → Machine → Prop} (alarm : Stop)
    (h : ∀ w : Watch, (∀ n m', w n m' = none → Visits fuel p m n m') →
      (∀ n m', P n m' → w n m' ≠ some alarm) →
      ∀ m', runAll (execWatched w fuel) p m ≠ .error alarm m') {node : Node} {now : Machine}
    (hv : Visits fuel p m node now) : P node now := by
  classical
  obtain ⟨other, hother⟩ := exists_stop_ne (.error alarm m : EStateM.Result Stop Machine Unit)
  have hne : other ≠ alarm := fun heq => hother m (by rw [heq])
  let w : Watch := fun n m' =>
    if Visits fuel p m n m' then if P n m' then none else some alarm else some other
  have hpass : ∀ n m', w n m' = none → Visits fuel p m n m' ∧ P n m' := by
    intro n m' hn
    by_cases hv : Visits fuel p m n m' <;> by_cases hp : P n m' <;> simp_all [w]
  rcases unchanged_or_visits fuel p m fun n m' => ¬ (Visits fuel p m n m' ∧ P n m') with
    hsame | ⟨n₁, m₁, m', hD, hv₁, hstop⟩
  · obtain ⟨watch, honly, hchanged⟩ := hv
    refine Classical.byContradiction fun hp => hchanged (hsame watch fun n m' hn => ?_)
    obtain ⟨rfl, rfl⟩ := honly n m' hn
    exact fun h => hp h.2
  · have hp₁ : ¬ P n₁ m₁ := fun hp => hD ⟨hv₁, hp⟩
    have halarm : w n₁ m₁ = some alarm := by simp [w, hv₁, hp₁]
    refine absurd (hstop w alarm (fun n m' hn hD => hn ?_) halarm) ?_
    · simp [w, hD.1, hD.2]
    · refine h w (fun n m' hn => (hpass n m' hn).1) (fun n m' hp => ?_) m'
      by_cases hv : Visits fuel p m n m' <;> simp [w, hv, hp, hne]

end Eval

end Treewalk
