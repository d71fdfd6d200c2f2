import Treewalk.Proofs.Frames

/-!
# Scope and depth after every exit

An action may enter scopes and calls, and it may end early at any depth. Whichever way it
ends, it leaves every scope and every call that it entered (`control_state_restored`). While
a program runs, the machine counts exactly the active calls, and the only thing that
overflows is a call that is entered when all frames are in use.
-/

namespace Treewalk

open Eval

/-- However the action ends, scope and count of calls are what they were. -/
def Eval.Restores {α : Type} (x : Eval α) : Prop :=
  ∀ m, Keeps m (x m)

/-- The machines that programs lead to, whether or not they were resolved, each run to its
end or to what stopped it. Between programs the host may add native functions. -/
inductive Interpreted (out : Sink) (clock : Nat → Float) : Machine → Prop
  | start : Interpreted out clock (.start out clock)
  | run {m : Machine} (fuel : Nat) (program : Program) : Interpreted out clock m →
    Interpreted out clock (after (interpret fuel program m))
  | native {m : Machine} (name : String) (f : Native) : Interpreted out clock m →
    Interpreted out clock (m.defineNative name f)

variable {α : Type} {fuel : Nat} {program : Program} {m : Machine}

theorem restores_of_tracks {x : Nat → Eval α} {y : Eval α}
    (h : ∀ k, Tracks (fun _ _ _ => none) k (x k) y) : Restores y :=
  fun m => (h m.depth m rfl).keeps

theorem tracks_exec (watch : FrameWatch) (fuel k : Nat) (b : List Stmt) :
    Tracks watch k (runAll (execFramed watch fuel k) b) (runAll (exec fuel) b) :=
  tracks_runAll (tracks_framed watch fuel k).2 b

theorem Interpreted.idle {out : Sink} {clock : Nat → Float} (h : Interpreted out clock m) :
    m.scope = Machine.globals ∧ m.depth = 0 := by
  induction h with
  | start => exact ⟨rfl, rfl⟩
  | run fuel program _ ih =>
    have hk : Restores (runAll (exec fuel) program) :=
      restores_of_tracks fun k => tracks_exec _ fuel k program
    rw [interpret_eq, after_flushed]
    exact ⟨(hk _).scope.trans ih.1, (hk _).depth.trans ih.2⟩
  | native name f _ ih => exact ih

/-- Wherever the run of a program is, the machine counts its frames. -/
theorem depth_of_comes (hm : m.depth = 0) :
    ¬ Comes fuel program m fun k _ now => ¬ (now.depth = k ∧ k ≤ maxDepth) := by
  rintro ⟨watch, honly, hne⟩
  have h := tracks_exec watch fuel 0 program m hm
  generalize runAll (execFramed watch fuel 0) program m = r at h hne
  generalize runAll (exec fuel) program m = r' at h hne
  cases h with
  | ok _ => exact hne rfl
  | error _ _ => exact hne rfl
  | stopped _ hs =>
    obtain ⟨k, p, now, hw, hd, hle, _⟩ := hs
    exact honly k p now (by rw [hw]; exact nofun) ⟨hd, by omega⟩

theorem overflow_of_comes (hm : m.depth = 0) {t : Token}
    (h : Comes fuel program m fun k p _ => k = maxDepth ∧ p = .entry t) :
    ∃ m', runAll (exec fuel) program m = .error (overflow t) m' := by
  obtain ⟨watch, honly, hne⟩ := h
  have h := tracks_exec watch fuel 0 program m hm
  generalize runAll (execFramed watch fuel 0) program m = r at h hne
  generalize runAll (exec fuel) program m = r' at h hne ⊢
  cases h with
  | ok _ => exact absurd rfl hne
  | error _ _ => exact absurd rfl hne
  | stopped _ hs =>
    obtain ⟨k, p, now, hw, _, _, hover⟩ := hs
    obtain ⟨rfl, rfl⟩ := honly k p now (by rw [hw]; exact nofun)
    exact hover t rfl (Nat.le_refl _)

theorem comes_of_overflow (hm : m.depth = 0) {t : Token} {m' : Machine}
    (h : runAll (exec fuel) program m = .error (overflow t) m') :
    Comes fuel program m fun k p _ => k = maxDepth ∧ p = .entry t := by
  classical
  -- a watch that stops all calls at `t` with no frame left keeps the run from overflowing there
  let watch : FrameWatch := fun k p _ => if k = maxDepth ∧ p = .entry t then some .exhausted else none
  have hwatch : ∀ k p now s, watch k p now = some s → s = .exhausted := by
    intro k p now s hw
    by_cases hc : k = maxDepth ∧ p = .entry t
    · rw [show watch k p now = _ from if_pos hc] at hw
      cases hw
      rfl
    · rw [show watch k p now = _ from if_neg hc] at hw
      cases hw
  refine ⟨watch, fun k p now hw => Classical.byContradiction fun hc => hw (if_neg hc), fun heq => ?_⟩
  have ht := tracks_exec watch fuel 0 program m hm
  rw [heq, h] at ht
  generalize hs : overflow t = s at ht
  cases ht with
  | error _ ho =>
    obtain ⟨k, now, hle, hle', hnone⟩ := ho t hs.symm
    have hk : k = maxDepth := by omega
    rw [show watch k (.entry t) now = _ from if_pos ⟨hk, rfl⟩] at hnone
    cases hnone
  | stopped _ hstop =>
    obtain ⟨k, p, now, hw, _⟩ := hstop
    rw [hwatch k p now s hw] at hs
    cases hs

/-- Every exit path restores scope and depth: of expressions, statements, blocks, calls,
functions and classes, in every machine. So between programs the current scope is the global
one and no call is active; while one runs, the machine counts the active calls, which are at
most 4096, and a call overflows exactly if it is entered when there are 4096. -/
theorem control_state_restored :
    (∀ fuel,
      (∀ e, Restores (eval fuel e)) ∧ (∀ s, Restores (exec fuel s)) ∧
      (∀ scope body, Restores (within scope (runAll (exec fuel) body))) ∧
      (∀ paren callee args,
        Restores (nested paren (apply (runAll (exec fuel)) callee paren args))) ∧
      (∀ f args, Restores (callFunction (runAll (exec fuel)) f args)) ∧
      ∀ c args, Restores (instantiate (runAll (exec fuel)) c args)) ∧
    ∀ (out : Sink) (clock : Nat → Float) (m : Machine), Interpreted out clock m →
      m.scope = Machine.globals ∧ m.depth = 0 ∧
      ∀ fuel program,
        ¬ Comes fuel program m (fun k _ now => ¬ (now.depth = k ∧ k ≤ 4096)) ∧
        ∀ t, (∃ m', runAll (exec fuel) program m = .error (overflow t) m') ↔
          Comes fuel program m fun k p _ => k = 4096 ∧ p = .entry t := by
  refine ⟨fun fuel => ?_, fun out clock m hm => ?_⟩
  · have hrun := fun k => tracks_exec (fun _ _ _ => none) fuel k
    exact ⟨fun e => restores_of_tracks fun k => (tracks_framed _ fuel k).1 e,
      fun s => restores_of_tracks fun k => (tracks_framed _ fuel k).2 s,
      fun scope body => restores_of_tracks fun k => tracks_within scope (hrun k body),
      fun paren callee args => restores_of_tracks fun k =>
        tracks_entry paren (tracks_apply (hrun (k + 1)) callee paren args),
      fun f args => restores_of_tracks fun k => tracks_callFunction (hrun k) f args,
      fun c args => restores_of_tracks fun k => tracks_instantiate (hrun k) c args⟩
  · obtain ⟨hscope, hdepth⟩ := hm.idle
    exact ⟨hscope, hdepth, fun fuel program => ⟨depth_of_comes hdepth, fun t =>
      ⟨fun ⟨_, h⟩ => comes_of_overflow hdepth h, overflow_of_comes hdepth⟩⟩⟩

/-- A program that fails in a block of a called function, and another after it. -/
theorem control_state_restored_after_failure :
    let name := Token.named "f" 1
    let program : Program := [.function ⟨name, [], [.block [.expression (.call (.literal .nil) name [])]]⟩,
      .expression (.call (.var ⟨name, none⟩) name [])]
    let start := Machine.start .unlimited fun _ => 0
    let m := after (interpret 8 program start)
    (∃ m', interpret 8 program start = .error (.fault (.runtime name .notCallable)) m') ∧
    m.scope = Machine.globals ∧ m.depth = 0 ∧
    ∀ fuel program,
      ¬ Comes fuel program m (fun k _ now => ¬ (now.depth = k ∧ k ≤ 4096)) ∧
      ∀ t, (∃ m', runAll (exec fuel) program m = .error (overflow t) m') ↔
        Comes fuel program m fun k p _ => k = 4096 ∧ p = .entry t := by
  intro name program start m
  have hfails : interpret 8 program start = .error (.fault (.runtime name .notCallable)) m := by rfl
  exact ⟨⟨m, hfails⟩, control_state_restored.2 _ _ m (.run 8 program .start)⟩

end Treewalk
