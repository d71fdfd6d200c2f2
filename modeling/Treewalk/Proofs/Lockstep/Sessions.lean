import Treewalk.Proofs.Lockstep.Evaluation
import Treewalk.Proofs.Units

/-!
# Sessions in step

Two programs that run in step from the machine of one session leave the same outcome
and flags, machines that correspond, and diagnostics that do (`Session.conclude_ends`).
-/

namespace Treewalk

/-- Sessions whose machines correspond in a scope, after reports that correspond and were
made from `start` on. -/
structure Correspondence.Sessions (C : Correspondence) (scope : ScopeId) (start s s' : Session) :
    Prop where
  machine : ∃ w, C.Machines w scope s.machine s'.machine
  hadError : s'.hadError = s.hadError
  hadRuntimeError : s'.hadRuntimeError = s.hadRuntimeError
  diagnostics : ∃ ds ds', List.Forall₂ C.fault ds ds' ∧
    s.diagnostics = (start.reportAll ds).diagnostics ∧
    s'.diagnostics = (start.reportAll ds').diagnostics

theorem Session.conclude_ends {C : Correspondence}
    (hstatic : ∀ {d d'}, C.fault d d' → d'.isStatic = d.isStatic) {s : Session} {w : C.World}
    {scope : ScopeId} {r r' : EStateM.Result Stop Machine Unit} (h : C.Ends w scope C.Same r r') :
    (s.conclude r').1 = (s.conclude r).1 ∧
      C.Sessions scope s (s.conclude r).2 (s.conclude r').2 := by
  cases h with
  | ok _ hm _ => exact ⟨rfl, ⟨_, hm⟩, rfl, rfl, [], [], .nil, rfl, rfl⟩
  | error _ hm he =>
    cases he with
    | exhausted => exact ⟨rfl, ⟨_, hm⟩, rfl, rfl, [], [], .nil, rfl, rfl⟩
    | @fault d d' hd =>
      refine ⟨rfl, ⟨_, hm⟩, ?_, ?_, [d], [d'], .cons hd .nil, rfl, rfl⟩
      · simp only [conclude, report, hstatic hd]
      · simp only [conclude, report, hstatic hd]

end Treewalk
