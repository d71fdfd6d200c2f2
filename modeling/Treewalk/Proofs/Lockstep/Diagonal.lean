import Treewalk.Proofs.Lockstep.Images

/-!
# A run beside itself

A correspondence may relate trees, tables and faults only to themselves. What is
left of it is an invariant of one run: machines in step are one machine
(`Diagonal.machine_eq`), and runs in step end alike (`Diagonal.ends_eq`).
-/

namespace Treewalk.Correspondence

/-- A correspondence of runs with themselves. -/
structure Diagonal (C : Correspondence) : Prop where
  token_eq {κ : C.Ctx} {t t' : Token} : C.token κ t t' → t = t'
  expr_eq {κ : C.Ctx} {e e' : Expr} : C.expr κ e e' → e = e'
  stmt_eq {κ κ' : C.Ctx} {s s' : Stmt} : C.stmt κ s s' κ' → s = s'
  enters_eq {κ κ₀ : C.Ctx} {ps ps' : List Token} : C.enters κ ps ps' κ₀ → ps = ps'
  fault_eq {d d' : Diagnostic} : C.fault d d' → d = d'
  scopes_eq {w : C.World} {σ σ' : Scopes} : C.scopes w σ σ' → σ = σ'

namespace Diagonal

variable {C : Correspondence} {w : C.World} {κ : C.Ctx} {s : ScopeId}

theorem stmts_eq (hC : C.Diagonal) {l l' : List Stmt} (h : C.Stmts κ l l') : l = l' := by
  induction h with
  | nil => rfl
  | cons hs _ ih => rw [hC.stmt_eq hs, ih]

theorem routine_eq (hC : C.Diagonal) {r r' : Routine Stmt} (h : C.Routines κ r r') : r = r' := by
  obtain ⟨name, params, body⟩ := r
  obtain ⟨name', params', body'⟩ := r'
  obtain ⟨hname, κ₀, hps, hb⟩ := h
  rw [show name = name' from hC.token_eq hname, show params = params' from hC.enters_eq hps,
    show body = body' from hC.stmts_eq hb]

theorem image (hC : C.Diagonal) : C.Image id id :=
  ⟨hC.routine_eq, hC.fault_eq, hC.scopes_eq⟩

/-- Machines in step are one machine. -/
theorem machine_eq (hC : C.Diagonal) {m m' : Machine} (h : C.Machines w s m m') : m = m' := by
  have himage := hC.image.machine_eq h
  rwa [Machine.mapRoutines_id] at himage

theorem ends_eq (hC : C.Diagonal) {α : Type} {r r' : EStateM.Result Stop Machine α}
    (h : C.Ends w s C.Same r r') : r = r' := by
  have himage := hC.image.ends_eq h
  rwa [Eval.image_id] at himage

end Diagonal

end Treewalk.Correspondence
