import Mathlib.Logic.Function.Basic
import Treewalk.Proofs.Scoping.Chains

/-!
# Scopes with tags

A tag for each scope of a run says what is known of it: whether it is the scope of a
variable, or which names may be bound in it. A scope gets its tag when it is made and keeps
it. The surroundings of a piece of code are the tags of the scopes around it
(`Tagged.Stands`).
-/

namespace Treewalk

/-- The scopes of a run, and their tags. -/
structure Tagged (α : Type) where
  scopes : Scopes
  tags : ScopeId → α

namespace Tagged

variable {α : Type} {u v w : Tagged α}

/-- Scopes keep their tags. -/
structure Le (v w : Tagged α) : Prop where
  grows : v.scopes.Grows w.scopes
  tags : ∀ id < v.scopes.next, w.tags id = v.tags id

theorem Le.refl (w : Tagged α) : w.Le w :=
  ⟨.refl _, fun _ _ => rfl⟩

theorem Le.trans (h : u.Le v) (h' : v.Le w) : u.Le w :=
  ⟨h.grows.trans h'.grows, fun id hlt =>
    (h'.tags id (Nat.lt_of_lt_of_le hlt h.grows.next)).trans (h.tags id hlt)⟩

/-- A new scope, with a tag. -/
def push (w : Tagged α) (parent : ScopeId) (tag : α) : Tagged α :=
  ⟨w.scopes.push (some parent), Function.update w.tags w.scopes.next tag⟩

def define (w : Tagged α) (id : ScopeId) (name : String) (v : Value) : Tagged α :=
  ⟨w.scopes.define id name v, w.tags⟩

theorem le_define {id : ScopeId} (hlt : id < w.scopes.next) (name : String) (v : Value) :
    w.Le (w.define id name v) :=
  ⟨Scopes.grows_define hlt name v, fun _ _ => rfl⟩

theorem le_bindAll {id : ScopeId} (hlt : id < w.scopes.next) (binds : List (Token × Value)) :
    w.Le ⟨w.scopes.bindAll id binds, w.tags⟩ :=
  ⟨Scopes.grows_bindAll hlt binds, fun _ _ => rfl⟩

theorem le_push (parent : ScopeId) (tag : α) : w.Le (w.push parent tag) :=
  ⟨w.scopes.grows_push (some parent), fun _ hlt => Function.update_of_ne (Nat.ne_of_lt hlt) _ _⟩

/-- The tags around a scope are those of its chain. -/
def Stands (w : Tagged α) (κ : List α) (s : ScopeId) : Prop :=
  ∃ chain, w.scopes.Chain s chain ∧ κ = chain.map w.tags

theorem stands_globals (w : Tagged α) : w.Stands [] Machine.globals :=
  ⟨[], .globals, rfl⟩

theorem Stands.mono (h : v.Le w) {κ : List α} {s : ScopeId} (hs : v.Stands κ s) :
    w.Stands κ s := by
  obtain ⟨chain, hc, rfl⟩ := hs
  refine ⟨chain, hc.mono h.grows, List.map_congr_left fun a ha => ?_⟩
  exact (h.tags a (hc.mem_lt_next a ha)).symm

theorem Stands.lt_next (hr : w.scopes.Rooted) {κ : List α} {s : ScopeId} (h : w.Stands κ s) :
    s < w.scopes.next := by
  obtain ⟨chain, hc, _⟩ := h
  exact hc.lt_next hr

theorem Stands.push (hr : w.scopes.Rooted) {κ : List α} {s : ScopeId} (h : w.Stands κ s)
    (tag : α) : (w.push s tag).Stands (tag :: κ) w.scopes.next := by
  obtain ⟨chain, hc, rfl⟩ := h
  -- the scopes of the chain are older, so their tags stay
  have hold : chain.map (Function.update w.tags w.scopes.next tag) = chain.map w.tags :=
    List.map_congr_left fun a ha => Function.update_of_ne (Nat.ne_of_lt (hc.mem_lt_next a ha)) _ _
  refine ⟨w.scopes.next :: chain, hc.push hr, ?_⟩
  simp only [Tagged.push, List.map_cons, Function.update_self, hold]

/-- The innermost tag is that of the scope itself. -/
theorem Stands.headD {κ : List α} {s : ScopeId} (h : w.Stands κ s) {tag : α}
    (hglobal : w.tags Machine.globals = tag) : κ.headD tag = w.tags s := by
  obtain ⟨chain, hc, rfl⟩ := h
  cases hc with
  | globals => exact hglobal.symm
  | link => rfl

theorem lt_next_push (w : Tagged α) (parent : ScopeId) (tag : α) :
    w.scopes.next < (w.push parent tag).scopes.next := by
  simp [push]

@[simp] theorem tags_push_next (w : Tagged α) (parent : ScopeId) (tag : α) :
    (w.push parent tag).tags w.scopes.next = tag :=
  Function.update_self ..

end Tagged

end Treewalk
