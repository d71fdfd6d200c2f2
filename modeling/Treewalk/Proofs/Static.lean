import Treewalk.Diagnostic

/-!
# Static diagnostics

The static phases collect diagnostics in a list, the latest first. They never drop
one, and what they add is static.
-/

namespace Treewalk

/-- The later list has static diagnostics in front of the earlier one. -/
def AddsStatic (old new : List Diagnostic) : Prop :=
  ∃ ds, new = ds ++ old ∧ ∀ d ∈ ds, d.isStatic = true

namespace AddsStatic

variable {a b c : List Diagnostic}

theorem refl (a : List Diagnostic) : AddsStatic a a :=
  ⟨[], rfl, nofun⟩

theorem cons {d : Diagnostic} (hd : d.isStatic = true) (a : List Diagnostic) :
    AddsStatic a (d :: a) :=
  ⟨[d], rfl, by simpa using hd⟩

theorem trans (h : AddsStatic a b) (h' : AddsStatic b c) : AddsStatic a c := by
  obtain ⟨ds, rfl, hds⟩ := h
  obtain ⟨es, rfl, hes⟩ := h'
  exact ⟨es ++ ds, (List.append_assoc ..).symm, List.forall_mem_append.mpr ⟨hes, hds⟩⟩

theorem length_le (h : AddsStatic a b) : a.length ≤ b.length := by
  obtain ⟨ds, rfl, _⟩ := h
  simp

/-- If nothing was added in the end, nothing was added in between. -/
theorem eq_of_eq (h : AddsStatic a b) (h' : AddsStatic b c) (hc : c = a) : b = a := by
  obtain ⟨ds, rfl, _⟩ := h
  obtain ⟨es, rfl, _⟩ := h'
  have hlen := congrArg List.length hc
  simp only [List.length_append] at hlen
  rw [List.length_eq_zero_iff.mp (show ds.length = 0 by omega), List.nil_append]

end AddsStatic

end Treewalk
