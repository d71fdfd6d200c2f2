/-!
# Deep recursion

The passes over a program recurse once per level of nesting, and a program may
be nested as deeply as memory allows. `descend` continues a recursion on a stack
of its own at every level that is a multiple of `segment`. It changes where a
computation runs and not what it computes (`descend_eq`).
-/

namespace Treewalk

/-- How many levels share one stack. -/
def segment : Nat := 512

/-- Evaluates `f` on a stack of its own. -/
@[noinline] def onFreshStack {α : Type} (f : Unit → α) : α :=
  (Task.spawn f .dedicated).get

/-- Evaluates `f`, which stands `level` levels deep in a recursion. -/
@[inline] def descend {α : Type} (level : Nat) (f : Unit → α) : α :=
  if level % segment = 0 then onFreshStack f else f ()

@[simp] theorem descend_eq {α : Type} (level : Nat) (f : Unit → α) : descend level f = f () := by
  simp only [descend, onFreshStack]
  split <;> rfl

end Treewalk
