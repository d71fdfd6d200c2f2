import Treewalk.Sink

/-!
# Sinks that do not fail

Writing to a sink changes neither its limit nor whether it can be flushed. A sink that has no
limit takes every text.
-/

namespace Treewalk.Sink

/-- What makes a sink fail: its limit, and whether flushing it does. -/
def bounds (s : Sink) : Option Nat × Bool :=
  (s.limit, s.flushFails)

/-- A sink that neither writing nor flushing fails on. -/
def Infallible (s : Sink) : Prop :=
  s.bounds = (none, false)

instance (s : Sink) : Decidable s.Infallible :=
  inferInstanceAs (Decidable (s.bounds = (none, false)))

theorem Infallible.limit {s : Sink} (h : s.Infallible) : s.limit = none :=
  congrArg Prod.fst h

theorem Infallible.flush {s : Sink} (h : s.Infallible) : s.flush = .ok () :=
  if_neg (by rw [show s.flushFails = false from congrArg Prod.snd h]; exact Bool.false_ne_true)

theorem bounds_write (s : Sink) (text : String) : (s.write text).2.bounds = s.bounds := by
  unfold write
  dsimp only
  split <;> rfl

theorem write_of_unlimited {s : Sink} (h : s.limit = none) (text : String) :
    s.write text = (.ok (), s.append text.toUTF8) := by
  have hroom : s.room text.toUTF8.size = text.toUTF8.size := by simp only [room, h]
  unfold write
  rw [if_pos (Nat.le_of_eq hroom.symm)]

end Treewalk.Sink
