import Treewalk.Diagnostic

/-!
# Sinks

Where text is written to. A sink may take only a limited number of bytes: it
keeps that many, even if this cuts a text in two, and then refuses every text
that is not empty. A sink may also fail when it is flushed.
-/

namespace Treewalk

structure Sink where
  written : ByteArray
  /-- How many bytes the sink takes, if that is limited. -/
  limit : Option Nat
  flushFails : Bool

namespace Sink

/-- A sink that takes everything. -/
def unlimited : Sink := ⟨.empty, none, false⟩

/-- How many bytes of a text of `size` bytes the sink still takes. -/
def room (s : Sink) (size : Nat) : Nat :=
  match s.limit with
  | none => size
  | some limit => min size (limit - s.written.size)

def append (s : Sink) (bytes : ByteArray) : Sink :=
  { s with written := s.written ++ bytes }

/-- Writes a text, or as much of it as there is room for. -/
def write (s : Sink) (text : String) : Except ChannelFault Unit × Sink :=
  let bytes := text.toUTF8
  let room := s.room bytes.size
  if bytes.size ≤ room then (.ok (), s.append bytes)
  else (.error .sinkFull, s.append (bytes.extract 0 room))

theorem room_le (s : Sink) (size : Nat) : s.room size ≤ size := by
  unfold room
  split
  · exact Nat.le_refl _
  · exact Nat.min_le_left _ _

/-- Whether or not it fails, a write adds the part of the text that there is room for. -/
theorem written_write (s : Sink) (text : String) :
    (s.write text).2.written =
      s.written ++ text.toUTF8.extract 0 (s.room text.toUTF8.size) := by
  unfold write
  by_cases h : text.toUTF8.size ≤ s.room text.toUTF8.size
  · have hr := Nat.le_antisymm (s.room_le text.toUTF8.size) h
    simp only [hr, Nat.le_refl, ↓reduceIte, append, ByteArray.extract_zero_size]
  · simp only [h, ↓reduceIte, append]

def flush (s : Sink) : Except ChannelFault Unit :=
  if s.flushFails then .error .flushFailed else .ok ()

end Sink

end Treewalk
