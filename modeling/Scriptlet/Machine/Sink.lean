/-! # Output

Where a run writes: everything written so far, and how much more is accepted. What exceeds it is
lost, but the part that fits is kept.
-/

namespace Scriptlet

structure Sink where
  written : ByteArray
  /-- How many bytes are accepted in all; none for any number. -/
  limit : Option Nat

namespace Sink

def ofLimit (limit : Option Nat) : Sink := ⟨.empty, limit⟩

/-- The reason why a write fails. -/
def full : String := "sink full"

/-- Writes bytes, as many as fit. Nothing can always be written. -/
def write (sink : Sink) (bytes : ByteArray) : Except String Unit × Sink :=
  match sink with
  | ⟨written, none⟩ => (.ok (), ⟨written ++ bytes, none⟩)
  | ⟨written, some limit⟩ =>
    let room := limit - written.size
    if bytes.size ≤ room then (.ok (), ⟨written ++ bytes, some limit⟩)
    else (.error full, ⟨written ++ bytes.extract 0 room, some limit⟩)

end Sink

end Scriptlet
