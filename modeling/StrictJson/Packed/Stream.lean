import StrictJson.Packed.Target
import StrictJson.Packed.Writer

/-!
# Streams of Units

Units one after the other in one buffer. A writer appends to the buffer and a reader carries a
position through it, and both can go on after a failure: what is refused leaves the buffer as it
was, and a unit that is not read leaves the position where it was.

## Main definitions

* `Request`, `Request.perform`, `performAll`: packing into a buffer.
* `unpackNext`: reading at a carried position.
-/

namespace StrictJson.Packed

/-- A **request** to pack something under a tag. -/
structure Request where
  tag : Tag
  source : Source

/-- Packs into a buffer. -/
def Request.perform (r : Request) (buffer : List UInt8) : Except PackFault Unit × List UInt8 :=
  match packInto buffer r.tag r.source with
  | .ok longer => (.ok (), longer)
  | .error e => (.error e, buffer)

/-- Packs into a buffer what is requested, one request after the other. -/
def performAll (buffer : List UInt8) : List Request → List (Except PackFault Unit) × List UInt8
  | [] => ([], buffer)
  | r :: rs =>
    let (answer, next) := r.perform buffer
    let (answers, final) := performAll next rs
    (answer :: answers, final)

/-- Reads the unit at a carried position for a target, and moves the position past it. -/
def unpackNext (target : Target) (buffer : List UInt8) (position : Nat) :
    Except UnpackFault target.Carrier × Nat :=
  match unpack target buffer position with
  | .ok (x, next) => (.ok x, next)
  | .error e => (.error e, position)

end StrictJson.Packed
