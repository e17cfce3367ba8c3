/-
  The content of archive members.

  Content is there as bytes, or it is read while the member is written: then it
  comes in pieces, and reading may fail.  How much of it there will be has to be
  said before.

  * `Reading` is what reading gives, and `Content` what is asked to be stored;
  * `Content.size` and `Content.reading` are its announced size and what comes
    when it is read;
  * `Content.describe` says in a few words what content is.
-/
import Tarball.Error
import Tarball.Text.Utf8

namespace Tarball

/-- What reading gives: pieces in their order and, unless it comes to an end in
    the usual way, why it stops after the last one. -/
structure Reading where
  chunks : List Bytes := []
  failure : Option Cause := none
  deriving DecidableEq, Repr

/-- All bytes that reading gives. -/
def Reading.bytes (r : Reading) : Bytes := r.chunks.flatten

/-- Content to be stored. -/
inductive Content where
  | empty
  | bytes (bytes : Bytes)
  | stream (reading : Reading) (size : UInt64)
  deriving DecidableEq, Repr

namespace Content

/-- The size that is announced for content. -/
def size : Content → UInt64
  | empty => 0
  | bytes bs => UInt64.ofNat bs.length
  | stream _ n => n

/-- What comes when content is read. -/
def reading : Content → Reading
  | empty => {}
  | bytes bs => { chunks := [bs] }
  | stream r _ => r

/-- What content is, and its size. -/
def describe : Content → String
  | empty => "Empty"
  | bytes bs => s!"Bytes({bs.length} bytes)"
  | stream _ n => s!"Reader({n.toNat} bytes)"

end Content

end Tarball
