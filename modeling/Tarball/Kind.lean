/-
  The kinds of archive members.

  * `Kind` is a file, a directory or a symbolic link;
  * `Kind.label` names it in messages, `Kind.mode` is the permission bits it
    gets when none are asked for, and `Kind.typeFlag` its letter in a header.
-/

namespace Tarball

/-- What a member of an archive is. -/
inductive Kind where
  | file
  | directory
  | symlink
  deriving DecidableEq, Repr

namespace Kind

/-- The word for a kind in messages. -/
def label : Kind → String
  | file => "file"
  | directory => "directory"
  | symlink => "symlink"

/-- The permission bits of a member for which none are asked. -/
def mode : Kind → UInt32
  | file => 0o644
  | directory | symlink => 0o755

/-- The byte for a kind in a header. -/
def typeFlag : Kind → UInt8
  | file => 0x30
  | directory => 0x35
  | symlink => 0x32

end Kind

end Tarball
