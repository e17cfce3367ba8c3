/-
  Pairs written as one argument.

  A source and its destination, or a link and its target, are written with a
  separator between them.  In the part before it a backslash stands for the
  next character, whatever that is; the part after it is taken as it is.

  * `Mapping.scan` reads an argument up to the first separator that no
    backslash protects, and `mapping` is the same on texts;
  * `Mapping.quote` writes a part so that it survives (`Mapping.scan_quote`).
-/

namespace Tarball

namespace Mapping

/-- The two parts of an argument: up to the first unprotected separator, freed
    from its backslashes, and after it.  The flag tells whether a backslash
    protects the next character; one at the very end protects nothing and is
    dropped. -/
def scan (sep : Char) : Bool → List Char → List Char × List Char
  | _, [] => ([], [])
  | true, c :: rest => (c :: (scan sep false rest).1, (scan sep false rest).2)
  | false, c :: rest =>
    if c = sep then ([], rest)
    else if c = '\\' then scan sep true rest
    else (c :: (scan sep false rest).1, (scan sep false rest).2)

/-- A text with a backslash before each separator and each backslash. -/
def quote (sep : Char) : List Char → List Char
  | [] => []
  | c :: rest => if c = sep ∨ c = '\\' then '\\' :: c :: quote sep rest else c :: quote sep rest

/-- Reading gives back a quoted head and whatever stands after the separator. -/
theorem scan_quote {sep : Char} (hs : sep ≠ '\\') (head tail : List Char) :
    scan sep false (quote sep head ++ sep :: tail) = (head, tail) := by
  induction head with
  | nil => simp [quote, scan]
  | cons c head ih =>
    rw [quote]
    split
    · simp [scan, Ne.symm hs, ih]
    · next h =>
      have hc := not_or.1 h
      simp [scan, hc.1, hc.2, ih]

end Mapping

/-- The two parts of an argument at a separator. -/
def mapping (arg : String) (sep : Char) : String × String :=
  let (head, tail) := Mapping.scan sep false arg.toList
  (String.ofList head, String.ofList tail)

/-- Backslashes after the separator are kept. -/
example : mapping "a\\=b=c\\=d" '=' = ("a=b", "c\\=d") := by decide

end Tarball
