/-
  Paths as text.

  A path is a sequence of parts divided by slashes.  Only the last part matters for a change of
  extension: what follows its last dot is replaced, and a dot that opens the part does not count.
-/

namespace Quadruple.Path

/-- The parts of a path, empty ones included. -/
def parts : List Char → List (List Char)
  | [] => [[]]
  | c :: rest =>
    if c = '/' then [] :: parts rest
    else match parts rest with
      | [] => [[c]]
      | p :: ps => (c :: p) :: ps

/-- The parts that lead to the folder which holds the last one. -/
def leading (path : List Char) : List (List Char) :=
  ((parts path).filter fun p => !p.isEmpty).dropLast

/-- A path as its folder, with the slash that ends it, and its last part. -/
def splitLast (path : List Char) : List Char × List Char :=
  let last := (path.reverse.takeWhile (· ≠ '/')).reverse
  (path.take (path.length - last.length), last)

/-- The part of a name before its last dot; a name whose only dot opens it is all stem. -/
def stem (name : List Char) : List Char :=
  match name.reverse.dropWhile (· ≠ '.') with
  | [] => name
  | _ :: front => if front.isEmpty then name else front.reverse

/-- Whether a last part names something in its folder. -/
def isName (last : List Char) : Bool := !last.isEmpty && last != ['.'] && last != ['.', '.']

/-- The path with another extension; a path that ends in no name stays as it is.  A name like `..x`
without its extension is `..`, which names no file any more, so that no extension can follow it. -/
def withExtension (path extension : String) : String :=
  let (folder, last) := splitLast path.toList
  if !isName last then path
  else if stem last = ['.'] then String.ofList (folder ++ ['.', '.'])
  else String.ofList (folder ++ stem last ++ '.' :: extension.toList)

end Quadruple.Path
