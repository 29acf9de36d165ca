/-
  Structured data whose leaves are still text.

  Brackets, commas and colons divide a text into a tree.  What stands at a leaf is kept as it was
  written: a number as its characters, a string or a key as the characters between its quotes,
  escapes and all.  So a tree can be passed on, or looked into part by part, before anything is
  known of what its leaves mean.

  `pretty` puts every item and member on a line of its own, two spaces deeper than its parent;
  `compact` uses no white space at all.
-/

namespace Quadruple.Json

/-- A tree of structured data with unread leaves. -/
inductive Raw where
  | null
  | bool (b : Bool)
  | number (text : List Char)
  | string (text : List Char)
  | arr (items : List Raw)
  | obj (members : List (List Char × Raw))
deriving Inhabited

namespace Raw

/-! ## Text of leaves -/

/-- A string with its quotes. -/
def quotedText (s : List Char) : List Char := '"' :: s ++ ['"']

/-- The text of a tree without parts. -/
def leafText : Raw → List Char
  | null | arr _ | obj _ => "null".toList
  | bool b => if b then "true".toList else "false".toList
  | number text => text
  | string text => quotedText text

/-! ## Compact text -/

mutual

/-- The text of a tree without white space. -/
def compactText : Raw → List Char
  | arr items => '[' :: compactItems items ++ [']']
  | obj members => '\x7b' :: compactMembers members ++ ['\x7d']
  | leaf => leafText leaf

def compactItems : List Raw → List Char
  | [] => []
  | [r] => compactText r
  | r :: rest => compactText r ++ ',' :: compactItems rest

def compactMembers : List (List Char × Raw) → List Char
  | [] => []
  | [(k, r)] => quotedText k ++ ':' :: compactText r
  | (k, r) :: rest => quotedText k ++ ':' :: compactText r ++ ',' :: compactMembers rest

end

/-- The text of a tree on one line. -/
def compact (r : Raw) : String := String.ofList (compactText r)

/-! ## Indented text -/

/-- A new line, `depth` levels deep. -/
def lineBreak (depth : Nat) : List Char := '\n' :: List.replicate (2 * depth) ' '

mutual

/-- The text of a tree whose brackets stand `depth` levels deep. -/
def prettyText (depth : Nat) : Raw → List Char
  | arr [] => ['[', ']']
  | arr (r :: rest) => '[' :: prettyItems (depth + 1) (r :: rest) ++ lineBreak depth ++ [']']
  | obj [] => ['\x7b', '\x7d']
  | obj (m :: rest) =>
    '\x7b' :: prettyMembers (depth + 1) (m :: rest) ++ lineBreak depth ++ ['\x7d']
  | leaf => leafText leaf

def prettyItems (depth : Nat) : List Raw → List Char
  | [] => []
  | [r] => lineBreak depth ++ prettyText depth r
  | r :: rest => lineBreak depth ++ prettyText depth r ++ ',' :: prettyItems depth rest

def prettyMembers (depth : Nat) : List (List Char × Raw) → List Char
  | [] => []
  | [(k, r)] => lineBreak depth ++ quotedText k ++ ':' :: ' ' :: prettyText depth r
  | (k, r) :: rest =>
    lineBreak depth ++ quotedText k ++ ':' :: ' ' :: prettyText depth r ++
      ',' :: prettyMembers depth rest

end

/-- The text of a tree over several lines. -/
def pretty (r : Raw) : String := String.ofList (prettyText 0 r)

end Raw

end Quadruple.Json
