/-
  Listings of programs for a reader: constants, functions, then the numbered quads, with a mark at
  every quad that some jump leads to.  Addresses appear under their names where they have one.
-/
import Quadruple.Program
import Quadruple.Text.Column

namespace Quadruple.Listing

open Quadruple.Text (alignLeft alignRight zeroPadded)

/-- The rule above and below a heading. -/
def rule : String := String.ofList (List.replicate 40 '═')

/-- A heading between two rules. -/
def heading (title : String) : String := rule ++ "\n " ++ title ++ "\n" ++ rule ++ "\n"

/-- An operand under the name of its address. -/
def operand (names : Names) : Option Operand → String
  | none => "-"
  | some (.addr a) => names.display a
  | some (.ref a) => "&" ++ names.display a
  | some (.deref a) => "*" ++ names.display a
  | some o => o.text

/-- The quads that some jump leads to. -/
def jumpTargets (quads : List Quad) : List Nat := quads.filterMap Quad.jumpTarget?

/-- One line of the quad listing. -/
def quadLine (names : Names) (targets : List Nat) (q : Quad) (i : Nat) : String :=
  zeroPadded 4 i ++ " " ++ (if targets.contains i then "► " else "  ") ++
    alignLeft 14 q.op.symbol ++ " " ++
    alignLeft 12 (operand names q.left) ++ " " ++ alignLeft 12 (operand names q.right) ++ " " ++
    operand names q.result ++ "\n"

/-- The numbered quads. -/
def quads (names : Names) (qs : List Quad) : String :=
  String.join (qs.zipIdx.map fun (q, i) => quadLine names (jumpTargets qs) q i)

/-- One line of the constant listing. -/
def constantLine (names : Names) (address : Nat) (c : Constant) : String :=
  "  " ++ alignRight 6 ' ' address.repr ++ "  " ++ c.ty.name ++ " " ++ names.display address ++ "\n"

/-- One line of the function listing. -/
def functionLine (id : String) (r : Routine) : String :=
  "  " ++ id ++ "(" ++ String.intercalate ", " (r.paramTypes.map TypeName.word) ++ ") -> " ++
    ((r.returnType.map TypeName.word).getD "Void") ++ "  @" ++ r.startQuad.repr ++ "\n"

/-- The whole program. -/
def program (names : Names) (p : Program) : String :=
  heading ("constants (" ++ p.constants.size.repr ++ ")") ++
    String.join (p.constants.entries.map fun (a, c) => constantLine names a c) ++ "\n" ++
    heading ("functions (" ++ p.functions.size.repr ++ ")") ++
    String.join (p.functions.entries.map fun (id, r) => functionLine id r) ++ "\n" ++
    heading (p.quads.size.repr ++ " quads") ++ quads names p.quads.toList

end Quadruple.Listing
