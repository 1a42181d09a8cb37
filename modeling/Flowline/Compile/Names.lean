import Flowline.Pipeline.Program
import Flowline.Text.Numeral

/-!
# Names in the output

The names of relations, types, constructors, variables and helpers are made from those of the
program.  Whatever is no letter, digit or underscore becomes an underscore.
-/

namespace Flowline.Compile

open Pipeline (Action Key Table)

/-- Whether a character can stand in an identifier. -/
def isIdentifierChar (c : Char) : Bool := c = '_' || c.isAlphanum

/-- The character of an identifier that a piece of a name becomes. -/
def identifierChar : Text.Glyph → Char
  | .char c => if isIdentifierChar c then c else '_'
  | .stray _ => '_'

/-- A name as an identifier. -/
def identifier (t : Text) : Text := String.ofList (t.glyphs.map identifierChar)

/-- A name with its first letter large. -/
def capitalize (t : Text) : Text :=
  match t.toList with
  | [] => ""
  | c :: cs => String.ofList (c.toUpper :: cs)

/-- The relation that every flow is in. -/
def flowRelation : Text := "Flow"

/-- The relation of the ports of multicast groups. -/
def multicastRelation : Text := "MulticastGroup"

/-- The relation of the entries of a table. -/
def relationName (t : Table) : Text := capitalize (identifier t.control) ++ "_" ++ identifier t.name

/-- The type of the actions that entries of a table run. -/
def actionTypeName (t : Table) : Text := relationName t ++ "Action"

/-- The relation of the default action of a table. -/
def defaultRelationName (t : Table) : Text := relationName t ++ "DefaultAction"

/-- The type of the default action of a table.  A relation has a type of its own name, so this one
is different. -/
def defaultTypeName (t : Table) : Text := defaultRelationName t ++ "Type"

/-- The constructor of an action in a type. -/
def constructorName (typeName : Text) (a : Action) : Text := typeName ++ "_" ++ identifier a.name

/-- The variable of a key. -/
def keyVar (k : Key) : Text := "k_" ++ identifier k.name

/-- The variable of a parameter. -/
def paramVar (p : Param) : Text := "p_" ++ identifier p.name

/-- The helper that names a register. -/
def helperName (owner : Text) : Text := "r_" ++ identifier owner

/-- The helper that makes a mask of a prefix length. -/
def prefixMaskName (width : Int64) : Text := "prefix_mask_" ++ Numeral.word width

end Flowline.Compile
