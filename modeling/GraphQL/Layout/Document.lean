import GraphQL.Document
import GraphQL.Layout.TypeSystem

/-! Documents laid out, and every node as text. Definitions are separated by a blank line. -/
namespace GraphQL
open Layout

/-- The definition; where `shorthand` allows it, a query as a selection set alone. -/
def Definition.layout (shorthand : Bool) : Definition → Layout
  | .executable (.operation o) => o.layout shorthand
  | .executable (.fragment f) => f.layout
  | .typeSystem (.schema s) => s.layout false
  | .typeSystem (.type t) => t.layout
  | .typeSystem (.directive d) => d.layout
  | .extension (.schema s) => word "extend" :: space :: s.layout true
  | .extension (.type t) => word "extend" :: space :: t.layout

/-- The definitions in order. Behind a definition of the type system an opening brace would be read as
its block, so there the shorthand is not used. -/
def Definition.layouts : (shorthand : Bool) → List Definition → List Layout
  | _, [] => []
  | shorthand, d :: ds => d.layout shorthand :: layouts d.isExecutable ds

/-- The document, with a line break behind its last definition. -/
def Document.layout (d : Document) : Layout :=
  joined [.gap "\n\n"] (Definition.layouts true d.definitions.toList) ++
    (if d.definitions.isEmpty then [] else [.gap "\n"])

/-- The text of a document. -/
def Document.print (d : Document) : List Char := d.layout.write

/-- The text of a definition that stands alone. -/
def Definition.print (d : Definition) : List Char := (d.layout true).write

def Value.print (v : Value) : List Char := v.layout.write

def TypeReference.print (t : TypeReference) : List Char := t.layout.write

def Directive.print (d : Directive) : List Char := d.layout.write

end GraphQL
