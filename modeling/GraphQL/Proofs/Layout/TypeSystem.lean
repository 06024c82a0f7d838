import GraphQL.Layout.TypeSystem
import GraphQL.Proofs.Layout.Executable

/-! Definitions of the type system write their spellings, with no separator in front of a list. -/
namespace GraphQL
open Layout

namespace Layout
variable {l : Layout} {w : List Symbol}

/-- A description, set off by a gap, and what it describes. -/
theorem Writes.description {between : Piece} (hb : ∀ {l w}, Writes l w → Trails (between :: l) w)
    (d : Option StringValue) (hl : Writes l w) :
    Writes (descriptionClause between d ++ l) (descriptionSpelling d ++ w) := by
  cases d with
  | none => exact hl
  | some s => exact s.writes (hb hl)

namespace Trails

theorem interfaces (l : IndexedList TypeReference) :
    Trails (interfaceClause l) (interfacesSpelling false l) := by
  cases l with
  | nil => exact .nil
  | cons p t rest =>
    have list := Writes.separatedSpelling (l := .cons p t rest) .ampersand fun t _ => t.writes
    exact .space (.word "implements" (.space list))

theorem members (l : IndexedList TypeReference) : Trails (memberClause l) (membersSpelling false l) := by
  cases l with
  | nil => exact .nil
  | cons p t rest =>
    have list := Writes.separatedSpelling (l := .cons p t rest) .pipe fun t _ => t.writes
    exact .space (.mark .equals list.space)

end Trails

end Layout

theorem RootOperation.writes (r : RootOperation) : Writes r.layout r.spelling :=
  .word r.type.keyword (.mark (Trails.space (.word r.namedType .nil)).toWrites)

theorem SchemaDefinition.writes (isExtension : Bool) (s : SchemaDefinition) :
    Writes (s.layout isExtension) (s.spelling isExtension) := by
  have head := Writes.description (Trails.newline 0) s.description
    (.word "schema" (.directives s.directives))
  unfold layout spelling
  cases hb : isExtension && s.roots.isEmpty with
  | true => exact head.append .nil
  | false => exact head.append (.space (Trails.blockSpelling 0 fun r _ => r.writes).toWrites)

theorem InputValueDefinition.writes {between : Piece}
    (hb : ∀ {l w}, Writes l w → Trails (between :: l) w) (i : InputValueDefinition) :
    Writes (i.layout between) i.spelling :=
  .append (.append (.description hb i.description (.word i.name (.type i.type))) (.default i.defaultValue))
    (.directives i.directives)

theorem Layout.Trails.argumentDefinitions (l : IndexedList InputValueDefinition) :
    Trails (argumentDefinitionList l) (argumentDefinitionsSpelling l) :=
  .optionalParens fun i _ => i.writes .space

theorem FieldDefinition.writes (f : FieldDefinition) : Writes f.layout f.spelling :=
  .append (.append (.description (Trails.newline 1) f.description
    (.word f.name (.argumentDefinitions f.arguments))) (.type f.type)) (.directives f.directives)

theorem EnumValueDefinition.writes (v : EnumValueDefinition) : Writes v.layout v.spelling :=
  .description (Trails.newline 1) v.description (.word v.name (.directives v.directives))

theorem TypeDefinition.writes (t : TypeDefinition) : Writes t.layout (t.spelling false) := by
  obtain ⟨description, name, dirs, body⟩ := t
  have named {l w} (kind : TypeKind) (hl : Trails l w) :
      Writes (descriptionClause (newline 0) description ++ [word kind.keyword, space, word name] ++ l)
        (descriptionSpelling description ++ Symbol.word kind.keyword :: Symbol.word name :: w) := by
    rw [List.append_assoc]
    exact .description (Trails.newline 0) description (.word kind.keyword (.space (.word name hl)))
  refine named body.kind ?_
  have annotated := Trails.directives dirs
  cases body with
  | scalar => exact annotated
  | object interfaces fields =>
    exact ((Trails.interfaces interfaces).append annotated).append (.optionalBlock 0 fun f _ => f.writes)
  | interface interfaces fields =>
    exact ((Trails.interfaces interfaces).append annotated).append (.optionalBlock 0 fun f _ => f.writes)
  | union members => exact annotated.append (.members members)
  | enum values => exact annotated.append (.optionalBlock 0 fun v _ => v.writes)
  | inputObject fields =>
    exact annotated.append (.optionalBlock 0 fun i _ => i.writes (Trails.newline 1))

theorem DirectiveDefinition.writes (d : DirectiveDefinition) : Writes d.layout (d.spelling false) := by
  have locations := Writes.separatedSpelling (l := d.locations) (f := ([word ·.text]))
    (g := ([Symbol.word ·.text])) .pipe fun x _ => .word x.text .nil
  have repeatable : Trails (if d.repeatable then [space, word "repeatable"] else [])
      (if d.repeatable then [Symbol.word "repeatable"] else []) := by
    split
    · exact .space (.word "repeatable" .nil)
    · exact .nil
  have behind := (Trails.argumentDefinitions d.arguments).append
    (repeatable.append (Trails.space (.word "on" (.space locations))))
  have written := Writes.description (Trails.newline 0) d.description
    (.word "directive" (.space (.mark .atSign (.word d.name behind))))
  simpa [layout, spelling] using written

end GraphQL
