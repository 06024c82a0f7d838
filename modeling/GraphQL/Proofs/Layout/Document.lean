import GraphQL.Layout.Document
import GraphQL.Proofs.Layout.TypeSystem

/-! Documents write their spellings. The shorthand of a query is used only where it cannot be taken for the
block of the definition in front of it. -/
namespace GraphQL
open Layout GraphQL.Symbol

namespace Definition

/-- The spelling that is printed, which begins no list with a separator. -/
def printedSpelling (shorthand : Bool) : Definition → List Symbol
  | .executable (.operation o) => o.printedSpelling shorthand
  | .executable (.fragment f) => f.spelling
  | .typeSystem (.schema s) => s.spelling false
  | .typeSystem (.type t) => t.spelling false
  | .typeSystem (.directive d) => d.spelling false
  | .extension (.schema s) => word "extend" :: s.spelling true
  | .extension (.type t) => word "extend" :: t.spelling false

theorem writes (shorthand : Bool) (d : Definition) :
    Writes (d.layout shorthand) (d.printedSpelling shorthand) := by
  rcases d with (o | f) | (s | t | d) | (s | t)
  · exact o.writes shorthand
  · exact f.writes
  · exact s.writes false
  · exact t.writes
  · exact d.writes
  · exact .word "extend" (.space (s.writes true))
  · exact .word "extend" (.space t.writes)

theorem spells_printedSpelling (shorthand : Bool) (d : Definition) :
    d.Spells (d.printedSpelling shorthand) := by
  rcases d with (o | f) | (s | t | d) | (s | t)
  · simp only [printedSpelling, OperationDefinition.printedSpelling]
    split
    · next h => exact .shorthand o (Bool.and_eq_true _ _ ▸ h).1
    · exact .operation o
  · exact .fragment f
  · exact .schema s
  · exact .type t false
  · exact .directive d false
  · exact .schemaExtension s
  · exact .typeExtension t false

/-- Without the shorthand no definition begins with an opening brace. -/
theorem head_printedSpelling (d : Definition) : (d.printedSpelling false).head? ≠ some (mark .braceOpen) := by
  have described (s : Option StringValue) (name : String) (w : List Symbol) :
      (descriptionSpelling s ++ Symbol.word name :: w).head? ≠ some (mark .braceOpen) := by
    rcases s with _ | ⟨text, isBlock⟩
    · simp [descriptionSpelling, Symbol.word, mark]
    · cases isBlock <;> simp [descriptionSpelling, StringValue.spelling, mark]
  rcases d with (o | f) | (s | t | d) | (s | t)
  · simp [printedSpelling, OperationDefinition.printedSpelling, OperationDefinition.spelling, Symbol.word, mark]
  · simp [printedSpelling, FragmentDefinition.spelling, Symbol.word, mark]
  · rw [printedSpelling, SchemaDefinition.spelling, List.append_assoc]
    exact described _ _ _
  · exact described _ _ _
  · rw [printedSpelling, DirectiveDefinition.spelling, List.append_assoc, List.append_assoc]
    exact described _ _ _
  · simp [printedSpelling, Symbol.word, mark]
  · simp [printedSpelling, Symbol.word, mark]

/-- The spellings that are printed of definitions in order. -/
def printedSpellings : (shorthand : Bool) → List Definition → List (List Symbol)
  | _, [] => []
  | shorthand, d :: ds => d.printedSpelling shorthand :: printedSpellings d.isExecutable ds

theorem layouts_write (shorthand : Bool) (ds : List Definition) :
    WritesAll (layouts shorthand ds) (printedSpellings shorthand ds) := by
  induction ds generalizing shorthand with
  | nil => exact .nil
  | cons d ds ih => exact .cons (d.writes shorthand) (ih d.isExecutable)

theorem isExecutable_of_lacksBlock {d : Definition} (h : d.lacksBlock) : d.isExecutable = false := by
  cases d with
  | executable => simp [lacksBlock] at h
  | typeSystem => rfl
  | extension => rfl

theorem spellRow_printedSpellings {lacking shorthand : Bool} (h : lacking → shorthand = false)
    (ds : List Definition) : SpellRow lacking ds (printedSpellings shorthand ds).flatten := by
  induction ds generalizing lacking shorthand with
  | nil => exact .nil
  | cons d ds ih =>
    refine .cons (d.spells_printedSpelling shorthand) (fun hl => ?_) (ih isExecutable_of_lacksBlock)
    rw [h hl]
    exact d.head_printedSpelling

end Definition

namespace Document

/-- The spelling that is printed. -/
def printedSpelling (d : Document) : List Symbol :=
  (Definition.printedSpellings true d.definitions.toList).flatten

theorem spells_printedSpelling (d : Document) : d.Spells d.printedSpelling :=
  Definition.spellRow_printedSpellings (by simp) d.definitions.toList

theorem writes (d : Document) : Writes d.layout d.printedSpelling := by
  have definitions : Writes _ d.printedSpelling :=
    .gapped (t := "\n\n") (by decide) (Definition.layouts_write true d.definitions.toList)
  have closing : Trails (if d.definitions.isEmpty then [] else [.gap "\n"]) [] := by
    split
    · exact .nil
    · exact .gap (by decide) .nil
  rw [← List.append_nil d.printedSpelling]
  exact definitions.append closing

/-- The printed text is read as the spelling, if the symbols can be read back. -/
theorem spelledSymbols_print {d : Document} (h : ∀ x ∈ d.printedSpelling, x.IsReadable) :
    spelledSymbols (tokenize d.print) = d.printedSpelling := by
  have symbols : d.layout.symbols = d.printedSpelling := by
    rw [d.writes.symbols]
    exact (List.map_congr_left fun x hx => (h x hx).printed).trans (List.map_id _)
  have readable : ∀ x ∈ d.layout.symbols, x.IsReadable := symbols ▸ h
  rw [← symbols]
  exact (d.writes.toIsSpaced.lexes readable).spelledSymbols_tokenize (IsSpaced.length_symbols_le readable)

end Document

end GraphQL
