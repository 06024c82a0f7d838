import GraphQL.Text.CharacterClass

/-! Texts without the blanks at their ends. -/
namespace GraphQL.Text

def trimStart (text : List Char) : List Char := text.dropWhile isSpace

def trimEnd (text : List Char) : List Char := (text.reverse.dropWhile isSpace).reverse

def trim (text : List Char) : List Char := trimEnd (trimStart text)

end GraphQL.Text
