/-! Text between tokens: blanks, line breaks, commas, byte order marks and comments. -/
namespace GraphQL

def isLineBreak (c : Char) : Bool := c = '\n' || c = '\r'

/-- Characters that separate tokens and mean nothing. -/
def isBlank (c : Char) : Bool :=
  c = ' ' || c = '\t' || isLineBreak c || c = ',' || c = '\ufeff'

/-- Whether the character is ignored, inside or outside a comment, and if so whether a comment goes
on behind it. A comment ends at a line break. -/
def ignores (inComment : Bool) (c : Char) : Option Bool :=
  if inComment then some !isLineBreak c
  else if isBlank c then some false
  else if c = '#' then some true
  else none

/-- The ignored characters at the head of a text, and the rest. -/
def splitIgnored (inComment : Bool) : List Char → List Char × List Char
  | [] => ([], [])
  | c :: text =>
    match ignores inComment c with
    | none => ([], c :: text)
    | some inComment =>
      let (gap, rest) := splitIgnored inComment text
      (c :: gap, rest)

end GraphQL
