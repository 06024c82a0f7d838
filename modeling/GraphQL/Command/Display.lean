import GraphQL.Command.Environment
import GraphQL.Command.Outcome
import GraphQL.Layout.Document
import GraphQL.Lexer
import GraphQL.Parser.Document

/-! The commands that show one file: its canonical form, and its tokens. -/
namespace GraphQL.Command

/-- The line that reports a parsed document. -/
def parsedLine (d : Document) : LogLine :=
  ⟨.trace, "gqlparse::parser",
    "parsed document with " ++ toString d.definitions.len ++ " definition(s)"⟩

/-- Reads the named file and goes on with its text. -/
def withFile (env : Environment) (path : String) (use : List Char → Outcome) : Outcome :=
  let outcome := match env.readNamed path with
    | .ok source => use source
    | .error e => .failure ("Failed to read " ++ path ++ ": " ++ e.message)
  outcome.after [⟨.debug, "gqlparse::commands", "Reading " ++ Text.quote path.toList ++ "..."⟩]

/-- Writes the canonical form of a file. -/
def print (env : Environment) (path : String) : Outcome :=
  withFile env path fun source =>
    match parse source with
    | .ok d => (Outcome.success (String.ofList (Text.trimEnd d.print))).after [parsedLine d]
    | .error e => .failure (path ++ ":\n" ++ e.detailed (some source))

/-- The place, the kind and the literal of a token. -/
def tokenLine (t : Token) : String :=
  toString t.line ++ ":" ++ toString t.position ++ " " ++ t.kind.describe ++ " " ++
    Text.quote t.literal.toList

/-- Lists the tokens of a file. It is a failure if one of them is illegal, but all are listed. -/
def listTokens (env : Environment) (path : String) : Outcome :=
  withFile env path fun source =>
    let found := tokenize source
    let illegal := found.countP (·.kind = .illegal)
    { code := if illegal = 0 then 0 else 1
      stdout := some ("\n".intercalate (found.map tokenLine))
      stderr := none
      log := [⟨.debug, "gqlparse::commands::tokens",
        "Lexed " ++ toString found.length ++ " tokens (" ++ toString illegal ++ " illegal)."⟩] }

end GraphQL.Command
