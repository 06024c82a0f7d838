import GraphQL.Command.Validate

/-! A whole run: the arguments are read, the level of the log is chosen, and a task is done. -/
namespace GraphQL.Command

def helpText : String :=
  "\n".intercalate [
    "Usage: gqlparse [OPTIONS] [COMMAND]",
    "",
    "Commands:",
    "  print     Parse a GraphQL file and print it back in canonical form",
    "  tokens    Lex a GraphQL file and list its tokens",
    "  validate  Parse and validate GraphQL files or directories of GraphQL files",
    "  help      Print this message or the help of the given subcommand(s)",
    "",
    "Options:",
    "  -v, --verbose  Enable verbose output.",
    "  -h, --help     Print help",
    "  -V, --version  Print version"]

def Task.perform (host : Host) (env : Environment) : Task → Outcome
  | overview | help => .success helpText
  | version => .success "gqlparse 0.1.0"
  | print path => Command.print env path
  | tokens path => listTokens env path
  | validate options => validateFiles host env options

/-- The line at the start of a log that shows everything. -/
def startLine : LogLine :=
  ⟨.trace, "gqlparse", "Initial logging level set to `TRACE`."⟩

/-- Runs the program with these arguments. -/
def run (host : Host) (env : Environment) (arguments : List String) : Output :=
  match Invocation.read? arguments with
  | none => host.refuse arguments
  | some i =>
    let (level, warnings) := chooseLevel i.verbose env.logLevel
    let start := if i.task.logs then startLine :: warnings else []
    ((i.task.perform host env).after start).output host level

end GraphQL.Command
