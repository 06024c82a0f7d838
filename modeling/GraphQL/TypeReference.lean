/-! References to types: a name or a list of another reference, each perhaps marked as never null. -/
namespace GraphQL

inductive TypeReference where
  | named (name : String) (nonNull : Bool)
  | list (element : TypeReference) (nonNull : Bool)
  deriving DecidableEq

namespace TypeReference

def isNonNull : TypeReference → Bool
  | named _ nonNull => nonNull
  | list _ nonNull => nonNull

/-- The name inside all lists. -/
def innermostName : TypeReference → String
  | named name _ => name
  | list element _ => element.innermostName

end TypeReference
end GraphQL
