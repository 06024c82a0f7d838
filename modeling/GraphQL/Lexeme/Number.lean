import GraphQL.Lexeme
import GraphQL.Text.Quoted

/-! Numbers: a sign, digits without leading zeros, then perhaps a fraction and an exponent. A number
may not run into a name or another dot. -/
namespace GraphQL.Number

/-- The part of a text that has been read, and what is left of it. -/
structure Progress where
  taken : List Char
  rest : List Char
  deriving DecidableEq

/-- Why a number is malformed, and how far it was read. -/
structure Fault where
  diagnosis : String
  progress : Progress
  deriving DecidableEq

/-- Takes the characters `cs`, which stand before `rest`. -/
def Progress.take (p : Progress) (cs rest : List Char) : Progress :=
  ⟨p.taken ++ cs, rest⟩

/-- The fault of a text that has something else where a digit is due. It takes that character. -/
def missingDigit (p : Progress) : Fault :=
  let diagnosis := "invalid number, expected digit but got: "
  match p.rest with
  | [] => ⟨diagnosis ++ "end of input", p⟩
  | c :: rest => ⟨diagnosis ++ Text.describeChar c, p.take [c] rest⟩

/-- One digit or more. -/
def digits (p : Progress) : Except Fault Progress :=
  match p.rest.span isDigit with
  | ([], _) => .error (missingDigit p)
  | (ds, rest) => .ok (p.take ds rest)

def sign (text : List Char) : Progress :=
  match text with
  | '-' :: rest => ⟨['-'], rest⟩
  | _ => ⟨[], text⟩

/-- A zero alone, or digits of which the first is not zero. -/
def integerPart (p : Progress) : Except Fault Progress :=
  match p.rest with
  | '0' :: c :: rest =>
    if isDigit c then
      .error ⟨"invalid number, unexpected digit after 0: '" ++ c.toString ++ "'",
        p.take ['0', c] rest⟩
    else .ok (p.take ['0'] (c :: rest))
  | ['0'] => .ok (p.take ['0'] [])
  | _ => digits p

def fractionPart (p : Progress) : Except Fault Progress :=
  match p.rest with
  | '.' :: rest => digits (p.take ['.'] rest)
  | _ => .ok p

/-- The sign of an exponent is optional and may be a plus. -/
def exponentSign (p : Progress) : Progress :=
  match p.rest with
  | c :: rest => if c = '+' || c = '-' then p.take [c] rest else p
  | [] => p

def exponentPart (p : Progress) : Except Fault Progress :=
  match p.rest with
  | c :: rest =>
    if c = 'e' || c = 'E' then digits (exponentSign (p.take [c] rest)) else .ok p
  | [] => .ok p

/-- Nothing that would continue the number or start a name may follow. -/
def endPart (p : Progress) : Except Fault Progress :=
  match p.rest with
  | c :: rest =>
    if c = '.' || isNameStart c then
      .error ⟨"invalid number, unexpected character after number: " ++ Text.describeChar c,
        p.take [c] rest⟩
    else .ok p
  | [] => .ok p

/-- The integer part alone, and the whole number. -/
def read (text : List Char) : Except Fault (Progress × Progress) := do
  let integer ← integerPart (sign text)
  let number ← endPart (← exponentPart (← fractionPart integer))
  return (integer, number)

/-- The number at the head of a text. It is a float if more than its integer part is there. -/
def lexeme (text : List Char) : Lexeme :=
  match read text with
  | .error fault => .illegal fault.diagnosis fault.progress.taken fault.progress.rest
  | .ok (integer, number) =>
    { kind := if number.taken.length = integer.taken.length then .int else .float
      literal := String.ofList number.taken
      extent := number.taken
      rest := number.rest }

end GraphQL.Number
