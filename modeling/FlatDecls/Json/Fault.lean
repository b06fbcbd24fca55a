/-!
# Faults in a JSON text

A reader stops at the first fault of a text and names what it found there or what was due.
Names of faults follow their sentences.
-/

namespace FlatDecls.Json

/-- What is wrong with a text at the place where reading stops. -/
inductive Fault
  | endInArray
  | endInObject
  | endInString
  | endInValue
  | expectedColon
  | expectedItemEnd
  | expectedMemberEnd
  | expectedValue
  | expectedWord
  | keyNotString
  | trailingComma
  /-- Something follows where all must be over. -/
  | trailing
  | controlCharacter
  | invalidEscape
  /-- A surrogate code unit that must not stand here: a low one first, or no low one behind a
  high one. -/
  | loneSurrogate
  /-- No code unit follows a high surrogate. -/
  | cutSurrogate
  | invalidNumber
  | numberTooLarge
  | tooDeep
  deriving DecidableEq, Repr

namespace Fault

/-- The sentence that names a fault. -/
def message : Fault → String
  | endInArray => "EOF while parsing a list"
  | endInObject => "EOF while parsing an object"
  | endInString => "EOF while parsing a string"
  | endInValue => "EOF while parsing a value"
  | expectedColon => "expected `:`"
  | expectedItemEnd => "expected `,` or `]`"
  | expectedMemberEnd => "expected `,` or `\x7d`"
  | expectedValue => "expected value"
  | expectedWord => "expected ident"
  | keyNotString => "key must be a string"
  | trailingComma => "trailing comma"
  | trailing => "trailing characters"
  | controlCharacter => "control character (\\u0000-\\u001F) found while parsing a string"
  | invalidEscape => "invalid escape"
  | loneSurrogate => "lone leading surrogate in hex escape"
  | cutSurrogate => "unexpected end of hex escape"
  | invalidNumber => "invalid number"
  | numberTooLarge => "number out of range"
  | tooDeep => "recursion limit exceeded"

end Fault

end FlatDecls.Json
