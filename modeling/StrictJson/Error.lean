/-!
# Errors

Every failure of the library is reported as an `Error`: a code from one closed set, a sentence
that says what went wrong, and the byte of the input where it was noticed, if there is such a
byte. The modules that can fail have types of their own for the causes of failure and map them
here, so a sentence is worded in one place.

The codes are numbered from 1 to 19. The numbers travel inside packed units, so they are part of
the binary format and `ErrorCode.ofNumber?` is the inverse of `ErrorCode.number`.

## Main definitions

* `ErrorCode`, `ErrorCode.number`, `ErrorCode.message`
* `Error`, `Error.atByte`, `Error.text`

## Main results

* `ErrorCode.ofNumber?_number`: every code is found again under its number.
* `ErrorCode.number_of_ofNumber?`: a number stands for at most one code.
-/

namespace StrictJson

/-- An **error code** names the kind of a failure. -/
inductive ErrorCode where
  | invalidArgument
  | invalidNumber
  | invalidUtf8
  | outOfMemory
  | stackOverflow
  | cannotOpenFile
  | invalidSyntax
  | invalidFormat
  | wrongType
  | nullCharacter
  | nullValue
  | nullByteInKey
  | duplicateKey
  | numericOverflow
  | itemNotFound
  | indexOutOfRange
  | prematureEndOfInput
  | endOfInputExpected
  | unknown
  deriving DecidableEq, Repr, Inhabited

namespace ErrorCode

/-- All codes in the order of their numbers. -/
def all : List ErrorCode :=
  [invalidArgument, invalidNumber, invalidUtf8, outOfMemory, stackOverflow, cannotOpenFile,
    invalidSyntax, invalidFormat, wrongType, nullCharacter, nullValue, nullByteInKey, duplicateKey,
    numericOverflow, itemNotFound, indexOutOfRange, prematureEndOfInput, endOfInputExpected,
    unknown]

/-- The stable number of a code, which is what a packed error unit carries. -/
def number : ErrorCode → Nat
  | invalidArgument => 1
  | invalidNumber => 2
  | invalidUtf8 => 3
  | outOfMemory => 4
  | stackOverflow => 5
  | cannotOpenFile => 6
  | invalidSyntax => 7
  | invalidFormat => 8
  | wrongType => 9
  | nullCharacter => 10
  | nullValue => 11
  | nullByteInKey => 12
  | duplicateKey => 13
  | numericOverflow => 14
  | itemNotFound => 15
  | indexOutOfRange => 16
  | prematureEndOfInput => 17
  | endOfInputExpected => 18
  | unknown => 19

/-- The code with the given number, if it is one of 1 to 19. -/
def ofNumber? (n : Nat) : Option ErrorCode :=
  all.find? fun code => code.number == n

/-- The fixed description of a code. -/
def message : ErrorCode → String
  | invalidArgument => "Invalid argument"
  | invalidNumber => "Invalid number"
  | invalidUtf8 => "Invalid UTF-8"
  | outOfMemory => "Out of memory"
  | stackOverflow => "Stack overflow"
  | cannotOpenFile => "Cannot open file"
  | invalidSyntax => "Invalid syntax"
  | invalidFormat => "Invalid format"
  | wrongType => "Wrong type"
  | nullCharacter => "Null character"
  | nullValue => "Null value"
  | nullByteInKey => "Null byte in key"
  | duplicateKey => "Duplicate key"
  | numericOverflow => "Numeric overflow"
  | itemNotFound => "Item not found"
  | indexOutOfRange => "Index out of range"
  | prematureEndOfInput => "Premature end of input"
  | endOfInputExpected => "End of input expected"
  | unknown => "Unknown error"

/-! ### Numbers -/

/-- The number of a code fits the four bytes that a packed unit has for it. -/
theorem number_lt (code : ErrorCode) : code.number < 0x100000000 := by
  cases code <;> decide

/-- Every code is found again under its number. -/
@[simp] theorem ofNumber?_number (code : ErrorCode) : ofNumber? code.number = some code := by
  cases code <;> rfl

/-- What is found under a number has that number. -/
theorem number_of_ofNumber? {n : Nat} {code : ErrorCode} (h : ofNumber? n = some code) :
    code.number = n := by
  simpa using List.find?_some h

end ErrorCode

/-- An **error**: its kind, a sentence of detail, and the byte of the input where it was noticed
when the failure has a place. -/
structure Error where
  code : ErrorCode
  detail : String
  offset : Option Nat := none
  deriving DecidableEq, Repr, Inhabited

namespace Error

/-- An error with a place. The sentence ends by naming it. -/
def atByte (code : ErrorCode) (offset : Nat) (detail : String) : Error :=
  { code, detail := detail ++ " at byte " ++ toString offset, offset := some offset }

/-- An error that says no more than its code does. -/
def ofCode (code : ErrorCode) : Error :=
  { code, detail := code.message }

/-- The text shown for an error: the description of its code and then the detail. -/
def text (e : Error) : String :=
  e.code.message ++ ": " ++ e.detail

end Error

end StrictJson
