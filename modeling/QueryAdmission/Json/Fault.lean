import QueryAdmission.Decimal.Layout
import QueryAdmission.Text.Quoted

/-! What can be wrong with a JSON text, and how it is said: the words alone. The line and the column
that are given after them, as in `expected value at line 1 column 2`, are left out. -/

namespace QueryAdmission.Json

/-- What a text can end in the middle of. -/
inductive Region where
  | value
  | text
  | list
  | object
  deriving DecidableEq, Repr

/-- A value of the wrong type, as far as a message shows it. -/
inductive Found where
  | null
  | bool (value : Bool)
  | whole (n : Int)
  | double (x : Float)
  | text (value : String)
  | list
  | object
  deriving Repr

/-- What a reader was ready for. -/
inductive Expected where
  | text
  | unit
  | object
  | list
  | bool
  | word32
  | word64
  | signed64
  | embedded
  | record (title : String)
  deriving DecidableEq, Repr

inductive Fault where
  | ended (inside : Region)
  | noWord
  | badNumber
  | numberRange
  | controlCharacter
  | badEscape
  | loneSurrogate
  | unpairedSurrogate
  | notText
  | noValue
  | noColon
  | noListEnd
  | noObjectEnd
  | nameNotText
  | trailingComma
  | trailing
  | tooDeep
  | mismatch (found : Found) (expected : Expected)
  | outOfRange (n : Int) (expected : Expected)
  | duplicate (name : String)
  | missing (name : String)
  | wrongLength (present : Nat) (title : String) (count : Nat)
  | unknownVariant (name : String) (known : List String)
  deriving Repr

/-- Doubles in messages: positional from `0.00001` up to sixteen digits before the point. -/
def doubleLayout : Layout where
  least := -5
  greatest := 15
  pointZero := true

def Region.message : Region → String
  | .value => "a value"
  | .text => "a string"
  | .list => "a list"
  | .object => "an object"

def Found.message : Found → String
  | .null => "null"
  | .bool b => "boolean `" ++ (if b then "true" else "false") ++ "`"
  | .whole n => "integer `" ++ toString n ++ "`"
  | .double x => "floating point `" ++ doubleLayout.double x ++ "`"
  | .text s => "string " ++ Text.quoted s
  | .list => "sequence"
  | .object => "map"

def Expected.message : Expected → String
  | .text => "a string"
  | .unit => "unit"
  | .object => "a map"
  | .list => "a sequence"
  | .bool => "a boolean"
  | .word32 => "u32"
  | .word64 => "u64"
  | .signed64 => "i64"
  | .embedded => "raw value"
  | .record title => "struct " ++ title

def inTicks (s : String) : String := "`" ++ s ++ "`"

def Fault.message : Fault → String
  | .ended inside => "EOF while parsing " ++ inside.message
  | .noWord => "expected ident"
  | .badNumber => "invalid number"
  | .numberRange => "number out of range"
  | .controlCharacter =>
    "control character (\\u0000-\\u001F) found while parsing a string"
  | .badEscape => "invalid escape"
  | .loneSurrogate => "lone leading surrogate in hex escape"
  | .unpairedSurrogate => "unexpected end of hex escape"
  | .notText => "invalid unicode code point"
  | .noValue => "expected value"
  | .noColon => "expected `:`"
  | .noListEnd => "expected `,` or `]`"
  | .noObjectEnd => "expected `,` or `\x7d`"
  | .nameNotText => "key must be a string"
  | .trailingComma => "trailing comma"
  | .trailing => "trailing characters"
  | .tooDeep => "recursion limit exceeded"
  | .mismatch found expected =>
    "invalid type: " ++ found.message ++ ", expected " ++ expected.message
  | .outOfRange n expected =>
    "invalid value: " ++ (Found.whole n).message ++ ", expected " ++ expected.message
  | .duplicate name => "duplicate field " ++ inTicks name
  | .missing name => "missing field " ++ inTicks name
  | .wrongLength present title count =>
    "invalid length " ++ toString present ++ ", expected struct " ++ title ++ " with "
      ++ toString count ++ (if count = 1 then " element" else " elements")
  | .unknownVariant name known =>
    "unknown variant " ++ inTicks name ++ ", expected one of "
      ++ ", ".intercalate (known.map inTicks)

end QueryAdmission.Json
