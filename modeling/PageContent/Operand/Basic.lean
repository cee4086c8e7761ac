import PageContent.Decimal.Text

/-! # Operands

    The values that operators are applied to.

    * **Kinds**: nine, of which arrays and dictionaries hold further operands.
    * **Dictionaries** keep their entries in source order, repeated keys
      included; a look-up finds the first.
    * **Agreement** compares reals as numbers, so that the two zeros agree.
-/

namespace PageContent

/-- How a string is written: in parentheses or in angle brackets. -/
inductive StringForm where
  | literal
  | hex
  deriving DecidableEq, Repr, Inhabited

/-- The value of an operand. -/
inductive Operand where
  | integer (value : Int64)
  | real (value : Binary64)
  | boolean (value : Bool)
  | null
  /-- A name without its slash. -/
  | name (text : String)
  | string (form : StringForm) (bytes : List UInt8)
  | array (items : List Operand)
  | dictionary (entries : List (String × Operand))
  /-- The data of an inline image. -/
  | inlineData (bytes : List UInt8)
  deriving Repr, Inhabited

/-- The kinds of operands. -/
inductive OperandKind where
  | integer
  | real
  | boolean
  | null
  | name
  | string
  | array
  | dictionary
  | inlineData
  deriving DecidableEq, Repr, Inhabited

/-- The name of a kind in messages. -/
def OperandKind.text : OperandKind → String
  | integer => "integer"
  | real => "real"
  | boolean => "boolean"
  | null => "null"
  | name => "name"
  | string => "string"
  | array => "array"
  | dictionary => "dictionary"
  | inlineData => "inline image data"

namespace Operand

def kind : Operand → OperandKind
  | integer _ => .integer
  | real _ => .real
  | boolean _ => .boolean
  | null => .null
  | name _ => .name
  | string _ _ => .string
  | array _ => .array
  | dictionary _ => .dictionary
  | inlineData _ => .inlineData

/-! ## Views -/

/-- Integers and reals are numbers. -/
def isNumber : Operand → Bool
  | integer _ => true
  | real _ => true
  | _ => false

/-- The value of a number; an integer beyond 53 bits is rounded. -/
def number? : Operand → Option Binary64
  | integer i => some (Binary64.ofInt i.toInt)
  | real x => some x
  | _ => none

def integer? : Operand → Option Int64
  | integer i => some i
  | _ => none

def boolean? : Operand → Option Bool
  | boolean b => some b
  | _ => none

def name? : Operand → Option String
  | name n => some n
  | _ => none

def string? : Operand → Option (StringForm × List UInt8)
  | string form bytes => some (form, bytes)
  | _ => none

def array? : Operand → Option (List Operand)
  | array items => some items
  | _ => none

def dictionary? : Operand → Option (List (String × Operand))
  | dictionary entries => some entries
  | _ => none

def inlineData? : Operand → Option (List UInt8)
  | inlineData bytes => some bytes
  | _ => none

/-- The value of the first entry of a dictionary with this key. -/
def get? (x : Operand) (key : String) : Option Operand :=
  x.dictionary?.bind (·.lookup key)

/-! ## Recursion over the parts -/

mutual

/-- How many arrays and dictionaries lie within each other. -/
def depth : Operand → Nat
  | array items => depthOfItems items + 1
  | dictionary entries => depthOfEntries entries + 1
  | _ => 0

def depthOfItems : List Operand → Nat
  | [] => 0
  | x :: rest => max x.depth (depthOfItems rest)

def depthOfEntries : List (String × Operand) → Nat
  | [] => 0
  | (_, x) :: rest => max x.depth (depthOfEntries rest)

end

mutual

/-- Equality of values, reals compared as numbers. -/
def agrees : Operand → Operand → Bool
  | integer a, integer b => a == b
  | real a, real b => a.agrees b
  | boolean a, boolean b => a == b
  | null, null => true
  | name a, name b => a == b
  | string f a, string g b => f == g && a == b
  | array xs, array ys => agreeAll xs ys
  | dictionary xs, dictionary ys => agreeEntries xs ys
  | inlineData a, inlineData b => a == b
  | _, _ => false

/-- Lists of equal length whose members agree one by one. -/
def agreeAll : List Operand → List Operand → Bool
  | [], [] => true
  | x :: xs, y :: ys => x.agrees y && agreeAll xs ys
  | _, _ => false

def agreeEntries : List (String × Operand) → List (String × Operand) → Bool
  | [], [] => true
  | (k, x) :: xs, (l, y) :: ys => k == l && x.agrees y && agreeEntries xs ys
  | _, _ => false

end

end Operand

end PageContent
