import PageContent.Operand.Basic

/-! # What operators accept

    * **Operand types**: requirements on a single operand.
    * **Arity**: how many operands an operator takes, and what each of them
      must be, depending on its place.
    * **Demands**: the requirement at one place, which is a type or one of two
      looser conditions.
-/

namespace PageContent

/-- A requirement on one operand. -/
inductive OperandType where
  /-- An integer or a real. -/
  | number
  | integer
  | name
  /-- A string of either form. -/
  | string
  | array
  /-- An array of numbers only, such as a dash pattern. -/
  | numberArray
  /-- An array of strings and numbers, such as text with adjustments. -/
  | textArray
  /-- A property list: its name, or the list itself. -/
  | nameOrDictionary
  | inlineData
  deriving DecidableEq, Repr, Inhabited

namespace OperandType

/-- All requirements. -/
def all : List OperandType :=
  [.number, .integer, .name, .string, .array, .numberArray, .textArray, .nameOrDictionary,
    .inlineData]

/-- The name of the requirement in messages. -/
def text : OperandType → String
  | number => "number"
  | integer => "integer"
  | name => "name"
  | string => "string"
  | array => "array"
  | numberArray => "array of numbers"
  | textArray => "array of strings and numbers"
  | nameOrDictionary => "name or dictionary"
  | inlineData => "inline image data"

/-- Whether an operand meets the requirement. -/
def accepts : OperandType → Operand → Bool
  | number, x => x.isNumber
  | integer, x => x.kind == .integer
  | name, x => x.kind == .name
  | string, x => x.kind == .string
  | array, x => x.kind == .array
  | numberArray, .array items => items.all (·.isNumber)
  | numberArray, _ => false
  | textArray, .array items => items.all fun x => x.isNumber || x.kind == .string
  | textArray, _ => false
  | nameOrDictionary, x => x.kind == .name || x.kind == .dictionary
  | inlineData, x => x.kind == .inlineData

end OperandType

/-- The requirement at one place of an operand list. -/
inductive Demand where
  | exactly (type : OperandType)
  | numberOrName
  /-- Anything that can be a value of a dictionary. -/
  | value
  deriving DecidableEq, Repr, Inhabited

namespace Demand

def text : Demand → String
  | exactly type => type.text
  | numberOrName => "number or name"
  | value => "value"

def accepts : Demand → Operand → Bool
  | exactly type, x => type.accepts x
  | numberOrName, x => x.isNumber || x.kind == .name
  | value, x => x.kind != .inlineData

end Demand

/-- The operands an operator takes. -/
inductive Arity where
  /-- These, in order. -/
  | fixed (types : List OperandType)
  /-- From `least` to `most` operands of one type. -/
  | range (least most : Nat) (type : OperandType)
  /-- Color components, the last of which may be the name of a pattern. -/
  | patternColor
  /-- A dictionary without brackets: keys and values in turn. -/
  | keyValuePairs
  /-- The data of an inline image. -/
  | inlineData
  deriving DecidableEq, Repr, Inhabited

namespace Arity

/-- The greatest number of color components. -/
def maxColorComponents : Nat := 32

/-- Whether the number of operands may vary. -/
def isVariadic : Arity → Bool
  | fixed _ => false
  | inlineData => false
  | _ => true

/-- The number of operands in messages. -/
def text : Arity → String
  | fixed types => toString types.length
  | range least most _ => s!"{least} to {most}"
  | patternColor => s!"1 to {maxColorComponents + 1}"
  | keyValuePairs => "an even number of"
  | inlineData => "1"

/-- Whether this many operands are allowed. -/
def acceptsCount : Arity → Nat → Bool
  | fixed types, n => n == types.length
  | range least most _, n => least ≤ n && n ≤ most
  | patternColor, n => 1 ≤ n && n ≤ maxColorComponents + 1
  | keyValuePairs, n => n % 2 == 0
  | inlineData, n => n == 1

/-- What the operand at `index` out of `count` must be. -/
def demand? : Arity → (index count : Nat) → Option Demand
  | fixed types, i, _ => types[i]?.map .exactly
  | range _ _ type, _, _ => some (.exactly type)
  | patternColor, i, n => some (if i + 1 = n then .numberOrName else .exactly .number)
  | keyValuePairs, i, _ => some (if i % 2 = 0 then .exactly .name else .value)
  | inlineData, _, _ => some (.exactly .inlineData)

end Arity

end PageContent
