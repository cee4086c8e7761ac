import PageContent.Error

/-! # Checking operands

    Whether an operand list fits the arity of an operator. The number of
    operands is checked before the first type, and the first operand of a wrong
    type is the one reported.
-/

namespace PageContent

namespace Operator

/-- The first operand from `index` on that does not meet its demand. -/
def firstMismatch? (arity : Arity) (count : Nat) :
    Nat → List Operand → Option (Nat × Demand × Operand)
  | _, [] => none
  | index, x :: rest =>
    match arity.demand? index count with
    | some demand =>
      if demand.accepts x then firstMismatch? arity count (index + 1) rest
      else some (index, demand, x)
    | none => firstMismatch? arity count (index + 1) rest

/-- Check operands against the arity of an operator. `spans` are the places of
    the operands, as far as they are known, and `place` is that of the
    operator. -/
def check (op : Operator) (operands : List Operand) (spans : List Span) (place : Span) :
    Except ParseError Unit :=
  let count := operands.length
  if op.arity.acceptsCount count then
    match firstMismatch? op.arity count 0 operands with
    | none => .ok ()
    | some (index, demand, x) =>
      .error (.type (spans[index]?.getD place) op.keyword index demand x.kind)
  else
    let span := (spans.head?.map (·.join place)).getD place
    .error (.arity span op.keyword op.arity count)

end Operator

end PageContent
