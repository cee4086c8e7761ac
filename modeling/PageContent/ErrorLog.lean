import PageContent.Error

/-! # Error logs

    The errors that have been reported to somebody, in order.
-/

namespace PageContent

/-- Reported errors, the first one first. -/
structure ErrorLog where
  errors : List ParseError
  deriving DecidableEq, Repr, Inhabited

namespace ErrorLog

def empty : ErrorLog :=
  ⟨[]⟩

/-- Report one more error. -/
def report (log : ErrorLog) (e : ParseError) : ErrorLog :=
  ⟨log.errors ++ [e]⟩

def size (log : ErrorLog) : Nat :=
  log.errors.length

def isEmpty (log : ErrorLog) : Bool :=
  log.errors.isEmpty

def first? (log : ErrorLog) : Option ParseError :=
  log.errors.head?

@[simp] theorem errors_report (log : ErrorLog) (e : ParseError) :
    (log.report e).errors = log.errors ++ [e] :=
  rfl

end ErrorLog

end PageContent
