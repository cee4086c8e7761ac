import PageContent.Recognizer
import PageContent.ErrorLog
import PageContent.Tree.Walk

/-! # Parsing

    From the bytes of a content stream to its parse tree, or to the first
    error.

    * **Streams** are parsed under some options.
    * **Single productions** are parsed under the default options and must take
      up all the bytes.
    * **Sessions** read several productions one after the other, each from
      where the one before has stopped, failed or not. Every error is reported
      once.
-/

namespace PageContent

/-- The version of the rules that are implemented here. -/
def version : String := "0.3.0"

namespace ContentStream

/-- The content stream of some bytes. -/
def parse (o : Options) (bytes : List UInt8) : Except ParseError ContentStream :=
  match Recognizer.read o .content (Feed.ofBytes bytes) with
  | .ok (n, _) => .ok ⟨n⟩
  | .error (e, _) => .error e

end ContentStream

namespace Node

/-- The node of a production that some bytes are. -/
def parseAs (p : Production) (bytes : List UInt8) : Except ParseError Node :=
  match Recognizer.readAll Profile.default.options p (Feed.ofBytes bytes) with
  | .ok (n, _) => .ok n
  | .error (e, _) => .error e

end Node

/-! ## Sessions -/

/-- What a session is asked to read. -/
inductive Request where
  /-- A production, wherever it ends. -/
  | part (p : Production)
  /-- A production that must end with the stream. -/
  | whole (p : Production)
  deriving DecidableEq, Repr

/-- A stream that is read step by step. -/
structure Session where
  options : Options
  /-- What has not been read. -/
  feed : Feed
  log : ErrorLog
  deriving Repr

namespace Session

/-- A session at the start of a stream, reporting to a log. -/
def start (o : Options) (bytes : List UInt8) (log : ErrorLog) : Session :=
  ⟨o, Feed.ofBytes bytes, log⟩

/-- What a request finds, and the feed that it leaves. -/
def find (s : Session) : Request → Except (ParseError × Feed) (Node × Feed)
  | .part p => Recognizer.read s.options p s.feed
  | .whole p => Recognizer.readAll s.options p s.feed

/-- The answer to a request, and the session after it. -/
def answer (s : Session) (r : Request) : Except ParseError Node × Session :=
  match s.find r with
  | .ok (n, rest) => (.ok n, { s with feed := rest })
  | .error (e, rest) => (.error e, { s with feed := rest, log := s.log.report e })

/-- The answers to some requests, and the session after them. -/
def answers (s : Session) : List Request → List (Except ParseError Node) × Session
  | [] => ([], s)
  | r :: rs =>
    let (a, s') := s.answer r
    let (as, s'') := s'.answers rs
    (a :: as, s'')

/-- The error of an answer. -/
def error? : Except ParseError Node → Option ParseError
  | .ok _ => none
  | .error e => some e

/-! ## Laws -/

/-- A request reports the error of its answer, and nothing if there is none. -/
theorem log_answer (s : Session) (r : Request) :
    (s.answer r).2.log.errors = s.log.errors ++ (error? (s.answer r).1).toList := by
  simp only [answer]
  split <;> simp [error?]

/-- Exactly the errors of the answers are reported, in order. -/
theorem log_answers (s : Session) (rs : List Request) :
    (s.answers rs).2.log.errors = s.log.errors ++ (s.answers rs).1.filterMap error? := by
  induction rs generalizing s with
  | nil => simp [answers]
  | cons r rs ih =>
    -- the first answer reports before the others do
    simp only [answers, ih, log_answer, List.append_assoc, List.filterMap_cons]
    cases error? (s.answer r).1 <;> rfl

end Session

end PageContent
