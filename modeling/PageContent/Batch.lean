import PageContent.Parse

/-! # Batches

    Validation of independent content streams, spread over workers.

    * **Workers**: the streams are cut into chunks of equal size, one for each
      worker. What the workers deliver is put together in the order of the
      chunks, whoever finishes first.
    * **Outcomes**: a rejected stream does not stop the batch. Only a worker
      that delivers nothing does.
    * **Durations** are carried in microseconds; whoever measures them sets
      them afterwards.
-/

namespace PageContent

/-- Why a validation as a whole fails. -/
inductive ValidationError where
  | invalid (e : ParseError)
  | workerPanicked (worker : Nat)
  deriving DecidableEq, Repr

namespace ValidationError

def message : ValidationError → String
  | invalid e => "Invalid content stream: " ++ e.message
  | workerPanicked w => s!"Validation worker {w} panicked"

/-- The error behind a failure, if there is one. -/
def source? : ValidationError → Option ParseError
  | invalid e => some e
  | workerPanicked _ => none

end ValidationError

/-- Validation of one stream under the default options. -/
def validate (bytes : List UInt8) : Except ValidationError ContentStream :=
  match ContentStream.parse Profile.default.options bytes with
  | .ok s => .ok s
  | .error e => .error (.invalid e)

/-! ## Durations -/

/-- A span of time. -/
structure Duration where
  micros : Nat
  deriving DecidableEq, Repr, Inhabited

namespace Duration

/-- The seconds as a binary magnitude, in units: the whole seconds plus the
    nanoseconds that remain, each rounded, and their sum rounded. -/
def seconds (d : Duration) : Nat :=
  let whole := Magnitude.rounded (d.micros / 10 ^ 6 * Magnitude.one) 1
  let part := Magnitude.rounded (d.micros % 10 ^ 6 * 1000 * Magnitude.one) (10 ^ 9)
  Magnitude.rounded (whole + part) 1

/-- The milliseconds as a binary magnitude, in units. -/
def milliseconds (d : Duration) : Nat :=
  Magnitude.rounded (d.seconds * 1000) 1

end Duration

/-! ## Outcomes -/

/-- What became of one stream of a batch. -/
structure StreamOutcome where
  /-- The place of the stream in the batch. -/
  index : Nat
  result : Except ParseError ContentStream
  duration : Duration
  deriving Repr

namespace StreamOutcome

def stream? (r : StreamOutcome) : Option ContentStream :=
  match r.result with
  | .ok s => some s
  | .error _ => none

def error? (r : StreamOutcome) : Option ParseError :=
  match r.result with
  | .ok _ => none
  | .error e => some e

def isValid (r : StreamOutcome) : Bool :=
  r.stream?.isSome

/-- An outcome in one line. -/
def text (r : StreamOutcome) : String :=
  let verdict := match r.result with
    | .ok s => s!"valid, {s.operatorCount} operators"
    | .error e => "invalid, " ++ e.message
  let time := Magnitude.fixedText 2 r.duration.milliseconds
  s!"#{r.index}: {verdict} ({time}ms)"

end StreamOutcome

/-- What became of a batch. -/
structure BatchOutcome where
  results : List StreamOutcome
  duration : Duration
  deriving Repr

namespace BatchOutcome

def total (b : BatchOutcome) : Nat :=
  b.results.length

def successful (b : BatchOutcome) : Nat :=
  b.results.countP (·.isValid)

def failed (b : BatchOutcome) : Nat :=
  b.total - b.successful

/-- Whether every stream is valid. -/
def isValid (b : BatchOutcome) : Bool :=
  b.results.all (·.isValid)

/-- The first rejected stream and its error. -/
def firstFailure? (b : BatchOutcome) : Option (Nat × ParseError) :=
  b.results.findSome? fun r => r.error?.map (r.index, ·)

/-- The operators of all valid streams. -/
def operatorCount (b : BatchOutcome) : Nat :=
  (b.results.filterMap (·.stream?)).foldl (fun n s => n + s.operatorCount) 0

/-- The same outcome with a duration, which is also that of every stream. -/
def timed (d : Duration) (b : BatchOutcome) : BatchOutcome :=
  ⟨b.results.map fun r => { r with duration := d }, d⟩

/-- The summary of a batch. -/
def text (b : BatchOutcome) : String :=
  let time := Magnitude.fixedText 2 b.duration.seconds
  let failure := match b.firstFailure? with
    | some (index, e) => s!"\nFirst failure: stream #{index}: {e.message}"
    | none => ""
  "Batch Validation Summary\n" ++
  "========================\n" ++
  s!"Streams:    {b.total}\n" ++
  s!"Valid:      {b.successful}\n" ++
  s!"Invalid:    {b.failed}\n" ++
  s!"Operators:  {b.operatorCount}\n" ++
  s!"Duration:   {time}s" ++ failure

end BatchOutcome

/-! ## Workers -/

/-- How a batch is validated. -/
structure BatchOptions where
  parallelism : Nat
  options : Options
  deriving DecidableEq, Repr

namespace BatchOptions

/-- At least one worker is needed. -/
def withParallelism (n : Nat) (b : BatchOptions) : BatchOptions :=
  { b with parallelism := max n 1 }

end BatchOptions

namespace Batch

/-- Cut a list into pieces of `size` members, or of one if `size` is zero; the
    last piece may be shorter. -/
def chunks {α : Type} (size : Nat) : List α → List (List α)
  | [] => []
  | x :: rest => (x :: rest.take (size - 1)) :: chunks size (rest.drop (size - 1))
termination_by xs => xs.length

/-- The pieces put together are the list. -/
theorem flatten_chunks {α : Type} (size : Nat) (xs : List α) :
    (chunks size xs).flatten = xs := by
  fun_induction chunks size xs with
  | case1 => rfl
  | case2 x rest ih => rw [List.flatten_cons, ih, List.cons_append, List.take_append_drop]

/-- The outcomes of a chunk whose first stream has the number `offset`. -/
def validateChunk (o : Options) (offset : Nat) (streams : List (List UInt8)) :
    List StreamOutcome :=
  streams.mapIdx fun i bytes => ⟨offset + i, ContentStream.parse o bytes, ⟨0⟩⟩

/-- What the workers deliver, in the order of their numbers. `delivered` is in
    any order; a worker that is not there has panicked. -/
def join (delivered : List (Nat × List StreamOutcome)) :
    List Nat → Except ValidationError (List StreamOutcome)
  | [] => .ok []
  | worker :: rest =>
    match delivered.lookup worker with
    | none => .error (.workerPanicked worker)
    | some outcomes =>
      match join delivered rest with
      | .ok others => .ok (outcomes ++ others)
      | .error e => .error e

/-- The number of workers for some streams: no more than there are streams. -/
def workers (parallelism streams : Nat) : Nat :=
  min (max parallelism 1) streams

/-- The number of streams of each worker. -/
def chunkSize (parallelism streams : Nat) : Nat :=
  (streams + workers parallelism streams - 1) / workers parallelism streams

/-- What each worker delivers, with its number. -/
def deliveries (b : BatchOptions) (streams : List (List UInt8)) :
    List (Nat × List StreamOutcome) :=
  let size := chunkSize b.parallelism streams.length
  (chunks size streams).mapIdx fun worker chunk =>
    (worker, validateChunk b.options (worker * size) chunk)

/-- Validate every stream. -/
def validateAll (b : BatchOptions) (streams : List (List UInt8)) :
    Except ValidationError BatchOutcome :=
  let delivered := deliveries b streams
  match join delivered (List.range delivered.length) with
  | .ok results => .ok ⟨results, ⟨0⟩⟩
  | .error e => .error e

end Batch

end PageContent
