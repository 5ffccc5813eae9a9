import WireParity.Corpus.Load
import WireParity.Parity.Adapter
import WireParity.Parity.Report
import WireParity.Shape.Size

/-!
# Running a corpus

Every vector goes through the canonical codec and through every adapter, and nothing that goes
wrong keeps the rest from being looked at. The canonical codec has to agree with the corpus; each
adapter has to produce the expected bytes and the vector's value; in parity mode, adapters also
have to agree with one another. Adapters are acquired before the first vector and released after
the last, on every way out. What a run does not survive is a panic.

A run here takes the vectors in order by itself, so it does not depend on workers. Whatever else may
become of the work on the vectors is in `WorkEnd`, and a session is told for each.
-/

namespace WireParity

namespace TestVector

/-- How many leading bytes the shape covers, where that is known: what decoding takes, or else the
size of the shape. -/
def covered? (v : TestVector) : Option Nat :=
  match v.shape.decodeFront v.bytes v.selections with
  | .ok (_, consumed) => some consumed
  | .error _ => (v.shape.size v.selections).toOption

/-- The bytes that an encoder has to produce: the whole blob, or only the covered part where
trailing bytes are allowed. -/
def expected (v : TestVector) : Bytes :=
  match v.covered? with
  | some length => if v.allowTrailing ∧ length ≤ v.bytes.length then v.bytes.take length else v.bytes
  | none => v.bytes

/-- The finding of a byte mismatch with the expected bytes, if there is one. -/
def byteFindings (phase : Phase) (subject : Subject) (expected actual : Bytes) : List Finding :=
  ((byteMismatch? expected actual).map fun m => ⟨phase, subject, .bytes m⟩).toList

/-- The finding of a mismatch between two values, if there is one. -/
def valueFindings (v : TestVector) (phase : Phase) (subject : Subject) (expected actual : Value) :
    List Finding :=
  ((valueMismatch? v.shape v.selections expected actual).map fun m =>
    ⟨phase, subject, .value m⟩).toList

/-- The finding of an error of the canonical codec. -/
def codecFinding (phase : Phase) (e : CodecError) : Finding :=
  ⟨phase, .oracle, .codec e.kind.name e.path e.message⟩

/-- What the canonical codec disagrees with when it encodes. -/
def oracleEncode (v : TestVector) : List Finding :=
  match v.shape.encode v.value v.selections with
  | .ok bytes => byteFindings .encode .oracle v.expected bytes
  | .error e => [codecFinding .encode e]

/-- What the canonical codec disagrees with when it decodes. -/
def oracleDecode (v : TestVector) : List Finding :=
  match v.shape.decodeFront v.bytes v.selections with
  | .ok (value, consumed) =>
    v.valueFindings .decode .oracle v.value value ++
      if consumed < v.bytes.length ∧ !v.allowTrailing then
        [⟨.decode, .oracle, .trailing consumed v.bytes.length⟩]
      else []
  | .error e => [codecFinding .decode e]

/-- What the canonical codec disagrees with. -/
def oracleFindings (v : TestVector) : List Finding := v.oracleEncode ++ v.oracleDecode

/-- The finding of an adapter's failure. Its milliseconds are those of a word. -/
def failureFinding (v : TestVector) (phase : Phase) (name : String) (failure : AdapterFailure) :
    Finding :=
  ⟨phase, .adapter name, match failure with
    | .timedOut limit => .timedOut name v.caseName (limit.ms % Nat.pow 2 64)
    | .failed message => .failed name v.caseName message⟩

end TestVector

/-- What an adapter answers to the calls about one vector. The third call hands it the value that
the second came to. -/
structure Answers where
  encode : Call Bytes
  decode : Call Value
  reencode : Value → Call Bytes

/-- The answers of an adapter whose calls are functions of their input. -/
def Adapter.answers (a : Adapter) (v : TestVector) : Answers where
  encode := a.encode v.shape v.value v.selections
  decode := a.decode v.shape v.bytes v.selections
  reencode value := a.encode v.shape value v.selections

/-- What an adapter did with one vector: its verdicts on the three calls, of which the last is made
only where there is a decoded value to encode again. -/
structure Exercise where
  encoded : Except AdapterFailure Bytes
  decoded : Except AdapterFailure Value
  reencoded : Option (Except AdapterFailure Bytes)

namespace Exercise

/-- The verdicts on an adapter's answers. -/
def ofAnswers (c : Config) (answers : Answers) : Exercise :=
  let decoded := answers.decode.settle c.timeout
  { encoded := answers.encode.settle c.timeout
    decoded
    reencoded :=
      if c.roundtrip then
        match decoded with
        | .ok value => some ((answers.reencode value).settle c.timeout)
        | .error _ => none
      else none }

/-- Lets an adapter work on a vector. The threads of all its calls have one name, so a name that
threads cannot have takes the caller down at the first call. -/
def perform (c : Config) (name : String) (answers : Answers) : Except Panic Exercise :=
  (startThread (threadName name)).map fun _ => ofAnswers c answers

/-- The findings of a call that had to produce the expected bytes. -/
def bytesFindings (v : TestVector) (phase : Phase) (name : String) :
    Except AdapterFailure Bytes → List Finding
  | .ok bytes => TestVector.byteFindings phase (.adapter name) v.expected bytes
  | .error failure => [v.failureFinding phase name failure]

/-- The findings of a call that had to produce the vector's value. -/
def valueFindings (v : TestVector) (name : String) : Except AdapterFailure Value → List Finding
  | .ok value => v.valueFindings .decode (.adapter name) v.value value
  | .error failure => [v.failureFinding .decode name failure]

/-- The findings about an adapter. -/
def findings (v : TestVector) (name : String) (e : Exercise) : List Finding :=
  bytesFindings v .encode name e.encoded ++ valueFindings v name e.decoded ++
    (e.reencoded.map (bytesFindings v .reencode name)).getD []

/-- Where two adapters disagree with each other, as far as both have results. -/
def crossFindings (v : TestVector) (first second : String × Exercise) : List Finding :=
  let subject := Subject.pair first.1 second.1
  (match first.2.encoded, second.2.encoded with
    | .ok a, .ok b => TestVector.byteFindings .crossEncode subject a b
    | _, _ => []) ++
  (match first.2.decoded, second.2.decoded with
    | .ok a, .ok b => v.valueFindings .crossDecode subject a b
    | _, _ => [])

/-- Where adapters disagree with each other: each with all that come after it. -/
def allCrossFindings (v : TestVector) : List (String × Exercise) → List Finding
  | [] => []
  | first :: rest => rest.flatMap (crossFindings v first) ++ allCrossFindings v rest

end Exercise

namespace TestVector

/-- What each adapter did with a vector, by name. Adapters are called one after another. -/
def exercises (c : Config) (adapters : List Adapter) (answers : Adapter → Answers) :
    Except Panic (List (String × Exercise)) :=
  adapters.mapM fun a => (Exercise.perform c a.name (answers a)).map fun e => (a.name, e)

/-- All findings about a vector, from what the adapters did with it. -/
def findingsOf (v : TestVector) (c : Config) (done : List (String × Exercise)) : List Finding :=
  v.oracleFindings ++ done.flatMap (fun entry => entry.2.findings v entry.1) ++
    if c.mode = .parity then Exercise.allCrossFindings v done else []

/-- The result for the vector at a position of the corpus, by what the adapters answer. -/
def evaluate (c : Config) (adapters : List Adapter) (answers : Adapter → Answers) (index : Nat)
    (v : TestVector) : Except Panic VectorResult :=
  (exercises c adapters answers).map fun done =>
    { index
      caseName := v.caseName
      typeName := v.typeName
      findings := v.findingsOf c done
      elapsed := 0 }

end TestVector

/-- How a run ends: it returns a report or an error, or it is taken down by a panic. -/
inductive RunEnd
  | returned (result : Except RunError Report)
  | panicked (panic : Panic)

/-- How a run ends in which an adapter has to be started, if that is the end of it. -/
def Start.ending? (name : String) : Start → Option RunEnd
  | started => none
  | refused failure => some (.returned (.error (.config (.adapterNotStarted name failure.message))))
  | panicked => some (.panicked (.start name))

namespace Parity

/-- The results for vectors from a position on, by what the adapters answer at each position. -/
def evaluateFrom (c : Config) (adapters : List Adapter)
    (answers : Nat → TestVector → Adapter → Answers) (index : Nat) :
    List TestVector → Except Panic (List VectorResult)
  | [] => .ok []
  | v :: rest => do
    let result ← v.evaluate c adapters (answers index v) index
    let others ← evaluateFrom c adapters answers (index + 1) rest
    return result :: others

/-- Results that were completed in any order, put into corpus order. -/
def collect (completed : List VectorResult) : List VectorResult :=
  completed.mergeSort fun a b => decide (a.index ≤ b.index)

/-- The contract on the order of results: where their indices do not count up from a position, the
first position that has another index, and that index. -/
def misplaced? (position : Nat) : List Nat → Option (Nat × Nat)
  | [] => none
  | index :: rest =>
    if position = index then misplaced? (position + 1) rest else some (position, index)

/-- The names of adapters. -/
def names (adapters : List Adapter) : List String := adapters.map Adapter.name

/-- What happens to adapters and vectors in the course of a run. An adapter is refused if it was to be
started and did not start. -/
inductive Event
  | acquired (adapter : String)
  | refused (adapter : String)
  | evaluated (index : Nat)
  | released (adapter : String)
deriving Repr, DecidableEq

/-- The adapters that a run holds: so many of them, from the first on. -/
structure Lease where
  adapters : List Adapter
  acquired : Nat

namespace Lease

/-- The end of a lease: the adapters that it holds are released, last one first. -/
def drop (lease : Lease) : List Event :=
  (lease.adapters.take lease.acquired).reverse.map fun a => .released a.name

/-- Acquires adapters in order, counting those that start. The first that does not ends the lease,
and the run with it. -/
def acquire (lease : Lease) : List Adapter → List Event × Except RunEnd Lease
  | [] => ([], .ok lease)
  | a :: rest =>
    match a.start.ending? a.name with
    | some ending => (.refused a.name :: lease.drop, .error ending)
    | none =>
      let others := acquire { lease with acquired := lease.acquired + 1 } rest
      (.acquired a.name :: others.1, others.2)

end Lease

/-- The report on results in the order in which they were completed. -/
def report (c : Config) (adapters : List Adapter) (completed : List VectorResult) : Report where
  mode := c.mode
  adapters := names adapters
  results := collect completed
  elapsed := 0

/-- How the work on the vectors ends: all results are completed, in some order, or no worker can be
started, or there is a panic after some results, which are lost. -/
inductive WorkEnd
  | completed (results : List VectorResult)
  | refused (fault : ConfigFault)
  | panicked (done : List VectorResult) (panic : Panic)

namespace WorkEnd

/-- The results that were completed, lost ones included. -/
def results : WorkEnd → List VectorResult
  | completed results => results
  | refused _ => []
  | panicked done _ => done

/-- What comes of a run by how the work in it ends. -/
def runEnd (c : Config) (adapters : List Adapter) : WorkEnd → RunEnd
  | completed results => .returned (.ok (report c adapters results))
  | refused fault => .returned (.error (.config fault))
  | panicked _ panic => .panicked panic

end WorkEnd

/-- A session: what happens in it, and what comes of it. Adapters are acquired before the work and
released after it, last one first, however it ends. -/
def session (c : Config) (adapters : List Adapter) (work : WorkEnd) : List Event × RunEnd :=
  match c.check (names adapters) with
  | .error fault => ([], .returned (.error (.config fault)))
  | .ok () =>
    let started := Lease.acquire ⟨adapters, 0⟩ adapters
    match started.2 with
    | .error ending => (started.1, ending)
    | .ok lease =>
      (started.1 ++ work.results.map (fun r => Event.evaluated r.index) ++ lease.drop,
        work.runEnd c adapters)

/-- The work on the vectors of a corpus in order. Each vector goes to every adapter, so a panic comes
with the first. -/
def work (c : Config) (adapters : List Adapter) (answers : Nat → TestVector → Adapter → Answers)
    (corpus : Corpus) : WorkEnd :=
  match evaluateFrom c adapters answers 0 corpus.vectors with
  | .ok results => .completed results
  | .error panic => .panicked [] panic

/-- A run over the vectors of a corpus in order, in which adapters answer the calls about the vector
at each position as they will. -/
def traceAnswered (c : Config) (adapters : List Adapter)
    (answers : Nat → TestVector → Adapter → Answers) (corpus : Corpus) : List Event × RunEnd :=
  session c adapters (work c adapters answers corpus)

/-- What comes of a run in which adapters answer as they will. -/
def runAnswered (c : Config) (adapters : List Adapter)
    (answers : Nat → TestVector → Adapter → Answers) (corpus : Corpus) : RunEnd :=
  (traceAnswered c adapters answers corpus).2

/-- A run over the vectors of a corpus in order, with adapters whose calls are functions of their
input. -/
def trace (c : Config) (adapters : List Adapter) (corpus : Corpus) : List Event × RunEnd :=
  traceAnswered c adapters (fun _ v a => a.answers v) corpus

/-- Runs a corpus against adapters. -/
def run (c : Config) (adapters : List Adapter) (corpus : Corpus) : RunEnd :=
  (trace c adapters corpus).2

/-- Runs a corpus against two adapters, with defaults for all but the mode. -/
def runPair (corpus : Corpus) (first second : Adapter) (mode : Mode) : RunEnd :=
  run { Config.default with mode } [first, second] corpus

end Parity

end WireParity
