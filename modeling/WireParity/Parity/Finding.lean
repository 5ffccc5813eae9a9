import WireParity.CodecError
import WireParity.Parity.Mismatch

/-!
# Findings

A finding says in which phase someone disagreed, who, and how. Findings are counted by class.
-/

namespace WireParity

/-- The step of an evaluation that led to a finding. -/
inductive Phase
  | encode
  | decode
  | reencode
  | crossEncode
  | crossDecode
deriving Repr, DecidableEq

namespace Phase

/-- Every phase, in order. -/
def all : List Phase := [encode, decode, reencode, crossEncode, crossDecode]

/-- The name of a phase. -/
def name : Phase → String
  | encode => "encode"
  | decode => "decode"
  | reencode => "reencode"
  | crossEncode => "cross-parity/encode"
  | crossDecode => "cross-parity/decode"

end Phase

/-- Who disagreed: the canonical codec with the corpus, an adapter, or two adapters with each
other. -/
inductive Subject
  | oracle
  | adapter (name : String)
  | pair (first second : String)
deriving Repr, DecidableEq

namespace Subject

/-- The subject is or includes the adapter with a name. -/
def involves (name : String) : Subject → Bool
  | oracle => false
  | adapter a => a == name
  | pair a b => a == name || b == name

/-- The text of a subject. -/
def text : Subject → String
  | oracle => "oracle"
  | adapter name => name
  | pair first second => first ++ "<>" ++ second

end Subject

/-- What went wrong. -/
inductive Detail
  | bytes (mismatch : ByteMismatch)
  | value (mismatch : ValueMismatch)
  | trailing (consumed total : Nat)
  | codec (kind path message : String)
  | failed (adapter caseName message : String)
  | timedOut (adapter caseName : String) (ms : Nat)
deriving Repr

/-- How an adapter's failure in a case is told by itself. -/
def failureText (adapter caseName message : String) : String :=
  s!"[{adapter}] {caseName}: {message}"

namespace Detail

/-- The text of a byte, or of there being none. -/
def byteText : Option UInt8 → String
  | some b => "0x" ++ Hex.upperByte b
  | none => "<end>"

/-- The class that a finding is counted under: for errors of the codec, their kind. -/
def className : Detail → String
  | bytes _ => "byte-mismatch"
  | value _ => "value-mismatch"
  | trailing _ _ => "trailing-bytes"
  | codec kind _ _ => kind
  | failed _ _ _ => "adapter-error"
  | timedOut _ _ _ => "adapter-timeout"

/-- The text of what went wrong. -/
def text : Detail → String
  | bytes m =>
    let lengths :=
      if m.expectedLength = m.actualLength then ""
      else s!" (length {m.expectedLength} vs {m.actualLength})"
    s!"byte {m.offset}: expected {byteText m.expectedByte}, got {byteText m.actualByte}" ++ lengths
  | value m => s!"{Path.shown m.path}: expected {m.expected}, got {m.actual}"
  | trailing consumed total =>
    s!"decode consumed {consumed} of {total} bytes ({total - consumed} trailing)"
  | codec kind _ message => s!"{kind}: {message}"
  | failed _ _ message => s!"adapter error: {message}"
  | timedOut _ _ ms => s!"adapter timed out after {ms}ms"

end Detail

/-- A disagreement over one test vector. -/
structure Finding where
  phase : Phase
  subject : Subject
  detail : Detail
deriving Repr

/-- The text of a finding. -/
def Finding.text (f : Finding) : String :=
  s!"[{f.phase.name}] {f.subject.text}: {f.detail.text}"

end WireParity
