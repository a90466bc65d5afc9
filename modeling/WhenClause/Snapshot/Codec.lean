import WhenClause.Snapshot.Payload

/-!
# Snapshots

A snapshot is a header of thirty-two bytes and a payload. The header holds a magic word, the
version of the format, the version of the program that wrote it, flags that are not used yet, the
length of the payload and sixteen bytes of digest over it. The writer's version and the flags say
nothing about how to read the rest, and readers pass over them.

Which function computes the digest is left open here. Decoding checks the header before it looks
at the payload, and the counts in the payload last; of several faults the first is reported. All
errors are handed back but one: a payload that asks for too long a buffer stops the program.
-/

namespace WhenClause.Snapshot

abbrev Digest := Vector UInt8 16

inductive Error where
  | badMagic
  | incompatibleVersion (found : Nat)
  | lengthMismatch (expected actual : Nat)
  | checksumMismatch
  | malformed (fault : Fault)
  | groupCountMismatch (stated found : Nat)
  | conditionCountMismatch (stated found : Nat)
  | capacityOverflow
  deriving DecidableEq, Repr

def magic : Bytes := Utf8.encode "WHEN".toList

def formatVersion : Nat := 1

def writerVersion : Nat := 1

def headerLength : Nat := 32

def Error.message : Error → String
  | .badMagic => "not a whentree snapshot: invalid magic bytes"
  | .incompatibleVersion found =>
    "incompatible format version: blob is v" ++ found.repr ++ ", engine supports v" ++
      formatVersion.repr
  | .lengthMismatch expected actual =>
    "payload length mismatch: expected " ++ expected.repr ++ " bytes, got " ++ actual.repr
  | .checksumMismatch => "integrity check failed: BLAKE3 checksum mismatch"
  | .malformed fault => "failed to decode payload: " ++ fault.message
  | .groupCountMismatch stated found =>
    "validation failed: metadata says " ++ stated.repr ++ " groups but payload has " ++ found.repr
  | .conditionCountMismatch stated found =>
    "validation failed: metadata says " ++ stated.repr ++ " conditions but payload has " ++
      found.repr
  | .capacityOverflow => "capacity overflow"

/-- The header of a payload. A length beyond thirty-two bits loses its higher bits. -/
def header (digest : Bytes → Digest) (payload : Bytes) : Bytes :=
  magic ++ littleEndian 2 formatVersion ++ littleEndian 2 writerVersion ++ littleEndian 4 0 ++
    littleEndian 4 payload.length ++ (digest payload).toList

def wrap (digest : Bytes → Digest) (payload : Bytes) : Bytes := header digest payload ++ payload

def encode (digest : Bytes → Digest) (p : Payload) : Bytes := wrap digest p.write

namespace Payload

def countGroups (p : Payload) : Nat := (p.group.map Group.groupCount).getD 0

def countConditions (p : Payload) : Nat := (p.group.map Group.conditionCount).getD 0

def validate (p : Payload) : Except Error Payload := do
  if p.groupCount ≠ p.countGroups then
    throw (.groupCountMismatch p.groupCount p.countGroups)
  if p.conditionCount ≠ p.countConditions then
    throw (.conditionCountMismatch p.conditionCount p.countConditions)
  return p

def read (bytes : Bytes) : Except Error Payload :=
  match Reader.payload bytes with
  | .ok (p, []) => .ok p
  | .ok (_, rest) => .error (.lengthMismatch bytes.length (bytes.length - rest.length))
  | .error (.fault f) => .error (.malformed f)
  | .error .capacityOverflow => .error .capacityOverflow

end Payload

def unwrap (digest : Bytes → Digest) (bytes : Bytes) : Except Error Bytes := do
  let field (start width : Nat) := (bytes.drop start).take width
  if bytes.length < headerLength then
    throw (.lengthMismatch headerLength bytes.length)
  if field 0 4 ≠ magic then
    throw .badMagic
  if ofLittleEndian (field 4 2) ≠ formatVersion then
    throw (.incompatibleVersion (ofLittleEndian (field 4 2)))
  let payload := bytes.drop headerLength
  if payload.length ≠ ofLittleEndian (field 12 4) then
    throw (.lengthMismatch (ofLittleEndian (field 12 4)) payload.length)
  if (digest payload).toList ≠ field 16 16 then
    throw .checksumMismatch
  return payload

def decode (digest : Bytes → Digest) (bytes : Bytes) : Except Error Payload := do
  let payload ← unwrap digest bytes
  (← Payload.read payload).validate

end WhenClause.Snapshot
