import Marmoset.Bytecode
import Marmoset.Bytecode.Varint

/-!
# Bytecode files

A file holds the instructions, then the constants; both come after their number.  A constant starts
with a tag: 0 for an integer, 1 for a float, 2 for a string, 3 for a function.  Whatever follows the
last constant is not looked at.
-/

namespace Marmoset

namespace File

/-! ## Writing -/

def writeCode (code : Code) : List UInt8 :=
  Varint.write code.size ++ code.toList

/-- The lowest bytes of a number, the low one first. -/
def lowBytes : (count : Nat) → Nat → List UInt8
  | 0, _ => []
  | count + 1, n => n.toUInt8 :: lowBytes count (n / 256)

/-- The eight bytes of a bit pattern, the low one first. -/
def writeBits (bits : UInt64) : List UInt8 :=
  lowBytes 8 bits.toNat

def writeString (s : String) : List UInt8 :=
  Varint.write s.utf8ByteSize ++ s.toUTF8.data.toList

def writeFunction (f : CompiledFunction) : List UInt8 :=
  writeCode f.code ++ Varint.write f.locals.toNat ++ Varint.write f.params.toNat

def writeConstant : Constant → List UInt8
  | .integer n => 0 :: Varint.write (Varint.fold n.toInt)
  | .float x => 1 :: writeBits x.bits
  | .string s => 2 :: writeString s
  | .function f => 3 :: writeFunction f

/-! ## Reading -/

/-- Takes exactly `n` bytes. -/
def readBytes (n : Nat) (bytes : List UInt8) : Except FileError (List UInt8 × List UInt8) :=
  let taken := bytes.take n
  if taken.length < n then .error .unexpectedEnd else .ok (taken, bytes.drop n)

def readCode (bytes : List UInt8) : Except FileError (Code × List UInt8) := do
  let (n, bytes) ← Varint.read64 bytes
  let (code, bytes) ← readBytes n bytes
  return (code.toArray, bytes)

/-- The bit pattern whose bytes are given, the low one first. -/
def bitsOf (bytes : List UInt8) : Nat :=
  bytes.foldr (fun b n => b.toNat + 256 * n) 0

def readBits (bytes : List UInt8) : Except FileError (UInt64 × List UInt8) := do
  let (taken, bytes) ← readBytes 8 bytes
  return ((bitsOf taken).toUInt64, bytes)

def readString (bytes : List UInt8) : Except FileError (String × List UInt8) := do
  let (n, bytes) ← Varint.read64 bytes
  let (taken, bytes) ← readBytes n bytes
  match String.fromUTF8? ⟨taken.toArray⟩ with
  | some s => return (s, bytes)
  | none => .error .badText

def readFunction (bytes : List UInt8) : Except FileError (CompiledFunction × List UInt8) := do
  let (code, bytes) ← readCode bytes
  let (locals, bytes) ← Varint.read64 bytes
  let (params, bytes) ← Varint.read64 bytes
  return (⟨code, locals.toUInt64, params.toUInt64⟩, bytes)

def readConstant (bytes : List UInt8) : Except FileError (Constant × List UInt8) := do
  let (tag, bytes) ← Varint.read32 bytes
  match tag with
  | 0 =>
    let (n, bytes) ← Varint.read64 bytes
    return (.integer (Int64.ofInt (Varint.unfold n)), bytes)
  | 1 =>
    let (bits, bytes) ← readBits bytes
    return (.float ⟨bits⟩, bytes)
  | 2 =>
    let (s, bytes) ← readString bytes
    return (.string s, bytes)
  | 3 =>
    let (f, bytes) ← readFunction bytes
    return (.function f, bytes)
  | _ => .error .unknownTag

/-- Reads `n` constants; `acc` holds those read so far. -/
def readConstants (acc : Array Constant) :
    (n : Nat) → List UInt8 → Except FileError (Array Constant × List UInt8)
  | 0, bytes => .ok (acc, bytes)
  | n + 1, bytes =>
    match readConstant bytes with
    | .ok (c, rest) => readConstants (acc.push c) n rest
    | .error e => .error e

end File

namespace Bytecode

/-- The program as a file. -/
def toBytes (b : Bytecode) : List UInt8 :=
  File.writeCode b.code ++ Varint.write b.constants.size ++
    b.constants.toList.flatMap File.writeConstant

/-- The program that a file starts with. -/
def ofBytes (bytes : List UInt8) : Except FileError Bytecode := do
  let (code, bytes) ← File.readCode bytes
  let (n, bytes) ← Varint.read64 bytes
  let (constants, _) ← File.readConstants #[] n bytes
  return ⟨code, constants⟩

end Bytecode

end Marmoset
