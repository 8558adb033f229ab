import BitnetXdna.Gguf.Extract
import Mathlib.Order.Bounds.Basic

/-!
# The layout of a GGUF file

What a GGUF header of version 2 or 3 says, and its bytes. A string is its length and its UTF-8, a value is preceded by the code
of its type, and an array by the code of its elements' type and their number. The data of the tensors follows the header, at a
multiple of the alignment that the header gives.

The numbers of items are written in 64 bits and always fit, because a file is shorter than that; the number of dimensions is
written in 32.
-/

namespace BitnetXdna

namespace Gguf

open LittleEndian

/-! ## What a header holds -/

/-- The types of fixed size. -/
inductive ScalarType
  | uint8
  | int8
  | uint16
  | int16
  | uint32
  | int32
  | float32
  | bool
  | uint64
  | int64
  | float64
  deriving DecidableEq, Repr

def ScalarType.code : ScalarType → Nat
  | .uint8 => 0
  | .int8 => 1
  | .uint16 => 2
  | .int16 => 3
  | .uint32 => 4
  | .int32 => 5
  | .float32 => 6
  | .bool => 7
  | .uint64 => 10
  | .int64 => 11
  | .float64 => 12

def ScalarType.width : ScalarType → Nat
  | .uint8 | .int8 | .bool => 1
  | .uint16 | .int16 => 2
  | .uint32 | .int32 | .float32 => 4
  | .uint64 | .int64 | .float64 => 8

/-- A value of a type of fixed size, as its bits. -/
abbrev ScalarType.Bits (t : ScalarType) : Type := BitVec (8 * t.width)

/-- A value of the key/value list. -/
inductive Value
  | scalar (t : ScalarType) (x : t.Bits)
  | string (s : String)
  | scalars (t : ScalarType) (xs : List t.Bits)
  | strings (ss : List String)

/-- A tensor of the directory. -/
structure TensorInfo where
  name : String
  dims : List UInt64
  rank_lt : dims.length < 2 ^ 32
  type : UInt32
  offset : UInt64

structure Header where
  version : UInt32
  kvs : List (String × Value)
  tensors : List TensorInfo

/-! ## Its bytes -/

def stringBytes (s : String) : List UInt8 := leBytes 8 (Utf8.encode s).length ++ Utf8.encode s

def scalarBytes (t : ScalarType) (x : t.Bits) : List UInt8 := leBytes t.width x.toNat

def Value.code : Value → Nat
  | .scalar t _ => t.code
  | .string _ => 8
  | .scalars _ _ | .strings _ => 9

def Value.bytes : Value → List UInt8
  | .scalar t x => scalarBytes t x
  | .string s => stringBytes s
  | .scalars t xs => leBytes 4 t.code ++ (leBytes 8 xs.length ++ xs.flatMap (scalarBytes t))
  | .strings ss => leBytes 4 8 ++ (leBytes 8 ss.length ++ ss.flatMap stringBytes)

def entryBytes (e : String × Value) : List UInt8 := stringBytes e.1 ++ (leBytes 4 e.2.code ++ e.2.bytes)

def TensorInfo.bytes (t : TensorInfo) : List UInt8 :=
  stringBytes t.name ++ (leBytes 4 t.dims.length ++ (t.dims.flatMap (fun d => leBytes 8 d.toNat) ++
    (leBytes 4 t.type.toNat ++ leBytes 8 t.offset.toNat)))

/-- The four bytes that spell GGUF. -/
def magic : List UInt8 := [0x47, 0x47, 0x55, 0x46]

def Header.bytes (h : Header) : List UInt8 :=
  magic ++ (leBytes 4 h.version.toNat ++ (leBytes 8 h.tensors.length ++ (leBytes 8 h.kvs.length ++
    (h.kvs.flatMap entryBytes ++ h.tensors.flatMap TensorInfo.bytes))))

/-! ## What is read out of it -/

/-- The entry that the directory should have for a tensor. -/
def TensorInfo.entry (t : TensorInfo) : TensorEntry where
  name := t.name
  dims := t.dims.map UInt64.toNat
  ttype := t.type.toNat
  offset := t.offset.toNat

/-- The number that a value of an integer type stands for. -/
def Value.toInt? : Value → Option Int
  | .scalar .uint8 x | .scalar .uint16 x | .scalar .uint32 x | .scalar .uint64 x => some x.toNat
  | .scalar .int8 x | .scalar .int16 x | .scalar .int32 x | .scalar .int64 x => some x.toInt
  | _ => none

/-- The last value of a key. -/
def Header.last (h : Header) (key : String) : Option Value :=
  ((h.kvs.filter fun e => e.1 = key).getLast?).map Prod.snd

/-- The data is aligned to `a`: the last value of `general.alignment` if there is one, or else 32. -/
def Header.AlignedTo (h : Header) (a : Nat) : Prop :=
  0 < a ∧
    match h.last "general.alignment" with
    | some v => v.toInt? = some a
    | none => a = 32

/-- Where the data starts: at the least multiple of the alignment that is not within the header. -/
def Header.DataAt (h : Header) (a start : Nat) : Prop := IsLeast { m : Nat | a ∣ m ∧ h.bytes.length ≤ m } start

end Gguf

end BitnetXdna
