import BitnetXdna.Lib.LittleEndian
import BitnetXdna.Lib.Stream
import BitnetXdna.Lib.Utf8
import Mathlib.Data.List.AList
import Mathlib.Data.Rat.Floor

/-!
# Extracting a tensor from a GGUF file

`tools/gguf_extract.py`: the header is read into a dictionary and a list of tensors, the data starts at the next multiple of
the alignment, and the packed bytes and the scale of the first I2_S tensor of the wanted name are cut out. The state of a reader
is its position in the file. What the script does with floats is a parameter.
-/

namespace BitnetXdna

namespace Gguf

open Exec LittleEndian

/-- The bytes of a file. A position in it is an `off_t`. -/
structure File where
  bytes : List UInt8
  size_lt : bytes.length < 2 ^ 63

/-- What the script asks of a float: to be unpacked, and to be a modulus. The modulus is none where it raises. -/
class PyFloat (F : Type) where
  ofBinary32 : BitVec 32 → F
  ofBinary64 : BitVec 64 → F
  mod : Nat → F → Option F
  truthy : F → Bool

/-- The number that the bits of a finite float stand for: `p` bits of fraction, `w` of exponent, one of sign. -/
def ratOfBits (p w x : Nat) : Rat :=
  let fraction := x % 2 ^ p
  let exponent := x / 2 ^ p % 2 ^ w
  let bias := 2 ^ (w - 1) - 1
  let sign : Rat := if x / 2 ^ (p + w) % 2 = 1 then -1 else 1
  if exponent = 0 then sign * fraction * 2 / 2 ^ (bias + p)
  else sign * (2 ^ p + fraction) * 2 ^ exponent / 2 ^ (bias + p)

/-- Finite floats, with an exact modulus. -/
instance : PyFloat Rat where
  ofBinary32 x := ratOfBits 23 8 x.toNat
  ofBinary64 x := ratOfBits 52 11 x.toNat
  mod n x := if x = 0 then none else some (n - x * ⌊n / x⌋)
  truthy x := x ≠ 0

/-- A value of the dictionary. -/
inductive PyValue (F : Type)
  | int (i : Int)
  | bool (b : Bool)
  | float (x : F)
  | str (s : String)
  | list (ss : List String)

/-- An entry of the tensor directory. -/
structure TensorEntry where
  name : String
  dims : List Nat
  ttype : Nat
  offset : Nat
  deriving DecidableEq, Repr

/-- What ends the script early. `notFound` lists the tensors that are printed. -/
inductive PyError
  | assertionError (message : String)
  | structError (message : String)
  | keyError (key : Nat)
  | overflowError
  | zeroDivisionError
  | typeError
  | valueError
  | osError
  | indexError
  | notFound (want : String) (available : List TensorEntry)

/-! ## The tables -/

/-- The formats of `struct` that are used. All are little-endian. -/
inductive Fmt
  | B
  | b
  | H
  | h
  | I
  | i
  | f
  | bool
  | Q
  | q
  | d
  deriving DecidableEq, Repr

def Fmt.calcsize : Fmt → Nat
  | .B | .b | .bool => 1
  | .H | .h => 2
  | .I | .i | .f => 4
  | .Q | .q | .d => 8

/-- The value of the number that the bytes of a format stand for. -/
def Fmt.value {F : Type} [PyFloat F] (fmt : Fmt) (x : Nat) : PyValue F :=
  match fmt with
  | .B | .H | .I | .Q => .int x
  | .b => .int (BitVec.ofNat 8 x).toInt
  | .h => .int (BitVec.ofNat 16 x).toInt
  | .i => .int (BitVec.ofNat 32 x).toInt
  | .q => .int (BitVec.ofNat 64 x).toInt
  | .f => .float (PyFloat.ofBinary32 (BitVec.ofNat 32 x))
  | .d => .float (PyFloat.ofBinary64 (BitVec.ofNat 64 x))
  | .bool => .bool (x ≠ 0)

def gtSize : List (Nat × Nat) :=
  [(0, 1), (1, 1), (2, 2), (3, 2), (4, 4), (5, 4), (6, 4), (7, 1), (10, 8), (11, 8), (12, 8)]

def gtFmt : List (Nat × Fmt) :=
  [(0, .B), (1, .b), (2, .H), (3, .h), (4, .I), (5, .i), (6, .f), (7, .bool), (10, .Q), (11, .q), (12, .d)]

/-! ## Reader -/

/-- `table[key]`. -/
def getItem {α : Type} (table : List (Nat × α)) (key : Nat) : Exec PyError Nat α :=
  match table.lookup key with
  | some x => pure x
  | none => Exec.throw (.keyError key)

/-- `struct.unpack` of one item of `size` bytes. -/
def unpack (size : Nat) (bs : List UInt8) : Exec PyError Nat Nat :=
  if bs.length = size then pure (ofLeBytes bs)
  else Exec.throw (.structError s!"unpack requires a buffer of {size} bytes")

section Reader

variable (fl : File)

def raw (n : Nat) : Exec PyError Nat (List UInt8) :=
  if n < 2 ^ 63 then readNext fl.bytes n else Exec.throw .overflowError

/-- An unsigned integer of `size` bytes. -/
def unsigned (size : Nat) : Exec PyError Nat Nat := do
  let bs ← raw fl size
  unpack size bs

def u32 : Exec PyError Nat Nat := unsigned fl 4

def u64 : Exec PyError Nat Nat := unsigned fl 8

def s : Exec PyError Nat String := do
  let n ← u64 fl
  let bs ← raw fl n
  pure (Utf8.decode bs)

variable {F : Type} [PyFloat F]

def val (t : Nat) : Exec PyError Nat (PyValue F) :=
  if t = 8 then do
    let x ← s fl
    pure (.str x)
  else if t = 9 then do
    let et ← u32 fl
    let n ← u64 fl
    if et = 8 then do
      let xs ← collect n (s fl)
      pure (.list xs)
    else do
      let size ← getItem gtSize et
      let _ ← raw fl (size * n)
      pure (.str s!"<{n} x type{et}>")
  else do
    let fmt ← getItem gtFmt t
    let size ← getItem gtSize t
    let bs ← raw fl size
    let x ← unpack fmt.calcsize bs
    pure (fmt.value x)

end Reader

/-! ## main -/

/-- The dictionary of the key/value list. A later value of a key replaces an earlier one. -/
abbrev Kv (F : Type) : Type := AList fun _ : String => PyValue F

variable {F : Type} [PyFloat F]

def readEntry (fl : File) (kv : Kv F) : Exec PyError Nat (Kv F) := do
  let k ← s fl
  let t ← u32 fl
  let v ← val fl t
  pure (kv.insert k v)

def readTensor (fl : File) : Exec PyError Nat TensorEntry := do
  let name ← s fl
  let nd ← u32 fl
  let dims ← collect nd (u64 fl)
  let ttype ← u32 fl
  let offset ← u64 fl
  pure ⟨name, dims, ttype, offset⟩

def readHeader (fl : File) : Exec PyError Nat (Kv F × List TensorEntry) := do
  let magic ← raw fl 4
  if magic ≠ [0x47, 0x47, 0x55, 0x46] then Exec.throw (.assertionError "not a GGUF file")
  else do
    let _ver ← u32 fl
    let nTensors ← u64 fl
    let nKv ← u64 fl
    let kv ← forRange nKv ∅ fun _ kv => readEntry fl kv
    let tensors ← collect nTensors (readTensor fl)
    pure (kv, tensors)

/-- `data_start`. Rounding up to a float that does not divide the position makes it a float. -/
inductive DataStart
  | int (i : Int)
  | float
  deriving DecidableEq, Repr

def alignTo (pos : Nat) (align : Int) : Exec PyError Nat DataStart :=
  if align = 0 then Exec.throw .zeroDivisionError
  else if Int.fmod pos align ≠ 0 then pure (.int (pos + (align - Int.fmod pos align)))
  else pure (.int pos)

def dataStart (align : PyValue F) : Exec PyError Nat DataStart := do
  let pos ← get
  match align with
  | .int a => alignTo pos a
  | .bool b => alignTo pos (if b then 1 else 0)
  | .float x =>
    match PyFloat.mod pos x with
    | some r => if PyFloat.truthy r then pure .float else pure (.int pos)
    | none => Exec.throw .zeroDivisionError
  | .str _ | .list _ => Exec.throw .typeError

def seek (target : Int) : Exec PyError Nat Unit :=
  if target < -2 ^ 63 ∨ 2 ^ 63 ≤ target then Exec.throw .valueError
  else if target < 0 then Exec.throw .osError
  else modify fun _ => target.toNat

/-- What is written: the blob, and the metadata beside it. -/
structure Extracted (F : Type) where
  tensor : String
  K : Nat
  N : Nat
  ggmlType : Nat
  packedBytes : Nat
  scale : F
  fileOffset : Int
  blob : List UInt8

def extract (fl : File) (tensors : List TensorEntry) (start : DataStart) (want : String) :
    Exec PyError Nat (Extracted F) :=
  match tensors.find? (fun t => t.name = want) with
  | none => Exec.throw (.notFound want (tensors.take 12))
  | some hit =>
    if hit.ttype ≠ 36 then Exec.throw (.assertionError s!"expected GGML_TYPE_I2_S (36), got {hit.ttype}")
    else
      match hit.dims with
      | K :: N :: _ =>
        match start with
        | .float => Exec.throw .typeError
        | .int dataStart => do
          let packedBytes := K * N / 4
          let blobBytes := packedBytes + 4
          seek (dataStart + hit.offset)
          let blob ← raw fl blobBytes
          if blob.length ≠ blobBytes then Exec.throw (.assertionError "short read")
          else do
            let scale ← unpack 4 (slice blob packedBytes 4)
            pure ⟨hit.name, K, N, hit.ttype, packedBytes, PyFloat.ofBinary32 (BitVec.ofNat 32 scale),
              dataStart + hit.offset, blob⟩
      | _ => Exec.throw .indexError

def main (fl : File) (want : String) : Exec PyError Nat (Extracted F) := do
  let (kv, tensors) ← readHeader (F := F) fl
  let start ← dataStart ((kv.lookup "general.alignment").getD (.int 32))
  extract fl tensors start want

end Gguf

end BitnetXdna
