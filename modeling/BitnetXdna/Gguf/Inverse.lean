import BitnetXdna.Gguf.Format

/-!
# The reader inverts the format

Every reader of the script reads exactly the bytes of what it returns, up from the integers, strings and tagged values to the
whole header. So the directory that is read is the one that was written, the data starts where the format puts it, and the blob
of a tensor is cut out at its offset (`header_inverted`).
-/

namespace BitnetXdna

namespace Gguf

open Exec LittleEndian

variable {F : Type} [PyFloat F] {fl : File}

/-! ## Integers and strings -/

theorem reads_raw {bs : List UInt8} {n : Nat} (h : bs.length = n) : Reads fl.bytes (raw fl n) bs bs := by
  apply Reads.of_length_le
  intro hle
  have hn : n < 2 ^ 63 := by
    rw [← h]
    exact Nat.lt_of_le_of_lt hle fl.size_lt
  unfold raw
  rw [if_pos hn]
  exact Reads.readNext h

theorem reads_unpack {size x : Nat} (h : x < 256 ^ size) : Reads fl.bytes (unpack size (leBytes size x)) [] x := by
  unfold unpack
  rw [if_pos (length_leBytes size x), ofLeBytes_leBytes h]
  exact Reads.pure x

theorem reads_unsigned {size x : Nat} (h : x < 256 ^ size) : Reads fl.bytes (unsigned fl size) (leBytes size x) x := by
  unfold unsigned
  exact (reads_raw (length_leBytes size x)).bind_nil (reads_unpack h)

theorem reads_u32 {x : Nat} (h : x < 2 ^ 32) : Reads fl.bytes (u32 fl) (leBytes 4 x) x := reads_unsigned h

theorem reads_u64 {x : Nat} (h : x < 2 ^ 64) : Reads fl.bytes (u64 fl) (leBytes 8 x) x := reads_unsigned h

/-- The length of what fits in a file can be written in 64 bits. -/
theorem length_lt {bs : List UInt8} (h : bs.length ≤ fl.bytes.length) : bs.length < 2 ^ 64 := by
  have := fl.size_lt
  omega

/-- So can the number of items that take a byte each. -/
theorem count_lt (fl : File) {α : Type} {enc : α → List UInt8} {xs : List α} (henc : ∀ x, 1 ≤ (enc x).length)
    (h : (xs.flatMap enc).length ≤ fl.bytes.length) : xs.length < 2 ^ 64 := by
  have hle : xs.length ≤ (xs.flatMap enc).length := by
    clear h
    induction xs with
    | nil => exact Nat.le_refl 0
    | cons x xs ih =>
      rw [List.flatMap_cons, List.length_append, List.length_cons, Nat.add_comm]
      exact Nat.add_le_add (henc x) ih
  exact Nat.lt_of_le_of_lt hle (length_lt h)

theorem reads_s (x : String) : Reads fl.bytes (s fl) (stringBytes x) x := by
  apply Reads.of_length_le
  intro hle
  unfold stringBytes at hle ⊢
  rw [List.length_append] at hle
  have hlen : Reads fl.bytes (u64 fl) (leBytes 8 (Utf8.encode x).length) (Utf8.encode x).length :=
    reads_u64 (length_lt (Nat.le_trans (Nat.le_add_left ..) hle))
  have htext : Reads fl.bytes (raw fl (Utf8.encode x).length) (Utf8.encode x) (Utf8.encode x) := reads_raw rfl
  refine hlen.bind (htext.bind_nil ?_)
  rw [Utf8.decode_encode]
  exact Reads.pure x

/-! ## Values -/

/-- The format that a type is unpacked with. -/
def ScalarType.fmt : ScalarType → Fmt
  | .uint8 => .B
  | .int8 => .b
  | .uint16 => .H
  | .int16 => .h
  | .uint32 => .I
  | .int32 => .i
  | .float32 => .f
  | .bool => .bool
  | .uint64 => .Q
  | .int64 => .q
  | .float64 => .d

/-- The two tables agree on every type, with each other and with its width. -/
theorem gtTables (t : ScalarType) :
    gtFmt.lookup t.code = some t.fmt ∧ gtSize.lookup t.code = some t.width ∧ t.fmt.calcsize = t.width := by
  cases t <;> exact ⟨rfl, rfl, rfl⟩

theorem ScalarType.code_ne (t : ScalarType) : t.code ≠ 8 ∧ t.code ≠ 9 := by
  cases t <;> decide

theorem ScalarType.width_pos (t : ScalarType) : 1 ≤ t.width := by
  cases t <;> decide

theorem ScalarType.code_lt (t : ScalarType) : t.code < 2 ^ 32 := by
  cases t <;> decide

/-- The value of the dictionary for a value of the list. -/
def Value.decoded : Value → PyValue F
  | .scalar t x => t.fmt.value x.toNat
  | .string x => .str x
  | .scalars t xs => .str s!"<{xs.length} x type{t.code}>"
  | .strings xs => .list xs

theorem Value.code_lt (v : Value) : v.code < 2 ^ 32 := by
  cases v with
  | scalar t x => exact t.code_lt
  | string | scalars | strings => exact of_decide_eq_true rfl

theorem reads_getItem {α : Type} {table : List (Nat × α)} {key : Nat} {x : α} (h : table.lookup key = some x) :
    Reads fl.bytes (getItem table key) [] x := by
  unfold getItem
  rw [h]
  exact Reads.pure x

theorem length_scalarBytes (t : ScalarType) (x : t.Bits) : (scalarBytes t x).length = t.width := length_leBytes ..

theorem length_scalars (t : ScalarType) (xs : List t.Bits) :
    (xs.flatMap (scalarBytes t)).length = t.width * xs.length := by
  rw [List.length_flatMap, List.map_congr_left fun x _ => length_scalarBytes t x, List.map_const', List.sum_replicate_nat]
  exact Nat.mul_comm ..

theorem length_stringBytes (x : String) : 1 ≤ (stringBytes x).length := by
  rw [stringBytes, List.length_append, length_leBytes]
  omega

theorem reads_scalar (t : ScalarType) (x : t.Bits) :
    Reads fl.bytes (val fl t.code) (scalarBytes t x) (t.fmt.value x.toNat : PyValue F) := by
  obtain ⟨hfmt, hsize, hcalc⟩ := gtTables t
  obtain ⟨h8, h9⟩ := t.code_ne
  have hx : x.toNat < 256 ^ t.width := by
    have := x.isLt
    rwa [Nat.pow_mul] at this
  unfold val
  rw [if_neg h8, if_neg h9]
  refine (reads_getItem hfmt).bind ((reads_getItem hsize).bind ((reads_raw (length_scalarBytes t x)).bind_nil ?_))
  rw [hcalc]
  exact (reads_unpack hx).bind (Reads.pure _)

/-- An array of scalars is skipped. -/
theorem reads_scalars (t : ScalarType) (xs : List t.Bits) :
    Reads fl.bytes (val fl 9) (Value.scalars t xs).bytes ((Value.scalars t xs).decoded : PyValue F) := by
  apply Reads.of_length_le
  intro hle
  have hone : ∀ x : t.Bits, 1 ≤ (scalarBytes t x).length := by
    intro x
    rw [length_scalarBytes]
    exact t.width_pos
  have hn : xs.length < 2 ^ 64 := by
    refine count_lt fl hone ?_
    simp only [Value.bytes, List.length_append] at hle
    omega
  have hitems : Reads fl.bytes (raw fl (t.width * xs.length)) (xs.flatMap (scalarBytes t)) (xs.flatMap (scalarBytes t)) :=
    reads_raw (length_scalars t xs)
  unfold val
  rw [if_neg (by decide), if_pos rfl]
  refine (reads_u32 t.code_lt).bind ((reads_u64 hn).bind ?_)
  rw [if_neg t.code_ne.1]
  exact (reads_getItem (gtTables t).2.1).bind (hitems.bind_nil (Reads.pure _))

/-- An array of strings is read string by string. -/
theorem reads_strings (xs : List String) :
    Reads fl.bytes (val fl 9) (Value.strings xs).bytes (.list xs : PyValue F) := by
  apply Reads.of_length_le
  intro hle
  have hn : xs.length < 2 ^ 64 := by
    refine count_lt fl length_stringBytes ?_
    simp only [Value.bytes, List.length_append] at hle
    omega
  have hitems : Reads fl.bytes (collect xs.length (s fl)) (xs.flatMap stringBytes) (xs.map id) :=
    Reads.collect xs fun x _ => reads_s x
  rw [List.map_id] at hitems
  unfold val
  rw [if_neg (by decide), if_pos rfl]
  refine (reads_u32 (by decide)).bind ((reads_u64 hn).bind ?_)
  rw [if_pos rfl]
  exact hitems.bind_nil (Reads.pure _)

/-- Every value is read after the code of its type. -/
theorem reads_val (v : Value) : Reads fl.bytes (val fl v.code) v.bytes (v.decoded : PyValue F) := by
  cases v with
  | scalar t x => exact reads_scalar t x
  | string x => exact (reads_s x).bind_nil (Reads.pure _)
  | scalars t xs => exact reads_scalars t xs
  | strings xs => exact reads_strings xs

/-! ## The header -/

/-- The dictionary of a header. -/
def Header.kv (h : Header) : Kv F := h.kvs.foldl (fun kv e => kv.insert e.1 e.2.decoded) ∅

theorem reads_entry (e : String × Value) (kv : Kv F) :
    Reads fl.bytes (readEntry fl kv) (entryBytes e) (kv.insert e.1 e.2.decoded) := by
  unfold readEntry
  exact (reads_s e.1).bind ((reads_u32 e.2.code_lt).bind ((reads_val e.2).bind_nil (Reads.pure _)))

theorem reads_tensor (t : TensorInfo) : Reads fl.bytes (readTensor fl) t.bytes t.entry := by
  have hdims : Reads fl.bytes (collect t.dims.length (u64 fl)) (t.dims.flatMap fun d => leBytes 8 d.toNat)
      (t.dims.map UInt64.toNat) := Reads.collect t.dims fun d _ => reads_u64 d.toNat_lt
  unfold readTensor
  refine (reads_s t.name).bind ((reads_u32 t.rank_lt).bind (hdims.bind ?_))
  exact (reads_u32 t.type.toNat_lt).bind ((reads_u64 t.offset.toNat_lt).bind_nil (Reads.pure _))

theorem length_entryBytes (e : String × Value) : 1 ≤ (entryBytes e).length := by
  rw [entryBytes, List.length_append]
  exact Nat.le_trans (length_stringBytes e.1) (Nat.le_add_right ..)

theorem length_tensorBytes (t : TensorInfo) : 1 ≤ t.bytes.length := by
  rw [TensorInfo.bytes, List.length_append]
  exact Nat.le_trans (length_stringBytes t.name) (Nat.le_add_right ..)

/-- The whole header is read, and nothing behind it. -/
theorem reads_header (h : Header) :
    Reads fl.bytes (readHeader fl) h.bytes ((h.kv, h.tensors.map TensorInfo.entry) : Kv F × List TensorEntry) := by
  apply Reads.of_length_le
  intro hle
  simp only [Header.bytes, List.length_append] at hle
  have hkvs : h.kvs.length < 2 ^ 64 := count_lt fl length_entryBytes (by omega)
  have htensors : h.tensors.length < 2 ^ 64 := count_lt fl length_tensorBytes (by omega)
  have hentries : Reads fl.bytes (forRange h.kvs.length ∅ fun _ kv => readEntry fl kv) (h.kvs.flatMap entryBytes)
      (h.kv : Kv F) := Reads.forRange h.kvs ∅ fun e _ _ kv => reads_entry e kv
  have hdirectory : Reads fl.bytes (collect h.tensors.length (readTensor fl)) (h.tensors.flatMap TensorInfo.bytes)
      (h.tensors.map TensorInfo.entry) := Reads.collect h.tensors fun t _ => reads_tensor t
  have hmagic : Reads fl.bytes (raw fl 4) magic magic := reads_raw rfl
  have hspelled : magic = [0x47, 0x47, 0x55, 0x46] := rfl
  unfold readHeader
  refine hmagic.bind ?_
  rw [if_neg (not_not_intro hspelled)]
  refine (reads_u32 h.version.toNat_lt).bind ((reads_u64 htensors).bind ((reads_u64 hkvs).bind ?_))
  exact hentries.bind (hdirectory.bind_nil (Reads.pure _))

/-! ## Where the data starts -/

/-- The dictionary has the last value of each key. -/
theorem Header.lookup_kv (h : Header) (key : String) :
    (h.kv : Kv F).lookup key = (h.last key).map Value.decoded := by
  unfold Header.kv Header.last
  induction h.kvs using List.reverseRecOn with
  | nil => rfl
  | append_singleton kvs e ih =>
    rw [List.foldl_append, List.foldl_cons, List.foldl_nil, List.filter_append]
    by_cases he : e.1 = key
    · subst he
      rw [AList.lookup_insert, List.filter_cons_of_pos (by simp), List.filter_nil, List.getLast?_concat]
      rfl
    · rw [AList.lookup_insert_ne (Ne.symm he), ih, List.filter_cons_of_neg (by simpa using he), List.filter_nil,
        List.append_nil]

/-- An integer is decoded to itself. -/
theorem Value.decoded_of_toInt {v : Value} {i : Int} (h : v.toInt? = some i) : (v.decoded : PyValue F) = .int i := by
  cases v with
  | scalar t x =>
    cases t with
    | uint8 | uint16 | uint32 | uint64 =>
      rw [← Option.some.inj h]
      rfl
    | int8 | int16 | int32 | int64 =>
      rw [← Option.some.inj h]
      exact congrArg (fun y => PyValue.int (BitVec.toInt y)) ((BitVec.ofNat_toNat _ x).trans (BitVec.setWidth_eq x))
    | float32 | bool | float64 => exact absurd h nofun
  | string | scalars | strings => exact absurd h nofun

/-- Rounding up to a positive integer gives its least multiple that is not below. -/
theorem alignTo_pos {a : Nat} (ha : 0 < a) (pos cursor : Nat) :
    ∃ start : Nat, alignTo pos a cursor = .ok (.int start) cursor ∧ IsLeast { m : Nat | a ∣ m ∧ pos ≤ m } start := by
  have hne : (a : Int) ≠ 0 := Int.natCast_ne_zero.mpr (Nat.ne_of_gt ha)
  have hmod : Int.fmod pos a = (pos % a : Nat) := by
    rw [Int.fmod_eq_emod_of_nonneg _ (Int.natCast_nonneg a), Int.natCast_emod]
  have hlt : pos % a < a := Nat.mod_lt pos ha
  have hpos : a * (pos / a) + pos % a = pos := Nat.div_add_mod pos a
  unfold alignTo
  rw [if_neg hne, hmod]
  by_cases hr : pos % a = 0
  · refine ⟨pos, ?_, ⟨Nat.dvd_of_mod_eq_zero hr, Nat.le_refl pos⟩, fun m hm => hm.2⟩
    rw [if_neg (by rw [hr]; exact not_not_intro rfl)]
    rfl
  · have hstart : (pos : Int) + (a - (pos % a : Nat)) = (pos + (a - pos % a) : Nat) := by omega
    refine ⟨pos + (a - pos % a), ?_, ⟨⟨pos / a + 1, ?_⟩, Nat.le_add_right ..⟩, ?_⟩
    · rw [if_pos (by exact_mod_cast hr), hstart]
      rfl
    · rw [Nat.mul_succ]
      omega
    · rintro m ⟨⟨q, rfl⟩, hle⟩
      -- the multiple is beyond the one below `pos`
      have hq : pos / a < q := by
        rw [Nat.div_lt_iff_lt_mul ha, Nat.mul_comm]
        refine Nat.lt_of_le_of_ne hle ?_
        rintro rfl
        exact hr (Nat.mul_mod_right a q)
      have hnext := Nat.mul_le_mul_left a (Nat.succ_le_of_lt hq)
      rw [Nat.mul_succ] at hnext
      omega

/-- The data starts at the least multiple of the alignment that is not within the header. -/
theorem dataStart_alignedTo {h : Header} {a : Nat} (ha : h.AlignedTo a) :
    ∃ start : Nat, dataStart (((h.kv : Kv F).lookup "general.alignment").getD (.int 32)) h.bytes.length =
      .ok (.int start) h.bytes.length ∧ h.DataAt a start := by
  obtain ⟨hpos, hvalue⟩ := ha
  have halign : ((h.kv : Kv F).lookup "general.alignment").getD (.int 32) = .int a := by
    rw [Header.lookup_kv]
    cases hlast : h.last "general.alignment" with
    | none =>
      rw [hlast] at hvalue
      rw [hvalue]
      rfl
    | some v =>
      rw [hlast] at hvalue
      exact Value.decoded_of_toInt hvalue
  rw [halign]
  exact alignTo_pos hpos h.bytes.length h.bytes.length

/-! ## The blob -/

theorem seek_of_lt {target : Nat} (h : target < 2 ^ 63) (pos : Nat) : seek target pos = .ok () target := by
  unfold seek
  rw [if_neg (by omega), if_neg (by omega)]
  rfl

theorem raw_of_lt (fl : File) {n : Nat} (h : n < 2 ^ 63) (pos : Nat) :
    raw fl n pos = .ok (slice fl.bytes pos n) (pos + (slice fl.bytes pos n).length) := by
  unfold raw
  rw [if_pos h]
  rfl

/-- The blob of the wanted tensor is cut out of the file, if the file has it. -/
theorem extract_eq {h : Header} {want : String} {t : TensorInfo} {K N : UInt64} {start : Nat}
    (hfind : h.tensors.find? (fun t => t.name = want) = some t) (htype : t.type = 36) (hdims : t.dims = [K, N])
    (hlong : start + t.offset.toNat + (K.toNat * N.toNat / 4 + 4) ≤ fl.bytes.length) (pos : Nat) :
    ∃ (x : Extracted F) (pos' : Nat), extract fl (h.tensors.map TensorInfo.entry) (.int start) want pos = .ok x pos' ∧
      x.blob = slice fl.bytes (start + t.offset.toNat) (K.toNat * N.toNat / 4 + 4) := by
  have hsize := fl.size_lt
  have hlen := length_slice hlong
  have hentry : (h.tensors.map TensorInfo.entry).find? (fun t => t.name = want) = some t.entry := by
    rw [List.find?_map]
    exact congrArg (Option.map TensorInfo.entry) hfind
  have httype : t.entry.ttype = 36 := congrArg UInt32.toNat htype
  have hdims' : t.entry.dims = [K.toNat, N.toNat] := congrArg (List.map UInt64.toNat) hdims
  have htarget : start + t.offset.toNat < 2 ^ 63 := by omega
  have hseek : seek (start + t.entry.offset) pos = .ok () (start + t.offset.toNat) := seek_of_lt htarget pos
  have hraw := raw_of_lt fl (n := K.toNat * N.toNat / 4 + 4) (by omega) (start + t.offset.toNat)
  generalize slice fl.bytes (start + t.offset.toNat) (K.toNat * N.toNat / 4 + 4) = blob at hlen hraw ⊢
  have hscale : (slice blob (K.toNat * N.toNat / 4) 4).length = 4 := length_slice (Nat.le_of_eq hlen.symm)
  unfold extract
  rw [hentry]
  simp only
  rw [if_neg (not_not_intro httype), hdims']
  simp only
  rw [bind_of_eq hseek, bind_of_eq hraw, if_neg (not_not_intro hlen), unpack, if_pos hscale]
  exact ⟨_, _, rfl, rfl⟩

/-- Reading a file that starts with the bytes of a header, whatever follows them: the directory is the one of the header, the
reader is left right behind the header, and the data starts at the least multiple of the alignment that is not within it. If
the first tensor of the wanted name is an I2_S matrix and the file is long enough, its packed bytes and its scale are cut out. -/
theorem header_inverted {F : Type} [PyFloat F] (fl : File) (h : Header) (data : List UInt8) (a : Nat)
    (hfl : fl.bytes = h.bytes ++ data) (ha : h.AlignedTo a) :
    ∃ (kv : Kv F) (start : Nat),
      readHeader fl 0 = .ok (kv, h.tensors.map TensorInfo.entry) h.bytes.length ∧
      dataStart ((kv.lookup "general.alignment").getD (.int 32)) h.bytes.length = .ok (.int start) h.bytes.length ∧
      h.DataAt a start ∧
      ∀ (want : String) (t : TensorInfo) (K N : UInt64),
        h.tensors.find? (fun t => t.name = want) = some t → t.type = 36 → t.dims = [K, N] →
        start + t.offset.toNat + (K.toNat * N.toNat / 4 + 4) ≤ fl.bytes.length →
        ∃ (x : Extracted F) (pos : Nat), main fl want 0 = .ok x pos ∧
          x.blob = slice fl.bytes (start + t.offset.toNat) (K.toNat * N.toNat / 4 + 4) := by
  have hread : readHeader fl 0 = .ok ((h.kv, h.tensors.map TensorInfo.entry) : Kv F × List TensorEntry) h.bytes.length := by
    have hreads := reads_header (F := F) h 0 (by rw [List.drop_zero, hfl]; exact List.prefix_append ..)
    rwa [Nat.zero_add] at hreads
  obtain ⟨start, hstart, hat⟩ := dataStart_alignedTo (F := F) ha
  refine ⟨h.kv, start, hread, hstart, hat, ?_⟩
  intro want t K N hfind htype hdims hlong
  obtain ⟨x, pos, hextract, hblob⟩ := extract_eq (F := F) hfind htype hdims hlong h.bytes.length
  refine ⟨x, pos, ?_, hblob⟩
  unfold main
  rw [bind_of_eq hread]
  simp only
  rw [bind_of_eq hstart, hextract]

/-- A header with a string, an array of strings, an array of floats, an alignment that is given twice, and two tensors. -/
def twoTensors : Header where
  version := 3
  kvs := [("general.name", .string "BitNet"), ("general.alignment", .scalar .uint32 16),
    ("tokenizer.tokens", .strings ["a", "bc"]), ("tokenizer.scores", .scalars .float32 [0, 1]),
    ("general.alignment", .scalar .uint32 64)]
  tensors := [⟨"norm", [8], by decide, 0, 0⟩, ⟨"w", [2, 2], by decide, 36, 64⟩]

theorem length_twoTensors : twoTensors.bytes.length = 312 := by decide +kernel

/-- The header, 8 bytes before the data, 64 of the first tensor, and the packed byte and the scale of the second. -/
def twoTensorsFile : File where
  bytes := twoTensors.bytes ++ (List.replicate 72 0 ++ [0x1B, 0x00, 0x00, 0x80, 0x3F])
  size_lt := by
    rw [List.length_append, length_twoTensors, List.length_append, List.length_replicate]
    decide

theorem header_inverted_two_tensors :
    ∃ (kv : Kv Rat) (start : Nat),
      readHeader twoTensorsFile 0 = .ok (kv, [⟨"norm", [8], 0, 0⟩, ⟨"w", [2, 2], 36, 64⟩]) 312 ∧
      dataStart ((kv.lookup "general.alignment").getD (.int 32)) 312 = .ok (.int start) 312 ∧ start = 320 ∧
      ∃ (x : Extracted Rat) (pos : Nat), main twoTensorsFile "w" 0 = .ok x pos ∧ x.blob = [0x1B, 0x00, 0x00, 0x80, 0x3F] := by
  obtain ⟨kv, start, hread, hstart, hat, hcut⟩ :=
    header_inverted (F := Rat) twoTensorsFile twoTensors (List.replicate 72 0 ++ [0x1B, 0x00, 0x00, 0x80, 0x3F]) 64 rfl
      ⟨by decide, rfl⟩
  have h320 : twoTensors.DataAt 64 320 := by
    refine ⟨⟨⟨5, rfl⟩, Nat.le_trans (Nat.le_of_eq length_twoTensors) (by decide)⟩, ?_⟩
    rintro m ⟨⟨q, rfl⟩, hle⟩
    rw [length_twoTensors] at hle
    omega
  obtain rfl : start = 320 := hat.unique h320
  rw [length_twoTensors] at hread hstart
  have hlong : 320 + 64 + (2 * 2 / 4 + 4) ≤ twoTensorsFile.bytes.length := by
    rw [twoTensorsFile, List.length_append, length_twoTensors, List.length_append, List.length_replicate]
    decide
  obtain ⟨x, pos, hmain, hblob⟩ := hcut "w" _ 2 2 rfl rfl rfl hlong
  have hslice : slice twoTensorsFile.bytes 384 5 = [0x1B, 0x00, 0x00, 0x80, 0x3F] := by decide +kernel
  exact ⟨kv, 320, hread, hstart, rfl, x, pos, hmain, hblob.trans hslice⟩

end Gguf

end BitnetXdna
