import BitnetXdna.Gguf.Inverse
import BitnetXdna.Lib.Grammar

/-!
# What the header reader accepts

The bytes that the script reads a header from, as a grammar: like the format, but a string may be any bytes, because it is
decoded with replacement characters. The reader accepts what the grammar has and nothing else (`reads_of_written`,
`parses_header`). A `read` that comes too short is not noticed by itself: only the next `struct.unpack` fails, and so a header
without tensors may end anywhere in its last string.
-/

namespace BitnetXdna

namespace Gguf

open Exec LittleEndian

variable {F : Type} [PyFloat F] {fl : File}

/-! ## The grammar -/

def SaysString (bs : List UInt8) (x : String) : Prop :=
  ∃ text : List UInt8, bs = leBytes 8 text.length ++ text ∧ text.length < 2 ^ 64 ∧ x = Utf8.decode text

/-- A value of the type with code `t`. -/
inductive SaysValue : Nat → List UInt8 → PyValue F → Prop
  | scalar (t : ScalarType) (x : t.Bits) : SaysValue t.code (scalarBytes t x) (t.fmt.value x.toNat)
  | string {bs : List UInt8} {x : String} : SaysString bs x → SaysValue 8 bs (.str x)
  | scalars (t : ScalarType) {n : Nat} {body : List UInt8} : n < 2 ^ 64 → body.length = t.width * n →
      SaysValue 9 (leBytes 4 t.code ++ (leBytes 8 n ++ body)) (.str s!"<{n} x type{t.code}>")
  | strings {bs : List UInt8} {xs : List String} : xs.length < 2 ^ 64 → Items SaysString bs xs →
      SaysValue 9 (leBytes 4 8 ++ (leBytes 8 xs.length ++ bs)) (.list xs)

def SaysEntry (bs : List UInt8) (e : String × PyValue F) : Prop :=
  ∃ key t value, bs = key ++ (leBytes 4 t ++ value) ∧ t < 2 ^ 32 ∧ SaysString key e.1 ∧ SaysValue t value e.2

def SaysTensor (bs : List UInt8) (t : TensorEntry) : Prop :=
  ∃ name dims, bs = name ++ (leBytes 4 t.dims.length ++ (dims ++ (leBytes 4 t.ttype ++ leBytes 8 t.offset))) ∧
    SaysString name t.name ∧ t.dims.length < 2 ^ 32 ∧ Items (fun bs d => d < 2 ^ 64 ∧ bs = leBytes 8 d) dims t.dims ∧
    t.ttype < 2 ^ 32 ∧ t.offset < 2 ^ 64

def SaysHeader (bs : List UInt8) (es : List (String × PyValue F)) (ts : List TensorEntry) : Prop :=
  ∃ version entries tensors, bs = magic ++ (leBytes 4 version ++ (leBytes 8 ts.length ++ (leBytes 8 es.length ++
      (entries ++ tensors)))) ∧
    version < 2 ^ 32 ∧ ts.length < 2 ^ 64 ∧ es.length < 2 ^ 64 ∧ Items SaysEntry entries es ∧ Items SaysTensor tensors ts

/-- The dictionary of some entries. -/
def dict (es : List (String × PyValue F)) : Kv F := es.foldl (fun kv e => kv.insert e.1 e.2) ∅

theorem SaysString.length_pos {bs : List UInt8} {x : String} (h : SaysString bs x) : 1 ≤ bs.length := by
  obtain ⟨text, rfl, -⟩ := h
  rw [List.length_append, length_leBytes]
  omega

theorem SaysEntry.length_pos {bs : List UInt8} {e : String × PyValue F} (h : SaysEntry bs e) : 1 ≤ bs.length := by
  obtain ⟨key, t, value, rfl, -, hkey, -⟩ := h
  rw [List.length_append]
  exact Nat.le_trans hkey.length_pos (Nat.le_add_right ..)

theorem SaysTensor.length_pos {bs : List UInt8} {t : TensorEntry} (h : SaysTensor bs t) : 1 ≤ bs.length := by
  obtain ⟨name, dims, rfl, hname, -⟩ := h
  rw [List.length_append]
  exact Nat.le_trans hname.length_pos (Nat.le_add_right ..)

/-! ## The format is in the grammar -/

theorem length_le_flatMap {α : Type} {enc : α → List UInt8} {xs : List α} {x : α} (h : x ∈ xs) :
    (enc x).length ≤ (xs.flatMap enc).length :=
  (List.sublist_flatten_of_mem (List.mem_map_of_mem h)).length_le

theorem says_string {x : String} (h : (stringBytes x).length < 2 ^ 64) : SaysString (stringBytes x) x := by
  rw [stringBytes, List.length_append] at h
  exact ⟨Utf8.encode x, rfl, by omega, (Utf8.decode_encode x).symm⟩

theorem says_value {v : Value} (h : v.bytes.length < 2 ^ 64) : SaysValue v.code v.bytes (v.decoded : PyValue F) := by
  cases v with
  | scalar t x => exact .scalar t x
  | string x => exact .string (says_string h)
  | scalars t xs =>
    have hbody := length_scalars t xs
    refine .scalars t ?_ hbody
    have hcount : xs.length ≤ t.width * xs.length := Nat.le_mul_of_pos_left _ t.width_pos
    simp only [Value.bytes, List.length_append] at h
    omega
  | strings xs =>
    simp only [Value.bytes, List.length_append] at h
    have hitems : Items SaysString (xs.flatMap stringBytes) (xs.map id) :=
      Items.flatMap xs fun x hx => says_string (Nat.lt_of_le_of_lt (length_le_flatMap hx) (by omega))
    rw [List.map_id] at hitems
    refine .strings ?_ hitems
    exact Nat.lt_of_le_of_lt (hitems.length_le fun _ _ h => h.length_pos) (by omega)

theorem says_entry {e : String × Value} (h : (entryBytes e).length < 2 ^ 64) :
    SaysEntry (entryBytes e) ((e.1, e.2.decoded) : String × PyValue F) := by
  rw [entryBytes, List.length_append, List.length_append] at h
  exact ⟨_, _, _, rfl, e.2.code_lt, says_string (by omega), says_value (by omega)⟩

theorem says_tensor {t : TensorInfo} (h : t.bytes.length < 2 ^ 64) : SaysTensor t.bytes t.entry := by
  rw [TensorInfo.bytes, List.length_append] at h
  have hdims : Items (fun bs d => d < 2 ^ 64 ∧ bs = leBytes 8 d) (t.dims.flatMap fun d => leBytes 8 d.toNat)
      (t.dims.map UInt64.toNat) := Items.flatMap t.dims fun d _ => ⟨d.toNat_lt, rfl⟩
  have hname : SaysString (stringBytes t.name) t.name := says_string (by omega)
  refine ⟨_, _, ?_, hname, ?_, hdims, t.type.toNat_lt, t.offset.toNat_lt⟩
  · simp only [TensorInfo.bytes, TensorInfo.entry, List.length_map]
  · rw [TensorInfo.entry, List.length_map]
    exact t.rank_lt

/-- The bytes of a header say what it holds. -/
theorem Header.written (h : Header) (hlen : h.bytes.length < 2 ^ 64) :
    SaysHeader h.bytes (h.kvs.map fun e => ((e.1, e.2.decoded) : String × PyValue F)) (h.tensors.map TensorInfo.entry) := by
  simp only [Header.bytes, List.length_append] at hlen
  have hentries : Items SaysEntry (h.kvs.flatMap entryBytes)
      (h.kvs.map fun e => ((e.1, e.2.decoded) : String × PyValue F)) :=
    Items.flatMap h.kvs fun e he => says_entry (Nat.lt_of_le_of_lt (length_le_flatMap he) (by omega))
  have htensors : Items SaysTensor (h.tensors.flatMap TensorInfo.bytes) (h.tensors.map TensorInfo.entry) :=
    Items.flatMap h.tensors fun t ht => says_tensor (Nat.lt_of_le_of_lt (length_le_flatMap ht) (by omega))
  refine ⟨_, _, _, ?_, h.version.toNat_lt, ?_, ?_, hentries, htensors⟩
  · rw [List.length_map, List.length_map]
    rfl
  · exact Nat.lt_of_le_of_lt (htensors.length_le fun _ _ h => h.length_pos) (by omega)
  · exact Nat.lt_of_le_of_lt (hentries.length_le fun _ _ h => h.length_pos) (by omega)

/-! ## What is said is read -/

theorem reads_of_saysString {bs : List UInt8} {x : String} (h : SaysString bs x) : Reads fl.bytes (s fl) bs x := by
  obtain ⟨text, rfl, hlen, rfl⟩ := h
  have htext : Reads fl.bytes (raw fl text.length) text text := reads_raw rfl
  exact (reads_u64 hlen).bind (htext.bind_nil (Reads.pure _))

theorem reads_of_saysValue {t : Nat} {bs : List UInt8} {v : PyValue F} (h : SaysValue t bs v) :
    Reads fl.bytes (val fl t) bs v := by
  cases h with
  | scalar t x => exact reads_scalar t x
  | string hx => exact (reads_of_saysString hx).bind_nil (Reads.pure _)
  | scalars t hn hbody =>
    unfold val
    rw [if_neg (by decide), if_pos rfl]
    refine (reads_u32 t.code_lt).bind ((reads_u64 hn).bind ?_)
    rw [if_neg t.code_ne.1]
    exact (reads_getItem (gtTables t).2.1).bind ((reads_raw hbody).bind_nil (Reads.pure _))
  | strings hn hxs =>
    unfold val
    rw [if_neg (by decide), if_pos rfl]
    refine (reads_u32 (by decide)).bind ((reads_u64 hn).bind ?_)
    rw [if_pos rfl]
    exact (hxs.reads_collect fun _ _ h => reads_of_saysString h).bind_nil (Reads.pure _)

theorem reads_of_saysEntry {bs : List UInt8} {e : String × PyValue F} (h : SaysEntry bs e) (kv : Kv F) :
    Reads fl.bytes (readEntry fl kv) bs (kv.insert e.1 e.2) := by
  obtain ⟨key, t, value, rfl, ht, hkey, hvalue⟩ := h
  exact (reads_of_saysString hkey).bind ((reads_u32 ht).bind ((reads_of_saysValue hvalue).bind_nil (Reads.pure _)))

theorem reads_of_saysTensor {bs : List UInt8} {t : TensorEntry} (h : SaysTensor bs t) :
    Reads fl.bytes (readTensor fl) bs t := by
  obtain ⟨name, dims, rfl, hname, hrank, hdims, htype, hoffset⟩ := h
  have hread : Reads fl.bytes (collect t.dims.length (u64 fl)) dims t.dims := by
    refine hdims.reads_collect ?_
    rintro bs d ⟨hd, rfl⟩
    exact reads_u64 hd
  exact (reads_of_saysString hname).bind ((reads_u32 hrank).bind
    (hread.bind ((reads_u32 htype).bind ((reads_u64 hoffset).bind_nil (Reads.pure _)))))

/-- A header that the grammar has is read. -/
theorem reads_of_written {bs : List UInt8} {es : List (String × PyValue F)} {ts : List TensorEntry}
    (h : SaysHeader bs es ts) : Reads fl.bytes (readHeader fl) bs (dict es, ts) := by
  obtain ⟨version, entries, tensors, rfl, hversion, hts, hes, hentries, htensors⟩ := h
  have hkv : Reads fl.bytes (forRange es.length ∅ fun _ kv => readEntry fl kv) entries (dict es) :=
    hentries.reads_forRange ∅ fun _ _ h _ kv => reads_of_saysEntry h kv
  have hdirectory : Reads fl.bytes (collect ts.length (readTensor fl)) tensors ts :=
    htensors.reads_collect fun _ _ h => reads_of_saysTensor h
  have hmagic : Reads fl.bytes (raw fl 4) magic magic := reads_raw rfl
  have hspelled : magic = [0x47, 0x47, 0x55, 0x46] := rfl
  unfold readHeader
  refine hmagic.bind ?_
  rw [if_neg (not_not_intro hspelled)]
  refine (reads_u32 hversion).bind ((reads_u64 hts).bind ((reads_u64 hes).bind ?_))
  exact hkv.bind (hdirectory.bind_nil (Reads.pure _))

/-! ## What is read was said -/

theorem raw_eq {n pos mid : Nat} {bs : List UInt8} (h : raw fl n pos = .ok bs mid) :
    bs = slice fl.bytes pos n ∧ mid = pos + bs.length := by
  unfold raw at h
  split at h
  · obtain ⟨rfl, rfl⟩ := Outcome.ok.inj h
    exact ⟨rfl, rfl⟩
  · exact absurd h (by simp [Exec.throw])

theorem parses_raw (n : Nat) :
    Parses fl.bytes (raw fl n) (fun bs x => x = bs ∧ bs.length = n) fun x => x.length < n := by
  intro pos x pos' hrun
  obtain ⟨hx, rfl⟩ := raw_eq hrun
  have hlen : x.length = min n (fl.bytes.length - pos) := by
    rw [hx, slice, List.length_take, List.length_drop]
  by_cases hn : x.length = n
  · exact Or.inr ⟨x, hx ▸ List.take_prefix .., rfl, rfl, hn⟩
  · exact Or.inl (by omega)

theorem raw_atEnd (n : Nat) : AtEnd fl.bytes (raw fl n) (· = []) := by
  intro pos x pos' hend hrun
  obtain ⟨hx, rfl⟩ := raw_eq hrun
  have hnil : x = [] := by
    rw [hx, slice, List.drop_eq_nil_of_le hend, List.take_nil]
  exact ⟨Nat.le_trans hend (Nat.le_add_right ..), hnil⟩

/-- An integer needs its bytes. -/
theorem parses_unpack {size : Nat} {bs : List UInt8} :
    Parses fl.bytes (unpack size bs) (fun cs x => cs = [] ∧ x < 256 ^ size ∧ bs = leBytes size x) fun _ => False := by
  unfold unpack
  split
  · rename_i hlen
    subst hlen
    exact Parses.pure ⟨rfl, ofLeBytes_lt bs, (leBytes_ofLeBytes bs).symm⟩
  · exact Parses.throw _

theorem unpack_atEnd {size : Nat} {bs : List UInt8} (h : bs.length < size) :
    AtEnd fl.bytes (unpack size bs) fun _ => False := by
  unfold unpack
  rw [if_neg (Nat.ne_of_lt h)]
  exact AtEnd.throw _

theorem parses_unsigned {size : Nat} :
    Parses fl.bytes (unsigned fl size) (fun bs x => x < 256 ^ size ∧ bs = leBytes size x) fun _ => False := by
  refine (parses_raw size).bind (fun _ h => unpack_atEnd h) ?_
  rintro _ bs ⟨rfl, -⟩
  refine parses_unpack.mono ?_ fun _ h => h
  rintro _ x ⟨rfl, hx, hbs⟩
  exact ⟨hx, by rw [List.append_nil, ← hbs]⟩

theorem unsigned_atEnd {size : Nat} (hsize : 0 < size) : AtEnd fl.bytes (unsigned fl size) fun _ => False := by
  refine (raw_atEnd size).bind ?_
  rintro bs rfl
  exact unpack_atEnd hsize

theorem parses_u32 : Parses fl.bytes (u32 fl) (fun bs x => x < 2 ^ 32 ∧ bs = leBytes 4 x) fun _ => False := parses_unsigned

theorem parses_u64 : Parses fl.bytes (u64 fl) (fun bs x => x < 2 ^ 64 ∧ bs = leBytes 8 x) fun _ => False := parses_unsigned

theorem u32_atEnd : AtEnd fl.bytes (u32 fl) fun _ => False := unsigned_atEnd (by decide)

theorem u64_atEnd : AtEnd fl.bytes (u64 fl) fun _ => False := unsigned_atEnd (by decide)

/-- A string may be cut off at the end of the file. -/
theorem parses_s : Parses fl.bytes (s fl) SaysString fun _ => True := by
  refine parses_u64.bind_full ?_
  rintro bs n ⟨hn, rfl⟩
  refine (parses_raw n).bind (fun _ _ => AtEnd.pure trivial) ?_
  rintro text _ ⟨rfl, rfl⟩
  exact Parses.pure ⟨_, by rw [List.append_nil], hn, rfl⟩

theorem s_atEnd : AtEnd fl.bytes (s fl) fun _ => False := u64_atEnd.bind_fails

/-- The types, in the order of the tables. -/
def scalarTypes : List ScalarType :=
  [.uint8, .int8, .uint16, .int16, .uint32, .int32, .float32, .bool, .uint64, .int64, .float64]

/-- What a table of the types has for a code. -/
theorem exists_of_lookup {α : Type} {f : ScalarType → α} {t : Nat} {x : α} (types : List ScalarType)
    (h : (types.map fun ty => (ty.code, f ty)).lookup t = some x) : ∃ ty : ScalarType, ty.code = t ∧ f ty = x := by
  induction types with
  | nil => exact absurd h (by simp)
  | cons ty types ih =>
    rw [List.map_cons, List.lookup_cons] at h
    split at h
    · rename_i heq
      exact ⟨ty, (beq_iff_eq.mp heq).symm, Option.some.inj h⟩
    · exact ih h

/-- The tables have nothing but the types. -/
theorem exists_of_gtFmt {t : Nat} {fmt : Fmt} (h : gtFmt.lookup t = some fmt) :
    ∃ ty : ScalarType, ty.code = t ∧ ty.fmt = fmt :=
  exists_of_lookup scalarTypes h

theorem exists_of_gtSize {t size : Nat} (h : gtSize.lookup t = some size) :
    ∃ ty : ScalarType, ty.code = t ∧ ty.width = size :=
  exists_of_lookup scalarTypes h

theorem parses_getItem {α : Type} {table : List (Nat × α)} {key : Nat} :
    Parses fl.bytes (getItem table key) (fun bs x => bs = [] ∧ table.lookup key = some x) fun _ => False := by
  unfold getItem
  split
  · rename_i x hx
    exact Parses.pure ⟨rfl, hx⟩
  · exact Parses.throw _

/-- A value may be cut off at the end of the file, if it is a string or an array. -/
theorem parses_val (t : Nat) : Parses fl.bytes (val fl t) (fun bs (v : PyValue F) => SaysValue t bs v) fun _ => True := by
  unfold val
  split
  · rename_i ht
    subst ht
    refine parses_s.bind (fun _ _ => AtEnd.pure trivial) fun bs x hx => ?_
    exact Parses.pure (by rw [List.append_nil]; exact .string hx)
  split
  · rename_i ht
    subst ht
    refine parses_u32.bind_full ?_
    rintro _ et ⟨het, rfl⟩
    refine parses_u64.bind_full ?_
    rintro _ n ⟨hn, rfl⟩
    split
    · rename_i h8
      subst h8
      refine (parses_s.collect n (s_atEnd.mono fun _ h => h.elim)).bind (fun _ _ => AtEnd.pure trivial) ?_
      rintro bs xs ⟨rfl, hxs⟩
      exact Parses.pure (by rw [List.append_nil]; exact .strings hn hxs)
    · refine parses_getItem.bind_full ?_
      rintro _ size ⟨rfl, hsize⟩
      obtain ⟨ty, rfl, rfl⟩ := exists_of_gtSize hsize
      refine (parses_raw _).bind (fun _ _ => AtEnd.pure trivial) ?_
      rintro body _ ⟨rfl, hbody⟩
      exact Parses.pure (by rw [List.nil_append, List.append_nil]; exact .scalars ty hn hbody)
  · refine parses_getItem.bind_full ?_
    rintro _ fmt ⟨rfl, hfmt⟩
    obtain ⟨ty, rfl, rfl⟩ := exists_of_gtFmt hfmt
    refine parses_getItem.bind_full ?_
    rintro _ size ⟨rfl, hsize⟩
    obtain ⟨-, hwidth, hcalc⟩ := gtTables ty
    obtain rfl : ty.width = size := Option.some.inj (hwidth.symm.trans hsize)
    rw [hcalc]
    refine (parses_raw ty.width).bind (fun _ h => (unpack_atEnd h).bind_fails) ?_
    rintro _ bs ⟨rfl, -⟩
    refine parses_unpack.bind_full ?_
    rintro _ x ⟨rfl, hx, rfl⟩
    have hbits : (BitVec.ofNat (8 * ty.width) x).toNat = x := by
      rw [BitVec.toNat_ofNat, Nat.pow_mul]
      exact Nat.mod_eq_of_lt hx
    have hwritten := SaysValue.scalar (F := F) ty (BitVec.ofNat (8 * ty.width) x)
    rw [scalarBytes, hbits] at hwritten
    exact Parses.pure (by simpa using hwritten)

/-! ### The header -/

theorem parses_entry (kv : Kv F) :
    Parses fl.bytes (readEntry fl kv) (fun bs kv' => ∃ e, SaysEntry bs e ∧ kv' = kv.insert e.1 e.2) fun _ => True := by
  refine parses_s.bind (fun _ _ => u32_atEnd.bind_fails) fun key k hkey => ?_
  refine parses_u32.bind_full ?_
  rintro _ t ⟨ht, rfl⟩
  refine (parses_val t).bind (fun _ _ => AtEnd.pure trivial) fun value v hvalue => ?_
  exact Parses.pure ⟨(k, v), ⟨key, t, value, by rw [List.append_nil], ht, hkey, hvalue⟩, rfl⟩

theorem entry_atEnd (kv : Kv F) : AtEnd fl.bytes (readEntry fl kv) fun _ => False := s_atEnd.bind_fails

/-- A tensor needs all its bytes, because an integer is at their end. -/
theorem parses_tensor : Parses fl.bytes (readTensor fl) SaysTensor fun _ => False := by
  refine parses_s.bind (fun _ _ => u32_atEnd.bind_fails) fun name x hname => ?_
  refine parses_u32.bind_full ?_
  rintro _ nd ⟨hnd, rfl⟩
  refine (parses_u64.collect_full nd u64_atEnd).bind_full ?_
  rintro dims ds ⟨rfl, hdims⟩
  refine parses_u32.bind_full ?_
  rintro _ ttype ⟨httype, rfl⟩
  refine parses_u64.bind_full ?_
  rintro _ offset ⟨hoffset, rfl⟩
  exact Parses.pure ⟨name, dims, by rw [List.append_nil], hname, hnd, hdims, httype, hoffset⟩

theorem tensor_atEnd : AtEnd fl.bytes (readTensor fl) fun _ => False := s_atEnd.bind_fails

/-- A header that is read and has a tensor is one that the grammar has. -/
theorem parses_header : Parses fl.bytes (readHeader fl)
    (fun bs (r : Kv F × List TensorEntry) => ∃ es, SaysHeader bs es r.2 ∧ r.1 = dict es) fun r => r.2 = [] := by
  have hloop : ∀ n, Parses fl.bytes (forRange n ∅ fun _ kv => readEntry fl kv)
      (fun bs (kv : Kv F) => ∃ es, es.length = n ∧ Items SaysEntry bs es ∧ kv = dict es) fun _ => True := fun n =>
    Parses.forRange n ∅ (fun _ kv => parses_entry kv) fun _ kv _ => (entry_atEnd kv).mono fun _ h => h.elim
  refine (parses_raw 4).bind (fun magic h => ?_) ?_
  · have hne : magic ≠ [0x47, 0x47, 0x55, 0x46] := by
      rintro rfl
      exact absurd h (by decide)
    rw [if_pos hne]
    exact AtEnd.throw _
  rintro _ bs ⟨rfl, -⟩
  split
  · exact Parses.throw _
  rename_i hmagic
  rw [not_ne_iff] at hmagic
  subst hmagic
  refine parses_u32.bind_full ?_
  rintro _ version ⟨hversion, rfl⟩
  refine parses_u64.bind_full ?_
  rintro _ nTensors ⟨hts, rfl⟩
  refine parses_u64.bind_full ?_
  rintro _ nKv ⟨hes, rfl⟩
  refine (hloop nKv).bind (fun kv _ => (tensor_atEnd.collect nTensors).bind fun _ hnil => AtEnd.pure hnil) ?_
  rintro entries _ ⟨es, rfl, hentries, rfl⟩
  refine (parses_tensor.collect_full nTensors tensor_atEnd).bind_full ?_
  rintro tensors ts ⟨rfl, htensors⟩
  exact Parses.pure ⟨es, ⟨version, entries, tensors, by rw [List.append_nil]; rfl, hversion, hts, hes, hentries, htensors⟩, rfl⟩

end Gguf

end BitnetXdna
