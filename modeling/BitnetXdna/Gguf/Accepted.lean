import BitnetXdna.Gguf.Grammar

/-!
# What the script accepts

The script succeeds on exactly the files that start with a header of the grammar and are long enough for the blob of the wanted
tensor, and then it returns that blob (`main_accepts_iff`). So a file that is cut off is refused, or the result is that of the
whole file.
-/

namespace BitnetXdna

namespace Gguf

open Exec LittleEndian

/-- The header `bs` puts the blob of the I2_S matrix `want` at `off`. -/
def Places (F : Type) [PyFloat F] (bs : List UInt8) (want : String) (K N off : Nat) : Prop :=
  ∃ (es : List (String × PyValue F)) (ts : List TensorEntry) (start : Int) (t : TensorEntry) (dims : List Nat),
    SaysHeader bs es ts ∧
    dataStart (((dict es).lookup "general.alignment").getD (.int 32)) bs.length = .ok (.int start) bs.length ∧
    ts.find? (fun t => t.name = want) = some t ∧ t.ttype = 36 ∧ t.dims = K :: N :: dims ∧ start + t.offset = off

variable {F : Type} [PyFloat F] {fl : File}

/-- The blob at `off`, with what is said about it. -/
def cut (fl : File) (want : String) (K N off : Nat) : Extracted F where
  tensor := want
  K := K
  N := N
  ggmlType := 36
  packedBytes := K * N / 4
  scale := PyFloat.ofBinary32 (BitVec.ofNat 32 (ofLeBytes (slice fl.bytes (off + K * N / 4) 4)))
  fileOffset := off
  blob := slice fl.bytes off (K * N / 4 + 4)

theorem slice_slice (bs : List UInt8) (i w n : Nat) : slice (slice bs i (w + n)) w n = slice bs (i + w) n := by
  unfold slice
  rw [List.drop_take, List.drop_drop, Nat.add_sub_cancel_left, List.take_take, Nat.min_self]

/-- The cursor is where it was after the start of the data has been computed. -/
theorem dataStart_pos {v : PyValue F} {pos pos' : Nat} {start : DataStart} (h : dataStart v pos = .ok start pos') :
    pos' = pos := by
  obtain ⟨here, mid, hget, h⟩ := exists_of_bind_eq h
  obtain ⟨rfl, rfl⟩ := Outcome.ok.inj hget
  have halign : ∀ {a : Int}, alignTo pos a pos = .ok start pos' → pos' = pos := fun {a} h => by
    unfold alignTo at h
    split at h
    · exact absurd h (by simp [Exec.throw])
    split at h
    · exact (Outcome.ok.inj h).2.symm
    · exact (Outcome.ok.inj h).2.symm
  cases v with
  | int a => exact halign h
  | bool b => exact halign h
  | float x =>
    simp only at h
    cases hmod : PyFloat.mod pos x with
    | none =>
      rw [hmod] at h
      exact absurd h (by simp [Exec.throw])
    | some r =>
      rw [hmod] at h
      simp only at h
      split at h
      · exact (Outcome.ok.inj h).2.symm
      · exact (Outcome.ok.inj h).2.symm
  | str | list => exact absurd h (by simp [Exec.throw])

theorem unpack_eq {size x pos pos' : Nat} {bs : List UInt8} (h : unpack size bs pos = .ok x pos') : x = ofLeBytes bs := by
  unfold unpack at h
  split at h
  · exact (Outcome.ok.inj h).1.symm
  · exact absurd h (by simp [Exec.throw])

theorem seek_eq {target : Int} {pos pos' : Nat} (h : seek target pos = .ok () pos') :
    0 ≤ target ∧ pos' = target.toNat := by
  unfold seek at h
  split at h
  · exact absurd h (by simp [Exec.throw])
  split at h
  · exact absurd h (by simp [Exec.throw])
  · rename_i _ hneg
    obtain ⟨-, rfl⟩ := Outcome.ok.inj h
    exact ⟨Int.not_lt.mp hneg, rfl⟩

/-- An extraction that succeeds. -/
theorem extract_ok {ts : List TensorEntry} {start : DataStart} {want : String} {pos pos' : Nat} {x : Extracted F}
    (h : extract fl ts start want pos = .ok x pos') :
    ∃ (t : TensorEntry) (K N : Nat) (dims : List Nat) (d : Int) (off : Nat),
      ts.find? (fun t => t.name = want) = some t ∧ t.ttype = 36 ∧ t.dims = K :: N :: dims ∧ start = .int d ∧
      d + t.offset = off ∧ off + (K * N / 4 + 4) ≤ fl.bytes.length ∧ x = cut fl want K N off := by
  unfold extract at h
  cases hfind : ts.find? (fun t => t.name = want) with
  | none =>
    rw [hfind] at h
    exact absurd h (by simp [Exec.throw])
  | some t =>
    rw [hfind] at h
    simp only at h
    by_cases htype : t.ttype = 36
    · rw [if_neg (not_not_intro htype)] at h
      rcases hdims : t.dims with _ | ⟨K, _ | ⟨N, dims⟩⟩
      · rw [hdims] at h
        exact absurd h (by simp [Exec.throw])
      · rw [hdims] at h
        exact absurd h (by simp [Exec.throw])
      rw [hdims] at h
      cases start with
      | float => exact absurd h (by simp [Exec.throw])
      | int d =>
        simp only at h
        obtain ⟨_, mid, hseek, h⟩ := exists_of_bind_eq h
        obtain ⟨hpos, rfl⟩ := seek_eq hseek
        obtain ⟨off, hoff⟩ := Int.eq_ofNat_of_zero_le hpos
        obtain ⟨blob, mid, hraw, h⟩ := exists_of_bind_eq h
        obtain ⟨hblob, rfl⟩ := raw_eq hraw
        by_cases hlen : blob.length = K * N / 4 + 4
        · rw [if_neg (not_not_intro hlen)] at h
          obtain ⟨scale, mid, hscale, h⟩ := exists_of_bind_eq h
          obtain ⟨rfl, -⟩ := Outcome.ok.inj h
          have hoff' : (d + (t.offset : Int)).toNat = off := by rw [hoff]; rfl
          rw [hoff'] at hblob
          refine ⟨t, K, N, dims, d, off, rfl, htype, hdims, rfl, hoff, ?_, ?_⟩
          · rw [hblob, slice, List.length_take, List.length_drop] at hlen
            omega
          · have hname : t.name = want := by simpa using List.find?_some hfind
            rw [unpack_eq hscale, hblob, slice_slice, hoff, hname, htype]
            rfl
        · rw [if_pos hlen] at h
          exact absurd h (by simp [Exec.throw])
    · rw [if_pos htype] at h
      exact absurd h (by simp [Exec.throw])

/-- An extraction where the blob is. -/
theorem extract_of_find {ts : List TensorEntry} {want : String} {t : TensorEntry} {K N off : Nat} {dims : List Nat} {d : Int}
    (hfind : ts.find? (fun t => t.name = want) = some t) (htype : t.ttype = 36) (hdims : t.dims = K :: N :: dims)
    (hoff : d + t.offset = off) (hlong : off + (K * N / 4 + 4) ≤ fl.bytes.length) (pos : Nat) :
    ∃ pos', extract fl ts (.int d) want pos = .ok (cut fl want K N off : Extracted F) pos' := by
  have hsize := fl.size_lt
  have hname : t.name = want := by simpa using List.find?_some hfind
  have hseek : seek (d + t.offset) pos = .ok () off := by
    rw [hoff]
    exact seek_of_lt (by omega) pos
  have hraw := raw_of_lt fl (n := K * N / 4 + 4) (by omega) off
  have hlen := length_slice hlong
  have hscale : (slice (slice fl.bytes off (K * N / 4 + 4)) (K * N / 4) 4).length = 4 :=
    length_slice (Nat.le_of_eq hlen.symm)
  unfold extract
  rw [hfind]
  simp only
  rw [if_neg (not_not_intro htype), hdims]
  simp only
  rw [bind_of_eq hseek, bind_of_eq hraw, if_neg (not_not_intro hlen), unpack, if_pos hscale]
  refine ⟨_, congrArg (fun x => Outcome.ok x _) ?_⟩
  rw [slice_slice, hoff, hname, htype]
  rfl

/-- A file on which the script succeeds. -/
theorem places_of_main {want : String} {pos : Nat} {x : Extracted F} (h : main fl want 0 = .ok x pos) :
    ∃ (bs : List UInt8) (K N off : Nat), bs <+: fl.bytes ∧ Places F bs want K N off ∧
      off + (K * N / 4 + 4) ≤ fl.bytes.length ∧ x = cut fl want K N off := by
  obtain ⟨⟨kv, ts⟩, mid, hread, hrest⟩ := exists_of_bind_eq h
  obtain ⟨start, mid', hstart, hextract⟩ := exists_of_bind_eq hrest
  obtain rfl := dataStart_pos hstart
  obtain ⟨t, K, N, dims, d, off, hfind, htype, hdims, rfl, hoff, hlong, rfl⟩ := extract_ok hextract
  have hne : ts ≠ [] := by
    rintro rfl
    exact absurd hfind (by simp)
  rcases parses_header 0 _ _ hread with ⟨-, hnil⟩ | ⟨bs, hbs, hmid, es, hwritten, rfl⟩
  · exact absurd hnil hne
  · rw [Nat.zero_add] at hmid
    subst hmid
    exact ⟨bs, K, N, off, hbs, ⟨es, ts, d, t, dims, hwritten, hstart, hfind, htype, hdims, hoff⟩, hlong, rfl⟩

/-- The header at the start of a file is read. -/
theorem readHeader_of_written {bs : List UInt8} {es : List (String × PyValue F)} {ts : List TensorEntry}
    (h : SaysHeader bs es ts) (hbs : bs <+: fl.bytes) :
    readHeader fl 0 = .ok ((dict es, ts) : Kv F × List TensorEntry) bs.length := by
  have hreads : Reads fl.bytes (readHeader fl) bs ((dict es, ts) : Kv F × List TensorEntry) := reads_of_written h
  have hrun := hreads 0 hbs
  rwa [Nat.zero_add] at hrun

/-- A file on which it must succeed. -/
theorem main_of_places {bs : List UInt8} {want : String} {K N off : Nat} (h : Places F bs want K N off) (hbs : bs <+: fl.bytes)
    (hlong : off + (K * N / 4 + 4) ≤ fl.bytes.length) :
    ∃ pos, main fl want 0 = .ok (cut fl want K N off : Extracted F) pos := by
  obtain ⟨es, ts, d, t, dims, hwritten, hstart, hfind, htype, hdims, hoff⟩ := h
  obtain ⟨pos, hextract⟩ := extract_of_find (F := F) hfind htype hdims hoff hlong bs.length
  refine ⟨pos, ?_⟩
  unfold main
  rw [bind_of_eq (readHeader_of_written hwritten hbs)]
  simp only
  rw [bind_of_eq hstart, hextract]

/-- The script succeeds on exactly the files that start with a header of the grammar and reach to the end of the blob that the
header places, and it returns that blob. -/
theorem main_accepts_iff {F : Type} [PyFloat F] (fl : File) (want : String) (x : Extracted F) :
    (∃ pos, main fl want 0 = .ok x pos) ↔ ∃ (bs : List UInt8) (K N off : Nat), bs <+: fl.bytes ∧ Places F bs want K N off ∧
      off + (K * N / 4 + 4) ≤ fl.bytes.length ∧ x = cut fl want K N off := by
  constructor
  · rintro ⟨pos, hmain⟩
    exact places_of_main hmain
  · rintro ⟨bs, K, N, off, hbs, hplaces, hlong, rfl⟩
    exact main_of_places hplaces hbs hlong

/-! ## Files that are cut off -/

/-- A file starts with at most one header. -/
theorem Places.unique {bs bs' : List UInt8} {want : String} {K N off K' N' off' : Nat} (h : Places F bs want K N off)
    (h' : Places F bs' want K' N' off') (hbs : bs <+: fl.bytes) (hbs' : bs' <+: fl.bytes) :
    bs'.length = bs.length ∧ K' = K ∧ N' = N ∧ off' = off := by
  obtain ⟨es, ts, d, t, dims, hwritten, hstart, hfind, -, hdims, hoff⟩ := h
  obtain ⟨es', ts', d', t', dims', hwritten', hstart', hfind', -, hdims', hoff'⟩ := h'
  obtain ⟨heq, hlen⟩ := Outcome.ok.inj ((readHeader_of_written hwritten' hbs').symm.trans (readHeader_of_written hwritten hbs))
  obtain ⟨hdict, rfl⟩ := Prod.mk.inj heq
  rw [hdict, hlen, hstart] at hstart'
  obtain rfl := DataStart.int.inj (Outcome.ok.inj hstart').1
  obtain rfl := Option.some.inj (hfind.symm.trans hfind')
  rw [hdims] at hdims'
  obtain ⟨rfl, hrest⟩ := List.cons.inj hdims'
  obtain ⟨rfl, -⟩ := List.cons.inj hrest
  exact ⟨hlen, rfl, rfl, by omega⟩

/-- What is cut out depends on the file up to the end of the blob. -/
theorem cut_congr {fl' : File} {want : String} {K N off need : Nat} (hle : off + (K * N / 4 + 4) ≤ need)
    (h : fl'.bytes.take need = fl.bytes.take need) : (cut fl' want K N off : Extracted F) = cut fl want K N off := by
  have hslice : ∀ i w, i + w ≤ need → slice fl'.bytes i w = slice fl.bytes i w := fun i w hw => by
    have hcut := congrArg (fun bs => slice bs i w) h
    simpa only [slice, List.drop_take, List.take_take, Nat.min_eq_left (show w ≤ need - i by omega)] using hcut
  rw [cut, cut, hslice _ _ (by omega), hslice _ _ hle]

/-- A header of the format places its I2_S matrices. -/
theorem Header.places {h : Header} {a : Nat} (ha : h.AlignedTo a) (hlen : h.bytes.length < 2 ^ 64) {want : String}
    {t : TensorInfo} {K N : UInt64} (hfind : h.tensors.find? (fun t => t.name = want) = some t) (htype : t.type = 36)
    (hdims : t.dims = [K, N]) :
    ∃ start, h.DataAt a start ∧ Places F h.bytes want K.toNat N.toNat (start + t.offset.toNat) := by
  obtain ⟨start, hstart, hat⟩ := dataStart_alignedTo (F := F) ha
  have hdict : (h.kv : Kv F) = dict (h.kvs.map fun e => ((e.1, e.2.decoded) : String × PyValue F)) := by
    rw [Header.kv, dict, List.foldl_map]
  rw [hdict] at hstart
  refine ⟨start, hat, _, _, _, t.entry, [], h.written hlen, hstart, ?_, congrArg UInt32.toNat htype,
    congrArg (List.map UInt64.toNat) hdims, rfl⟩
  rw [List.find?_map]
  exact congrArg (Option.map TensorInfo.entry) hfind

/-- Of a file on which the script succeeds, a first part decides: every file with that part gives the same result, whatever
follows, and every file that is cut off within it is refused. -/
theorem truncated_refused {F : Type} [PyFloat F] (fl : File) (want : String) (x : Extracted F) (pos : Nat)
    (hmain : main fl want 0 = .ok x pos) :
    ∃ need ≤ fl.bytes.length, x.fileOffset + x.blob.length ≤ need ∧ ∀ fl' : File,
      (need ≤ fl'.bytes.length → fl'.bytes.take need = fl.bytes.take need → ∃ pos', main fl' want 0 = .ok x pos') ∧
      (fl'.bytes.length < need → fl'.bytes <+: fl.bytes → ∀ (x' : Extracted F) pos', main fl' want 0 ≠ .ok x' pos') := by
  obtain ⟨bs, K, N, off, hbs, hplaces, hlong, rfl⟩ := places_of_main hmain
  refine ⟨max bs.length (off + (K * N / 4 + 4)), max_le hbs.length_le hlong, ?_, fun fl' => ⟨fun hneed heq => ?_, ?_⟩⟩
  · have hblob : (cut fl want K N off : Extracted F).blob.length = K * N / 4 + 4 := length_slice hlong
    rw [hblob, show (cut fl want K N off : Extracted F).fileOffset = off from rfl]
    exact_mod_cast le_max_right ..
  · have hbs' : bs <+: fl'.bytes := by
      rw [List.prefix_iff_eq_take] at hbs ⊢
      have hcut := congrArg (List.take bs.length) heq
      rw [List.take_take, List.take_take, Nat.min_eq_left (le_max_left ..)] at hcut
      rw [hcut]
      exact hbs
    rw [← cut_congr (le_max_right ..) heq]
    exact main_of_places hplaces hbs' (le_trans (le_max_right ..) hneed)
  · intro hshort hpre x' pos' hmain'
    obtain ⟨bs', K', N', off', hbs', hplaces', hlong', -⟩ := places_of_main hmain'
    obtain ⟨hlen, rfl, rfl, rfl⟩ := hplaces.unique hplaces' hbs (hbs'.trans hpre)
    have hle := hbs'.length_le
    exact absurd (max_le (hlen ▸ hle) hlong') (Nat.not_le_of_lt hshort)

/-- A header with an alignment of 64 and one I2_S tensor of four weights. -/
def oneTensor : Header where
  version := 3
  kvs := [("general.alignment", .scalar .uint32 64)]
  tensors := [⟨"w", [4, 1], by decide, 36, 0⟩]

theorem length_oneTensor : oneTensor.bytes.length = 98 := rfl

/-- The header and 64 more bytes, 30 of them before the data. -/
def oneTensorFile : File where
  bytes := oneTensor.bytes ++ List.replicate 64 0x55
  size_lt := by
    rw [List.length_append, length_oneTensor, List.length_replicate]
    decide

/-- The file of one tensor ends 29 bytes behind its blob. Cut off within the blob it is refused. -/
theorem truncated_refused_one_tensor :
    ∃ (x : Extracted Rat) (pos : Nat), main oneTensorFile "w" 0 = .ok x pos ∧
      ∀ fl' : File, fl'.bytes = oneTensorFile.bytes.take 132 → ∀ (x' : Extracted Rat) pos', main fl' "w" 0 ≠ .ok x' pos' := by
  have halign : oneTensor.AlignedTo 64 := ⟨by decide, rfl⟩
  have hshort : oneTensor.bytes.length < 2 ^ 64 := by
    rw [length_oneTensor]
    decide
  have hfind : oneTensor.tensors.find? (fun t => t.name = "w") = some ⟨"w", [4, 1], by decide, 36, 0⟩ := rfl
  obtain ⟨start, hat, hplaces⟩ := Header.places (F := Rat) halign hshort hfind rfl rfl
  have h128 : oneTensor.DataAt 64 128 := by
    refine ⟨⟨⟨2, rfl⟩, by decide⟩, ?_⟩
    rintro m ⟨⟨q, rfl⟩, hle⟩
    rw [length_oneTensor] at hle
    omega
  obtain rfl : start = 128 := hat.unique h128
  have hlength : oneTensorFile.bytes.length = 162 := by
    rw [oneTensorFile, List.length_append, length_oneTensor, List.length_replicate]
  have hlong : 128 + (4 * 1 / 4 + 4) ≤ oneTensorFile.bytes.length := by
    rw [hlength]
    decide
  obtain ⟨pos, hmain⟩ := main_of_places hplaces (List.prefix_append ..) hlong
  refine ⟨_, pos, hmain, fun fl' hfl' => ?_⟩
  obtain ⟨need, hneed, hblob, hcut⟩ := truncated_refused oneTensorFile "w" _ pos hmain
  have hend : ((128 : Nat) : Int) + ((4 * 1 / 4 + 4 : Nat) : Int) ≤ need := by
    have hlen : (cut oneTensorFile "w" 4 1 128 : Extracted Rat).blob.length = 4 * 1 / 4 + 4 := length_slice hlong
    rw [← hlen]
    exact hblob
  refine (hcut fl').2 ?_ (hfl' ▸ List.take_prefix ..)
  rw [hfl', List.length_take, hlength]
  omega

end Gguf

end BitnetXdna
