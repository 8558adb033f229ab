import BitnetXdna.Lib.Exec
import BitnetXdna.Lib.Tiling

/-!
# Bounded buffers

A `Buffer α` is a block of `size` cells. Every access is checked: `load`, `store`, `fill` (memset) and `copy` (memcpy) are
`none` out of bounds. `write` is what the checked writes do when they are in bounds: the segment of `n` cells at `off` gets
the values of a function. Loops of writes over contiguous segments are one `write` (`forRange_write`), and loops of writes
over the rows of a matrix inside the buffer are one `writeRows` (`forRange_writeRow`).
-/

/-- A block of `size` cells. Cells at or past `size` do not belong to it: no checked access reads or writes them. -/
structure Buffer (α : Type) where
  size : Nat
  cell : Nat → α

namespace Buffer

variable {α β : Type}

/-- A buffer of `n` equal cells. -/
def replicate (n : Nat) (v : α) : Buffer α := ⟨n, fun _ => v⟩

/-- Read a cell. -/
def load (b : Buffer α) (i : Nat) : Option α := if i < b.size then some (b.cell i) else none

/-- Set the segment of `n` cells at `off` to the values `v 0, ..., v (n - 1)`. Unchecked. -/
def write (b : Buffer α) (off n : Nat) (v : Nat → α) : Buffer α :=
  ⟨b.size, fun i => if off ≤ i ∧ i < off + n then v (i - off) else b.cell i⟩

/-- Write a cell. -/
def store (b : Buffer α) (i : Nat) (v : α) : Option (Buffer α) :=
  if i < b.size then some (b.write i 1 fun _ => v) else none

/-- Set `n` cells from `off` on to one value. -/
def fill (b : Buffer α) (off n : Nat) (v : α) : Option (Buffer α) :=
  if off + n ≤ b.size then some (b.write off n fun _ => v) else none

/-- Copy `n` cells of `src` from `soff` on to `off`. -/
def copy (b : Buffer α) (off : Nat) (src : Buffer α) (soff n : Nat) : Option (Buffer α) :=
  if off + n ≤ b.size ∧ soff + n ≤ src.size then some (b.write off n fun j => src.cell (soff + j)) else none

/-- Cell (r, k) of a matrix with rows of `K` cells. -/
def entry (b : Buffer α) (K r k : Nat) : α := b.cell (r * K + k)

/-- Grow or shrink to `n` cells: the cells there were keep their values, the new ones are `v`. -/
def resize (b : Buffer α) (n : Nat) (v : α) : Buffer α := ⟨n, fun i => if i < b.size then b.cell i else v⟩

/-- The cells, one after the other. -/
def toList (b : Buffer α) : List α := (List.range b.size).map b.cell

/-- A buffer of the elements of a list. -/
def ofList (xs : List α) (v : α) : Buffer α := ⟨xs.length, fun i => xs[i]?.getD v⟩

/-- The first cells are the elements of a list. -/
structure StartsWith (b : Buffer α) (xs : List α) : Prop where
  size : xs.length ≤ b.size
  cells : ∀ i < xs.length, xs[i]? = some (b.cell i)

@[simp] theorem size_replicate (n : Nat) (v : α) : (replicate n v).size = n := rfl

@[simp] theorem cell_replicate (n : Nat) (v : α) (i : Nat) : (replicate n v).cell i = v := rfl

@[simp] theorem size_write (b : Buffer α) (off n : Nat) (v : Nat → α) : (b.write off n v).size = b.size := rfl

theorem cell_write (b : Buffer α) (off n : Nat) (v : Nat → α) (i : Nat) :
    (b.write off n v).cell i = if off ≤ i ∧ i < off + n then v (i - off) else b.cell i := rfl

/-- A cell of the segment written. -/
theorem cell_write_add (b : Buffer α) {off n j : Nat} (v : Nat → α) (h : j < n) :
    (b.write off n v).cell (off + j) = v j := by
  rw [cell_write, if_pos (by omega), Nat.add_sub_cancel_left]

/-- A cell outside the segment written. -/
theorem cell_write_of_not (b : Buffer α) {off n i : Nat} (v : Nat → α) (h : i < off ∨ off + n ≤ i) :
    (b.write off n v).cell i = b.cell i := by
  rw [cell_write, if_neg (by omega)]

@[simp] theorem size_resize (b : Buffer α) (n : Nat) (v : α) : (b.resize n v).size = n := rfl

@[simp] theorem length_toList (b : Buffer α) : b.toList.length = b.size := by
  rw [toList, List.length_map, List.length_range]

theorem getElem?_toList {b : Buffer α} {i : Nat} (h : i < b.size) : b.toList[i]? = some (b.cell i) := by
  rw [toList, List.getElem?_map, List.getElem?_range h]
  rfl

@[simp] theorem size_ofList (xs : List α) (v : α) : (ofList xs v).size = xs.length := rfl

theorem startsWith_ofList (xs : List α) (v : α) : (ofList xs v).StartsWith xs := by
  refine ⟨Nat.le_refl _, fun i hi => ?_⟩
  simp only [ofList, List.getElem?_eq_getElem hi, Option.getD_some]

/-- A buffer that starts with the cells of another one. -/
theorem StartsWith.cell_eq {b c : Buffer α} {xs : List α} (h : b.StartsWith (c.toList ++ xs)) {i : Nat} (hi : i < c.size) :
    b.cell i = c.cell i := by
  have hlen : i < c.toList.length := by rwa [length_toList]
  have hcell := h.cells i (by rw [List.length_append]; omega)
  rw [List.getElem?_append_left hlen, getElem?_toList hi] at hcell
  exact (Option.some.inj hcell).symm

/-- What follows them. -/
theorem StartsWith.drop {b c : Buffer α} {xs : List α} (h : b.StartsWith (c.toList ++ xs)) :
    (List.range xs.length).map (fun j => b.cell (c.size + j)) = xs := by
  refine List.ext_getElem? fun j => ?_
  rw [List.getElem?_map]
  by_cases hj : j < xs.length
  · have hcell := h.cells (c.size + j) (by rw [List.length_append, length_toList]; omega)
    rw [List.getElem?_append_right (by rw [length_toList]; exact Nat.le_add_right ..), length_toList,
      Nat.add_sub_cancel_left] at hcell
    rw [List.getElem?_range hj, hcell]
    rfl
  · have hle : xs.length ≤ j := Nat.le_of_not_lt hj
    rw [List.getElem?_eq_none (by rwa [List.length_range]), List.getElem?_eq_none hle]
    rfl

theorem load_eq {b : Buffer α} {i : Nat} (h : i < b.size) : b.load i = some (b.cell i) := if_pos h

theorem store_eq {b : Buffer α} {i : Nat} (v : α) (h : i < b.size) : b.store i v = some (b.write i 1 fun _ => v) :=
  if_pos h

theorem fill_eq {b : Buffer α} {off n : Nat} (v : α) (h : off + n ≤ b.size) :
    b.fill off n v = some (b.write off n fun _ => v) :=
  if_pos h

theorem copy_eq {b src : Buffer α} {off soff n : Nat} (h : off + n ≤ b.size) (h' : soff + n ≤ src.size) :
    b.copy off src soff n = some (b.write off n fun j => src.cell (soff + j)) :=
  if_pos ⟨h, h'⟩

/-- A checked write keeps the size. -/
theorem size_fill {b b' : Buffer α} {off n : Nat} {v : α} (h : b.fill off n v = some b') : b'.size = b.size := by
  rw [fill] at h
  split at h
  · exact Option.some.inj h ▸ rfl
  · exact absurd h (by simp)

theorem size_copy {b b' src : Buffer α} {off soff n : Nat} (h : b.copy off src soff n = some b') : b'.size = b.size := by
  rw [copy] at h
  split at h
  · exact Option.some.inj h ▸ rfl
  · exact absurd h (by simp)

/-- Two buffers of one size with the same cells are equal. -/
theorem ext_cell {b b' : Buffer α} (hs : b.size = b'.size) (hc : ∀ i, b.cell i = b'.cell i) : b = b' := by
  cases b
  cases b'
  simp only at hs hc
  subst hs
  rw [funext hc]

@[simp] theorem write_zero (b : Buffer α) (off : Nat) (v : Nat → α) : b.write off 0 v = b := by
  refine ext_cell rfl ?_
  intro i
  rw [cell_write, if_neg (by omega)]

/-- Only the values below the length matter. -/
theorem write_congr (b : Buffer α) {off n : Nat} {v v' : Nat → α} (h : ∀ j < n, v j = v' j) :
    b.write off n v = b.write off n v' := by
  refine ext_cell rfl ?_
  intro i
  rw [cell_write, cell_write]
  split
  · exact h _ (by omega)
  · rfl

/-- Two adjacent segments are one. -/
theorem write_append (b : Buffer α) (off n m : Nat) (v w : Nat → α) :
    (b.write off n v).write (off + n) m w = b.write off (n + m) fun j => if j < n then v j else w (j - n) := by
  refine ext_cell rfl ?_
  intro i
  simp only [cell_write]
  by_cases h1 : off + n ≤ i ∧ i < off + n + m
  · rw [if_pos h1, if_pos (by omega), if_neg (by omega)]
    congr 1
    omega
  · by_cases h2 : off ≤ i ∧ i < off + n
    · rw [if_neg h1, if_pos h2, if_pos (by omega), if_pos (by omega)]
    · rw [if_neg h1, if_neg h2, if_neg (by omega)]

/-- One cell more. -/
theorem write_succ (b : Buffer α) (off n : Nat) (v : Nat → α) :
    (b.write off n v).write (off + n) 1 (fun _ => v n) = b.write off (n + 1) v := by
  rw [write_append]
  refine write_congr b ?_
  intro j hj
  split
  · rfl
  · rw [show j = n by omega]

/-! ## Loops of writes -/

/-- An earlier row ends before a later one starts. -/
theorem row_before {r r' : Nat} (h : r < r') (n stride : Nat) : r * stride + stride + n ≤ r' * stride + n := by
  have := Nat.mul_le_mul_right stride h
  rw [Nat.succ_mul] at this
  omega

/-- A loop that writes the segments `0, 1, ..., n - 1` of `len` cells each, one after the other, is one write. -/
theorem forRange_write (len : Nat) {n off : Nat} {b : Buffer α} {body : Nat → Buffer α → Option (Buffer α)}
    (v : Nat → α)
    (h : ∀ i < n, ∀ b' : Buffer α, b'.size = b.size →
      body i b' = some (b'.write (off + i * len) len fun j => v (i * len + j))) :
    forRange n b body = some (b.write off (n * len) v) := by
  have key := forRange_eq_some body (fun i => b.write off (i * len) v) (n := n) ?_
  · simpa using key
  · intro i hi
    rw [h i hi (b.write off (i * len) v) rfl, write_append, Nat.succ_mul]
    congr 1
    refine write_congr b ?_
    intro j hj
    split
    · rfl
    · congr 1
      omega

/-- A loop that writes the cells `0, 1, ..., n - 1` one by one is one write. -/
theorem forRange_store {n off : Nat} {b : Buffer α} {body : Nat → Buffer α → Option (Buffer α)} (v : Nat → α)
    (h : ∀ i < n, ∀ b' : Buffer α, b'.size = b.size → body i b' = some (b'.write (off + i) 1 fun _ => v i)) :
    forRange n b body = some (b.write off n v) := by
  have key : forRange n b body = some (b.write off (n * 1) v) := forRange_write 1 v ?_
  · simpa using key
  · intro i hi b' hb'
    rw [h i hi b' hb', Nat.mul_one]
    exact congrArg some (write_congr b' fun j hj => by rw [Nat.lt_one_iff.mp hj]; rfl)

/-- A loop that updates the cells `0, 1, ..., n - 1` in place, each from its own old value. -/
theorem forRange_update {n off : Nat} {b : Buffer α} {body : Nat → Buffer α → Option (Buffer α)} (u : Nat → α → α)
    (h : ∀ i < n, ∀ b' : Buffer α, b'.size = b.size →
      body i b' = some (b'.write (off + i) 1 fun _ => u i (b'.cell (off + i)))) :
    forRange n b body = some (b.write off n fun i => u i (b.cell (off + i))) := by
  have key := forRange_eq_some body (fun i => b.write off i fun i => u i (b.cell (off + i))) (n := n) ?_
  · simpa using key
  · intro i hi
    rw [h i hi (b.write off i _) rfl, cell_write_of_not _ _ (Or.inr (Nat.le_refl _)), write_append]
    refine congrArg some (write_congr b fun j hj => ?_)
    split
    · rfl
    · rw [show i = j by omega]

/-- Set the rows `0, ..., rows - 1` of a matrix inside the buffer, row `r` being the `len` cells at `off + r * stride`, to
the values of `v`. Unchecked. -/
def writeRows (b : Buffer α) (off stride rows len : Nat) (v : Nat → Nat → α) : Buffer α :=
  match rows with
  | 0 => b
  | rows + 1 => (b.writeRows off stride rows len v).write (off + rows * stride) len (v rows)

@[simp] theorem size_writeRows (b : Buffer α) (off stride rows len : Nat) (v : Nat → Nat → α) :
    (b.writeRows off stride rows len v).size = b.size := by
  induction rows with
  | zero => rfl
  | succ rows ih => exact ih

/-- A cell of a row written. The rows do not overlap. -/
theorem cell_writeRows (b : Buffer α) (off : Nat) {s rows len r j : Nat} {v : Nat → Nat → α} (hs : len ≤ s)
    (hr : r < rows) (hj : j < len) : (b.writeRows off s rows len v).cell (off + r * s + j) = v r j := by
  induction rows with
  | zero => omega
  | succ rows ih =>
    rw [writeRows]
    by_cases hrr : r = rows
    · subst hrr
      exact cell_write_add _ _ hj
    · have hlt : r + 1 ≤ rows := by omega
      have hmul : (r + 1) * s ≤ rows * s := Nat.mul_le_mul_right s hlt
      rw [Nat.succ_mul] at hmul
      rw [cell_write_of_not _ _ (Or.inl (by omega))]
      exact ih (by omega)

/-- A cell outside every row written. -/
theorem cell_writeRows_of_not {b : Buffer α} {off stride rows len i : Nat} {v : Nat → Nat → α}
    (h : ∀ r < rows, i < off + r * stride ∨ off + r * stride + len ≤ i) :
    (b.writeRows off stride rows len v).cell i = b.cell i := by
  induction rows with
  | zero => rfl
  | succ rows ih =>
    rw [writeRows, cell_write_of_not _ _ (h rows (by omega))]
    exact ih fun r hr => h r (by omega)

/-- The buffer as a matrix of rows of `stride` cells: writing the block of rows `r0, ..., r0 + rows - 1` and columns
`c0, ..., c0 + len - 1` changes exactly the cells of that block. -/
theorem cell_writeRows_block (b : Buffer α) (v : Nat → Nat → α) (r0 c0 rows : Nat) {stride len t n : Nat}
    (hc : c0 + len ≤ stride) (hn : n < stride) :
    (b.writeRows (r0 * stride + c0) stride rows len v).cell (t * stride + n) =
      if r0 ≤ t ∧ t < r0 + rows ∧ c0 ≤ n ∧ n < c0 + len then v (t - r0) (n - c0) else b.cell (t * stride + n) := by
  by_cases h : r0 ≤ t ∧ t < r0 + rows ∧ c0 ≤ n ∧ n < c0 + len
  · have hpos : t * stride + n = r0 * stride + c0 + (t - r0) * stride + (n - c0) := by
      have hsub : (t - r0) * stride + r0 * stride = t * stride := by rw [← Nat.add_mul, Nat.sub_add_cancel h.1]
      omega
    rw [if_pos h, hpos, cell_writeRows _ _ (by omega) (by omega) (by omega)]
  · rw [if_neg h]
    refine cell_writeRows_of_not ?_
    intro r hr
    rw [Nat.add_right_comm, ← Nat.add_mul]
    rcases Nat.lt_trichotomy t (r0 + r) with ht | rfl | ht
    · have := row_before ht n stride
      omega
    · omega
    · have := row_before ht 0 stride
      omega

/-- A loop that writes one row per iteration. -/
theorem forRange_writeRow {rows len off stride : Nat} {b : Buffer α} {body : Nat → Buffer α → Option (Buffer α)}
    (v : Nat → Nat → α)
    (h : ∀ r < rows, ∀ b' : Buffer α, b'.size = b.size → body r b' = some (b'.write (off + r * stride) len (v r))) :
    forRange rows b body = some (b.writeRows off stride rows len v) := by
  refine forRange_eq_some body (fun r => b.writeRows off stride r len v) ?_
  intro r hr
  rw [h r hr _ (size_writeRows ..)]
  rfl

/-- A loop that updates one row per iteration in place, each cell from its own old value. -/
theorem forRange_updateRow {rows len off stride : Nat} {b : Buffer α} {body : Nat → Buffer α → Option (Buffer α)}
    (u : Nat → Nat → α → α) (hs : len ≤ stride)
    (h : ∀ r < rows, ∀ b' : Buffer α, b'.size = b.size →
      body r b' = some (b'.write (off + r * stride) len fun j => u r j (b'.cell (off + r * stride + j)))) :
    forRange rows b body =
      some (b.writeRows off stride rows len fun r j => u r j (b.cell (off + r * stride + j))) := by
  refine forRange_eq_some body
    (fun r => b.writeRows off stride r len fun r j => u r j (b.cell (off + r * stride + j))) fun r hr => ?_
  rw [h r hr _ (size_writeRows ..), writeRows]
  refine congrArg some (write_congr _ fun j hj => ?_)
  -- row `r` has not been touched by the iterations before it
  rw [cell_writeRows_of_not]
  intro r' hr'
  have := row_before hr' 0 stride
  omega

/-! ## Tile-major matrices -/

/-- Write a matrix of `m * n` tiles of `l` cells each, tile after tile: tile (z, i) gets the values of `w z i`. Unchecked. -/
def writeTiles (b : Buffer α) (m n l : Nat) (w : Nat → Nat → Nat → α) : Buffer α :=
  b.write 0 (m * n * l) fun x => w (x / l / n) (x / l % n) (x % l)

@[simp] theorem size_writeTiles (b : Buffer α) (m n l : Nat) (w : Nat → Nat → Nat → α) :
    (b.writeTiles m n l w).size = b.size := rfl

/-- Position `x` of tile (z, i). -/
theorem tile_position {n l z i x : Nat} (hi : i < n) (hx : x < l) :
    ((z * n + i) * l + x) / l / n = z ∧ ((z * n + i) * l + x) / l % n = i ∧ ((z * n + i) * l + x) % l = x := by
  rw [row_add_div hx, row_add_mod hx]
  exact ⟨row_add_div hi, row_add_mod hi, rfl⟩

/-- A cell of a tile. -/
theorem cell_writeTiles (b : Buffer α) (w : Nat → Nat → Nat → α) {m n l z i x : Nat} (hz : z < m) (hi : i < n) (hx : x < l) :
    (b.writeTiles m n l w).cell ((z * n + i) * l + x) = w z i x := by
  have hlt : (z * n + i) * l + x < m * n * l := row_add_lt (row_add_lt hz hi) hx
  obtain ⟨h1, h2, h3⟩ := tile_position (z := z) hi hx
  rw [writeTiles, cell_write, if_pos (by omega), Nat.sub_zero, h1, h2, h3]

/-- Writing the same tiles again changes nothing. -/
theorem writeTiles_writeTiles (b : Buffer α) (m n l : Nat) (w : Nat → Nat → Nat → α) :
    (b.writeTiles m n l w).writeTiles m n l w = b.writeTiles m n l w := by
  refine ext_cell rfl ?_
  intro i
  simp only [writeTiles, cell_write]
  split <;> rfl

/-- Two nested loops that write one tile per iteration. -/
theorem forRange_writeTiles {m n l : Nat} {b : Buffer α} {body : Nat → Nat → Buffer α → Option (Buffer α)}
    (w : Nat → Nat → Nat → α)
    (h : ∀ z < m, ∀ i < n, ∀ b' : Buffer α, b'.size = b.size →
      body z i b' = some (b'.write ((z * n + i) * l) l (w z i))) :
    forRange m b (fun z b => forRange n b (body z)) = some (b.writeTiles m n l w) := by
  have key : forRange m b (fun z b => forRange n b (body z)) =
      some (b.write 0 (m * (n * l)) fun x => w (x / l / n) (x / l % n) (x % l)) := by
    refine forRange_write (n * l) _ ?_
    intro z hz b' hb'
    refine forRange_write l _ ?_
    intro i hi b'' hb''
    rw [h z hz i hi b'' (hb''.trans hb'), Nat.add_mul, Nat.mul_assoc, Nat.zero_add]
    refine congrArg some (write_congr b'' fun x hx => ?_)
    obtain ⟨h1, h2, h3⟩ := tile_position (z := z) hi hx
    rw [Nat.add_mul, Nat.mul_assoc] at h1 h2 h3
    rw [← Nat.add_assoc, h1, h2, h3]
  rw [key, writeTiles, Nat.mul_assoc]

end Buffer
