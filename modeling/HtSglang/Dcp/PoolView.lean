import HtSglang.Library.Scatter
import HtSglang.Dcp.ReshardPlan

/-!
# Byte-level access to the KV pool

The movers of the KV cache never look at a tensor's type: they see the pool as
rows of bytes, the K bytes of a row first and its V bytes after them
(`KvPoolView` in `managers/kv_reshard.py`). This file has that view, the gather
and the scatter it offers – both walk their rows in blocks, to bound the transient
they hold – and the checksum that travels with a payload
(`model_executor/weights_arena.py`).

A view carries the widths of its rows as fields
(`HtSglang.Dcp.KvPoolView`), so a scatter that would change a width cannot be
performed; that is what its shape check is for. What the rest of the development
uses are three facts: a gather is the plain gather
(`HtSglang.Dcp.KvPoolView.readRows_eq`), an accepted scatter is the plain scatter
of the packed rows and touches one layer only
(`HtSglang.Dcp.KvPoolView.writeRows_of_map`), and a checksum does not depend on the
chunks it is summed in (`HtSglang.Dcp.uint8Checksum_eq`).
-/

namespace HtSglang

namespace Dcp

/-! ### The view -/

/-- The row format of a pool: how many layers it has, and how many K and V bytes a
row of a layer has. -/
structure RowFormat where
  numLayers : ℕ
  /-- The K bytes of a row of a layer. -/
  kBytes : ℕ → ℕ
  /-- The V bytes of a row of a layer. -/
  vBytes : ℕ → ℕ

/-- `row_nbytes`. -/
def RowFormat.rowNbytes (g : RowFormat) (layer : ℕ) : ℕ := g.kBytes layer + g.vBytes layer

/-- `total_row_nbytes`. -/
def RowFormat.totalRowNbytes (g : RowFormat) : ℕ :=
  ((List.range g.numLayers).map g.rowNbytes).sum

/-- **The byte-level view of a pool** of row format `g`. A row always has the width
of its format. -/
structure KvPoolView (g : RowFormat) where
  /-- The number of physically backed rows. -/
  numRows : ℕ
  /-- The K bytes of a row of a layer. -/
  k : ℕ → ℤ → List UInt8
  /-- The V bytes of a row of a layer. -/
  v : ℕ → ℤ → List UInt8
  length_k : ∀ layer row, (k layer row).length = g.kBytes layer
  length_v : ∀ layer row, (v layer row).length = g.vBytes layer

namespace KvPoolView

variable {g : RowFormat}

/-- The packed wire format of a row: K bytes, then V bytes. -/
def row (p : KvPoolView g) (layer : ℕ) (r : ℤ) : List UInt8 := p.k layer r ++ p.v layer r

@[simp] theorem length_row (p : KvPoolView g) (layer : ℕ) (r : ℤ) :
    (p.row layer r).length = g.rowNbytes layer := by
  simp [row, p.length_k, p.length_v, RowFormat.rowNbytes]

/-- `_gather_block_rows`: the environment's block size, at least one row; the
default when the variable is blank or not an integer. -/
def gatherBlockRows : Option ℤ → ℕ
  | none => 16384
  | some n => (max 1 n).toNat

theorem gatherBlockRows_pos (raw : Option ℤ) : 0 < gatherBlockRows raw := by
  cases raw with
  | none => decide
  | some n =>
    simp only [gatherBlockRows]
    omega

/-! ### Gather and scatter, in blocks of rows -/

/-- `read_rows`: the packed rows, gathered block by block, K half and V half. -/
def readRows (p : KvPoolView g) (env : Option ℤ) (layer : ℕ) (rows : List ℤ) :
    List (List UInt8) :=
  (blocks (gatherBlockRows env) rows).flatMap fun sub =>
    List.zipWith (· ++ ·) (sub.map (p.k layer)) (sub.map (p.v layer))

/-- **A blocked gather reads the rows.** -/
theorem readRows_eq (p : KvPoolView g) (env : Option ℤ) (layer : ℕ) (rows : List ℤ) :
    p.readRows env layer rows = rows.map (p.row layer) := by
  have hsub : ∀ sub : List ℤ,
      List.zipWith (· ++ ·) (sub.map (p.k layer)) (sub.map (p.v layer))
        = sub.map (p.row layer) := by
    intro sub
    rw [List.zipWith_map, List.zipWith_self]
    rfl
  simp only [readRows, hsub]
  rw [← List.map_flatMap, List.flatMap_id', flatten_blocks (gatherBlockRows_pos env)]

/-- The K or V half of a layer after a blocked scatter. -/
def scatterHalf (env : Option ℤ) (half : ℤ → List UInt8) (rows : List ℤ)
    (data : List (List UInt8)) : ℤ → List UInt8 :=
  (blocks (gatherBlockRows env) (rows.zip data)).foldl
    (fun m sub => scatter m (sub.map Prod.fst) (sub.map Prod.snd)) half

theorem scatterHalf_eq (env : Option ℤ) (half : ℤ → List UInt8) {rows : List ℤ}
    {data : List (List UInt8)} (h : rows.length = data.length) :
    scatterHalf env half rows data = scatter half rows data := by
  rw [scatterHalf, foldl_scatter_blocks (gatherBlockRows_pos env)]
  congr 1
  · exact List.map_fst_zip h.le
  · exact List.map_snd_zip h.ge

/-- A scatter of values of one width keeps that width. -/
theorem length_scatterHalf {env : Option ℤ} {half : ℤ → List UInt8} {w : ℕ}
    (hhalf : ∀ r, (half r).length = w) {rows : List ℤ} {data : List (List UInt8)}
    (h : rows.length = data.length) (hdata : ∀ d ∈ data, d.length = w) (r : ℤ) :
    (scatterHalf env half rows data r).length = w := by
  rw [scatterHalf_eq env half h]
  exact scatter_forall (fun b : List UInt8 => b.length = w) hhalf hdata rows r

/-- The payload of `write_rows` has one row of the layer's width per row written. -/
def ShapeOk (g : RowFormat) (layer : ℕ) (rows : List ℤ) (data : List (List UInt8)) : Prop :=
  rows.length = data.length ∧ ∀ d ∈ data, d.length = g.rowNbytes layer

instance (g : RowFormat) (layer : ℕ) (rows : List ℤ) (data : List (List UInt8)) :
    Decidable (ShapeOk g layer rows data) := inferInstanceAs (Decidable (_ ∧ _))

/-- `write_rows`: the inverse of `read_rows`, refusing a payload of another shape. -/
def writeRows (p : KvPoolView g) (env : Option ℤ) (layer : ℕ) (rows : List ℤ)
    (data : List (List UInt8)) : Except KvReshardError (KvPoolView g) :=
  if h : ShapeOk g layer rows data then
    .ok
      { p with
        k := fun l => if l = layer then
            scatterHalf env (p.k l) rows (data.map fun d => d.take (g.kBytes layer))
          else p.k l
        v := fun l => if l = layer then
            scatterHalf env (p.v l) rows (data.map fun d => d.drop (g.kBytes layer))
          else p.v l
        length_k := fun l r => by
          split
          · next hl =>
            refine length_scatterHalf (p.length_k l) (by simpa using h.1) ?_ r
            intro b hb
            obtain ⟨d, hd, rfl⟩ := List.mem_map.mp hb
            have := h.2 d hd
            simp only [List.length_take, RowFormat.rowNbytes] at this ⊢
            rw [hl]
            omega
          · exact p.length_k l r
        length_v := fun l r => by
          split
          · next hl =>
            refine length_scatterHalf (p.length_v l) (by simpa using h.1) ?_ r
            intro b hb
            obtain ⟨d, hd, rfl⟩ := List.mem_map.mp hb
            have := h.2 d hd
            simp only [List.length_drop, RowFormat.rowNbytes] at this ⊢
            rw [hl]
            omega
          · exact p.length_v l r }
  else .error (.payloadShape rows.length (g.rowNbytes layer) layer)

/-- **An accepted scatter is the scatter of the packed rows**, on its own layer and
on no other. The batch is indexed by the things it moves, `x` going to row `f x`
with the packed bytes `b x`. -/
theorem writeRows_of_map {β : Type*} (p : KvPoolView g) (env : Option ℤ) (layer : ℕ)
    (l : List β) (f : β → ℤ) (b : β → List UInt8) (hb : ∀ x ∈ l, (b x).length = g.rowNbytes layer) :
    ∃ q, p.writeRows env layer (l.map f) (l.map b) = .ok q ∧ q.numRows = p.numRows ∧
      q.row layer = scatter (p.row layer) (l.map f) (l.map b) ∧
      ∀ layer', layer' ≠ layer → q.row layer' = p.row layer' := by
  have hshape : ShapeOk g layer (l.map f) (l.map b) := by
    refine ⟨by simp, fun d hd => ?_⟩
    obtain ⟨x, hx, rfl⟩ := List.mem_map.mp hd
    exact hb x hx
  refine ⟨_, dif_pos hshape, rfl, ?_, fun layer' hne => ?_⟩
  · funext r
    have hrow : ∀ q : KvPoolView g, q.row layer r = q.k layer r ++ q.v layer r := fun _ => rfl
    rw [hrow]
    simp only [if_true]
    rw [scatterHalf_eq _ _ (by simp), scatterHalf_eq _ _ (by simp), List.map_map, List.map_map]
    exact (scatter_map_combine (· ++ ·) (fun _ => rfl) l f
      (fun x _ => (List.take_append_drop (g.kBytes layer) (b x)).symm) r).symm
  · funext r
    simp only [row, if_neg hne]

end KvPoolView

/-! ### The checksum of a payload -/

/-- Arithmetic on 64-bit signed integers wraps around. -/
def wrapInt64 (x : ℤ) : ℤ := Int.bmod x (2 ^ 64)

/-- `_checksum_chunk_bytes`: what the device can afford, between one and sixteen
MiB; sixteen MiB where it cannot be asked. -/
def checksumChunkBytes : Option ℕ → ℕ
  | none => 16 * 1024 * 1024
  | some affordable => max (1024 * 1024) (min (16 * 1024 * 1024) affordable)

theorem checksumChunkBytes_pos (affordable : Option ℕ) : 0 < checksumChunkBytes affordable := by
  cases affordable with
  | none => decide
  | some a =>
    simp only [checksumChunkBytes]
    omega

/-- The sum of the bytes, unbounded. -/
def byteSum (payload : List UInt8) : ℤ := (payload.map fun b => (b.toNat : ℤ)).sum

/-- `uint8_checksum`: the 64-bit sum of the chunks' 64-bit sums. -/
def uint8Checksum (affordable : Option ℕ) (payload : List UInt8) : ℤ :=
  if payload = [] then 0
  else wrapInt64
    ((blocks (checksumChunkBytes affordable) payload).map fun c => wrapInt64 (byteSum c)).sum

/-- Wrapping each summand first does not show in a wrapped sum. -/
theorem wrapInt64_sum_wrapInt64 (l : List ℤ) :
    wrapInt64 (l.map wrapInt64).sum = wrapInt64 l.sum := by
  induction l with
  | nil => rfl
  | cons a l ih =>
    simp only [List.map_cons, List.sum_cons, wrapInt64] at ih ⊢
    rw [Int.bmod_add_bmod, ← Int.add_bmod_bmod, ih, Int.add_bmod_bmod]

/-- **The checksum does not depend on the chunks it is summed in**: it is the
64-bit sum of the bytes. -/
theorem uint8Checksum_eq (affordable : Option ℕ) (payload : List UInt8) :
    uint8Checksum affordable payload = wrapInt64 (byteSum payload) := by
  rw [uint8Checksum]
  split
  · next h => rw [h]; rfl
  · have hmap : ((blocks (checksumChunkBytes affordable) payload).map
        fun c => wrapInt64 (byteSum c))
        = ((blocks (checksumChunkBytes affordable) payload).map byteSum).map wrapInt64 := by
      rw [List.map_map]
      rfl
    have hsum : ∀ cs : List (List UInt8), (cs.map byteSum).sum = byteSum cs.flatten := by
      intro cs
      induction cs with
      | nil => rfl
      | cons c cs ih => simp only [List.map_cons, List.sum_cons, ih, List.flatten_cons, byteSum,
          List.map_append, List.sum_append]
    rw [hmap, wrapInt64_sum_wrapInt64, hsum, flatten_blocks (checksumChunkBytes_pos affordable)]

/-- The `k` low bytes of a number, least significant first. -/
def leBytes : ℕ → ℕ → List UInt8
  | 0, _ => []
  | k + 1, n => UInt8.ofNat n :: leBytes k (n / 256)

/-- The number a little-endian byte string spells. -/
def ofLeBytes : List UInt8 → ℕ
  | [] => 0
  | b :: bs => b.toNat + 256 * ofLeBytes bs

@[simp] theorem length_leBytes (k n : ℕ) : (leBytes k n).length = k := by
  induction k generalizing n with
  | zero => rfl
  | succ k ih => simp [leBytes, ih]

theorem ofLeBytes_leBytes (k n : ℕ) : ofLeBytes (leBytes k n) = n % 256 ^ k := by
  induction k generalizing n with
  | zero => simp [leBytes, ofLeBytes, Nat.mod_one]
  | succ k ih =>
    rw [leBytes, ofLeBytes, ih, pow_succ', Nat.mod_mul]
    simp

/-- The eight bytes of a 64-bit integer. -/
def int64Bytes (x : ℤ) : List UInt8 := leBytes 8 (x % 2 ^ 64).toNat

/-- The 64-bit integer eight bytes spell. -/
def int64OfBytes (bs : List UInt8) : ℤ := wrapInt64 (ofLeBytes bs)

/-- **A 64-bit integer survives its bytes.** -/
theorem int64OfBytes_int64Bytes (x : ℤ) :
    int64OfBytes (int64Bytes (wrapInt64 x)) = wrapInt64 x := by
  have h0 : 0 ≤ wrapInt64 x % 2 ^ 64 := Int.emod_nonneg _ (by norm_num)
  have h1 : wrapInt64 x % 2 ^ 64 < 2 ^ 64 := Int.emod_lt_of_pos _ (by norm_num)
  have h2 : (wrapInt64 x % 2 ^ 64).toNat % 256 ^ 8 = (wrapInt64 x % 2 ^ 64).toNat :=
    Nat.mod_eq_of_lt (by norm_num; omega)
  rw [int64OfBytes, int64Bytes, ofLeBytes_leBytes, h2, Int.toNat_of_nonneg h0, wrapInt64]
  have h3 := Int.emod_bmod (wrapInt64 x) (2 ^ 64)
  rw [show (((2 ^ 64 : ℕ) : ℤ)) = 2 ^ 64 by norm_num] at h3
  rw [h3, wrapInt64, Int.bmod_bmod]

/-- `_checksum`: the eight-byte trailer of a payload. -/
def checksum (affordable : Option ℕ) (payload : List UInt8) : List UInt8 :=
  int64Bytes (uint8Checksum affordable payload)

@[simp] theorem length_checksum (affordable : Option ℕ) (payload : List UInt8) :
    (checksum affordable payload).length = 8 := by
  simp [checksum, int64Bytes]

/-- **The trailer a sender writes is the checksum its receiver computes**, even
when the two sum in different chunks. -/
theorem int64OfBytes_checksum (affordable affordable' : Option ℕ) (payload : List UInt8) :
    int64OfBytes (checksum affordable payload) = uint8Checksum affordable' payload := by
  rw [checksum, uint8Checksum_eq, uint8Checksum_eq, int64OfBytes_int64Bytes]

end Dcp

end HtSglang
