-- ShiftRows, MixColumns and AddRoundKey of bitslice/primitive.rs, bitslice/gf256.rs and
-- bitslice/bitslice.rs. On every block of a bitslice each one acts as the table backend's
-- operation acts on a `Block`: `_shift_rows` rotates each row inside its row_shift-bit window
-- with masks and shifts, and MixColumns reads the other rows of a column through word
-- rotations by multiples of row_shift.
import CtAes.Bitslice.Layout

namespace ct_aes.bitslice

open util aes gf256

variable (W : Word)

/-! ## Masks and rotations in block coordinates -/

section coordinates

theorem first_row_eq : first_row W = BitVec.ofNat 64 (2 ^ row_shift W - 1) := by
  cases W <;> decide

theorem row_shift_le : row_shift W ≤ 16 := by
  unfold row_shift col_shift
  rcases shape W with ⟨-, h2, -⟩ | ⟨-, h2, -⟩ | ⟨-, h2, -⟩ <;> omega

theorem bits_eq_row_shift : W.bits = 4 * row_shift W := by
  have := num_bytes_eq W
  unfold row_shift col_shift
  unfold num_bytes at this
  omega

/-- `(first_row << (i * row_shift)) as $T`: the bits of row `i` of every block. -/
theorem getLsbD_row_mask {i : Nat} (hi : i < 4) (q : Nat) :
    ((first_row W <<< (i * row_shift W)).setWidth W.bits).getLsbD q =
      decide (i * row_shift W ≤ q ∧ q < i * row_shift W + row_shift W) := by
  have hr := row_shift_le W
  have hw := bits_eq_row_shift W
  have : i * row_shift W + row_shift W ≤ 4 * row_shift W := by
    rw [← Nat.succ_mul]; exact Nat.mul_le_mul_right _ hi
  simp only [BitVec.getLsbD_setWidth, BitVec.getLsbD_shiftLeft, first_row_eq, BitVec.getLsbD_ofNat,
    Nat.testBit_two_pow_sub_one]
  by_cases h1 : i * row_shift W ≤ q <;> by_cases h2 : q < i * row_shift W + row_shift W <;>
    simp [h1, h2] <;> omega

/-- Rotating right by `d` rows moves row `row + d` of every block to row `row`. -/
theorem getLsbD_rotateRight_bitIndex (v : BitVec W.bits) {d : Nat} (hd : d < 4) {b : Nat}
    (hb : b < num_blocks W) (row col : Fin 4) :
    (v.rotateRight (d * row_shift W)).getLsbD (bitIndex W b row col) =
      v.getLsbD (bitIndex W b (row + ⟨d, hd⟩) col) := by
  rw [BitVec.getLsbD_rotateRight]
  unfold bitIndex row_shift col_shift
  rcases shape W with ⟨h1, h2, -⟩ | ⟨h1, h2, -⟩ | ⟨h1, h2, -⟩ <;>
  · simp only [num_bytes] at h1
    simp only [h1, h2, Fin.val_add, Bool.cond_decide] at hb ⊢
    by_cases h : row.val + d < 4
    · rw [if_pos (by omega)]
      congr 1; omega
    · rw [if_neg (by omega), decide_eq_true (by omega), Bool.true_and]
      congr 1; omega

end coordinates

/-! ## ShiftRows -/

section shift_rows

/-- One pass of the loop of `_shift_rows`: row `i` of `word` rotated right by `shift`
columns, ORed into `out`. -/
def shift_row (word out : BitVec W.bits) (si : Nat × Nat) : BitVec W.bits :=
  let row_mask := (first_row W <<< (si.2 * row_shift W)).setWidth W.bits
  let row := word &&& row_mask
  let right := row >>> (si.1 * col_shift W)
  let left := row <<< ((4 - si.1) * col_shift W)
  out ||| ((right ||| left) &&& row_mask)

/-- `Bitslice::_shift_rows`: row 0 of every word is kept, and row `i` is rotated by the
`i`-th of `shifts`. -/
def Bitslice._shift_rows {W : Word} (x : Bitslice W) (shifts : List Nat) : Bitslice W :=
  ⟨fun j => (shifts.zip [1, 2, 3]).foldl (shift_row W (x.words j))
    (x.words j &&& (first_row W).setWidth W.bits)⟩

/-- `ShiftRows::shift_rows`, `_shift_rows(1..4)`. -/
def Bitslice.shift_rows {W : Word} (x : Bitslice W) : Bitslice W := x._shift_rows [1, 2, 3]

/-- `ShiftRows::inv_shift_rows`, `_shift_rows((1..4).rev())`. -/
def Bitslice.inv_shift_rows {W : Word} (x : Bitslice W) : Bitslice W := x._shift_rows [3, 2, 1]

/-- One pass adds row `i` of the block, rotated by `shift` columns, and nothing else. -/
theorem getLsbD_shift_row (word out : BitVec W.bits) {shift i : Nat} (hs : 0 < shift ∧ shift < 4)
    (hi : 0 < i ∧ i < 4) {b : Nat} (hb : b < num_blocks W) (row col : Fin 4) :
    (shift_row W word out (shift, i)).getLsbD (bitIndex W b row col) =
      (out.getLsbD (bitIndex W b row col) ||
        (decide (row.val = i) && word.getLsbD (bitIndex W b row ⟨(col + shift) % 4, Nat.mod_lt _ (by decide)⟩))) := by
  simp only [shift_row, BitVec.getLsbD_or, BitVec.getLsbD_and, BitVec.getLsbD_ushiftRight,
    BitVec.getLsbD_shiftLeft, getLsbD_row_mask W hi.2]
  congr 1
  unfold bitIndex row_shift col_shift
  rcases shape W with ⟨h1, h2, -⟩ | ⟨h1, h2, -⟩ | ⟨h1, h2, -⟩ <;>
  · simp only [num_bytes] at h1
    simp only [h1, h2] at hb ⊢
    by_cases hr : row.val = i
    · by_cases hc : col.val + shift < 4 <;>
        simp (disch := omega) only [decide_eq_true, decide_eq_false, Bool.true_and, Bool.false_and,
          Bool.and_true, Bool.and_false, Bool.or_false, Bool.false_or, Bool.not_true,
          Bool.not_false] <;>
        congr 1 <;> omega
    · simp (disch := omega) only [decide_eq_false, Bool.and_false, Bool.false_and]

theorem getLsbD_first_row_bitIndex (word : BitVec W.bits) {b : Nat} (hb : b < num_blocks W)
    (row col : Fin 4) :
    (word &&& (first_row W).setWidth W.bits).getLsbD (bitIndex W b row col) =
      (decide (row.val = 0) && word.getLsbD (bitIndex W b row col)) := by
  have h := getLsbD_row_mask W (i := 0) (by decide) (bitIndex W b row col)
  simp only [Nat.zero_mul, BitVec.shiftLeft_zero, Nat.zero_add] at h
  rw [BitVec.getLsbD_and, h, Bool.and_comm]
  congr 1
  unfold bitIndex row_shift col_shift
  rcases shape W with ⟨-, h2, -⟩ | ⟨-, h2, -⟩ | ⟨-, h2, -⟩ <;> simp only [h2] at hb ⊢ <;>
    simp only [decide_eq_decide] <;> omega

/-- `_shift_rows [s1, s2, s3]` rotates row `i` of every block by `s_i` columns. -/
theorem getLsbD__shift_rows (x : Bitslice W) {s1 s2 s3 : Nat} (h1 : 0 < s1 ∧ s1 < 4)
    (h2 : 0 < s2 ∧ s2 < 4) (h3 : 0 < s3 ∧ s3 < 4) (j : Fin 8) {b : Nat} (hb : b < num_blocks W)
    (row col : Fin 4) :
    ((x._shift_rows [s1, s2, s3]).words j).getLsbD (bitIndex W b row col) =
      (x.words j).getLsbD
        (bitIndex W b row ⟨(col + ![0, s1, s2, s3] row) % 4, Nat.mod_lt _ (by decide)⟩) := by
  simp only [Bitslice._shift_rows, List.zip, List.zipWith, List.foldl]
  rw [getLsbD_shift_row W _ _ h3 (by decide) hb, getLsbD_shift_row W _ _ h2 (by decide) hb,
    getLsbD_shift_row W _ _ h1 (by decide) hb, getLsbD_first_row_bitIndex W _ hb]
  fin_cases row <;> simp [Nat.mod_eq_of_lt col.isLt]

theorem Bitslice.block_shift_rows (x : Bitslice W) {b : Nat} (hb : b < num_blocks W) :
    x.shift_rows.block b = (x.block b).shift_rows := by
  refine Block.ext_get fun row col => BitVec.eq_of_getLsbD_eq fun j => ?_
  rw [Block.get_shift_rows]
  simp only [Bitslice.block, Block.get_ofFn, getLsbD_get]
  rw [Bitslice.shift_rows, getLsbD__shift_rows W x (by decide) (by decide) (by decide) j hb]
  congr 2
  fin_cases row <;> fin_cases col <;> rfl

theorem Bitslice.block_inv_shift_rows (x : Bitslice W) {b : Nat} (hb : b < num_blocks W) :
    x.inv_shift_rows.block b = (x.block b).inv_shift_rows := by
  refine Block.ext_get fun row col => BitVec.eq_of_getLsbD_eq fun j => ?_
  rw [Block.get_inv_shift_rows]
  simp only [Bitslice.block, Block.get_ofFn, getLsbD_get]
  rw [Bitslice.inv_shift_rows, getLsbD__shift_rows W x (by decide) (by decide) (by decide) j hb]
  congr 2
  fin_cases row <;> fin_cases col <;> rfl

end shift_rows

/-- `ShiftRows` of the bitslice is the table backend's `ShiftRows` on every packed block, and
so is its inverse. -/
theorem shift_rows_from_bytes (s : Fin (num_bytes W) → BitVec 8) :
    (Bitslice.from_bytes W s).shift_rows = Bitslice.from_bytes W (blockwise W Block.shift_rows s) ∧
      (Bitslice.from_bytes W s).inv_shift_rows =
        Bitslice.from_bytes W (blockwise W Block.inv_shift_rows s) :=
  ⟨from_bytes_blockwise W (fun x _ hb => x.block_shift_rows W hb) s,
    from_bytes_blockwise W (fun x _ hb => x.block_inv_shift_rows W hb) s⟩

/-! ## MixColumns -/

section mix_columns

/-- Entry `k` of the symbolic multiplication table, `k • b` as eight bit sets. -/
def table (k : Nat) : Multiple := (multiplication_table (k + 1)).getD k default

/-- `gfmul!(i; k * b)`: the XOR of the planes of `b` that the symbolic multiplication table
lists for constant `k` and output bit `i`. Modelled from the spec: the macro is generated at
build time from `multiplication_table`. -/
def gfmul (k : Nat) (i : Fin 8) (b : Fin 8 → BitVec W.bits) : BitVec W.bits :=
  xorOver 0 (fun j => if h : j < 8 then b ⟨j, h⟩ else 0) ((table k).coefficients i).bits

/-- `gf_polyval4!(a*b[0] ^ b*b[1] ^ c*b[2] ^ d*b[3])`: output plane `i` reads the rows below
through rotations by multiples of `row_shift`. -/
def gf_polyval4 (a b c d : Nat) (x : Fin 8 → BitVec W.bits) : Fin 8 → BitVec W.bits := fun i =>
  gfmul W a i x ^^^ (gfmul W b i x).rotateRight (1 * row_shift W)
    ^^^ (gfmul W c i x).rotateRight (2 * row_shift W) ^^^ (gfmul W d i x).rotateRight (3 * row_shift W)

/-- `MixColumns::mix_columns`. -/
def Bitslice.mix_columns {W : Word} (x : Bitslice W) : Bitslice W := ⟨gf_polyval4 W 2 3 1 1 x.words⟩

/-- `MixColumns::inv_mix_columns`. -/
def Bitslice.inv_mix_columns {W : Word} (x : Bitslice W) : Bitslice W :=
  ⟨gf_polyval4 W 14 11 13 9 x.words⟩

/-- Bit `p` of `gfmul` is the table entry applied to the byte at `p`. -/
theorem getLsbD_gfmul (k : Nat) (i : Fin 8) (x : Bitslice W) (p : Nat) :
    (gfmul W k i x.words).getLsbD p = ((table k).apply (x.get p)).getLsbD i := by
  rw [gfmul, getLsbD_xorOver, Multiple.apply, getLsbD_ofBits, dif_pos i.isLt, decide_eq_true i.isLt,
    Bool.true_and]
  apply xorOver_congr
  intro j _
  by_cases hj : j < 8
  · rw [dif_pos hj, ← getLsbD_get W x p ⟨j, hj⟩]
  · rw [dif_neg hj, BitVec.getLsbD_ge (x.get p) j (by omega)]
    simp

/-- Byte (row, col) of `gf_polyval4` on block `b`: the four table entries applied to the
bytes of the column from row `row` down. -/
theorem get_gf_polyval4 (a b c d : Nat) (x : Bitslice W) {blk : Nat} (hb : blk < num_blocks W)
    (row col : Fin 4) :
    (Bitslice.mk (gf_polyval4 W a b c d x.words)).get (bitIndex W blk row col) =
      (table a).apply ((x.block blk).get row col) ^^^ (table b).apply ((x.block blk).get (row + 1) col)
        ^^^ (table c).apply ((x.block blk).get (row + 2) col)
        ^^^ (table d).apply ((x.block blk).get (row + 3) col) := by
  refine BitVec.eq_of_getLsbD_eq fun i => ?_
  simp only [getLsbD_get, gf_polyval4, BitVec.getLsbD_xor,
    getLsbD_rotateRight_bitIndex W _ (by decide : 1 < 4) hb,
    getLsbD_rotateRight_bitIndex W _ (by decide : 2 < 4) hb,
    getLsbD_rotateRight_bitIndex W _ (by decide : 3 < 4) hb, getLsbD_gfmul, Bitslice.block,
    Block.get_ofFn]
  rfl

/-- The table entries of the `MixColumns` constants are multiplication in GF(2⁸): both sides
are additive, so the eight one-bit bytes settle it. -/
theorem table_apply {k : Nat} (hk : k ∈ [1, 2, 3, 9, 11, 13, 14]) (v : BitVec 8) :
    (table k).apply v = (Element.mk (BitVec.ofNat 8 k) * Element.mk v).val := by
  have h := additive_ext (Multiple.apply_additive (table k)) (mul_additive (BitVec.ofNat 8 k))
    (by simp only [List.mem_cons, List.mem_singleton, List.not_mem_nil, or_false] at hk
        rcases hk with rfl | rfl | rfl | rfl | rfl | rfl | rfl <;> decide)
  rw [congrFun h v, mul_val]

theorem Bitslice.block_mix_columns (x : Bitslice W) {b : Nat} (hb : b < num_blocks W) :
    x.mix_columns.block b = (x.block b).mix_columns := by
  refine Block.ext_get fun row col => ?_
  rw [Block.get_mix_columns, Bitslice.block, Block.get_ofFn, Bitslice.mix_columns,
    get_gf_polyval4 W _ _ _ _ x hb, table_apply (by decide), table_apply (by decide),
    table_apply (by decide), table_apply (by decide)]
  simp only [mixRow, add_val]
  rfl

theorem Bitslice.block_inv_mix_columns (x : Bitslice W) {b : Nat} (hb : b < num_blocks W) :
    x.inv_mix_columns.block b = (x.block b).inv_mix_columns := by
  refine Block.ext_get fun row col => ?_
  rw [Block.get_inv_mix_columns, Bitslice.block, Block.get_ofFn, Bitslice.inv_mix_columns,
    get_gf_polyval4 W _ _ _ _ x hb, table_apply (by decide), table_apply (by decide),
    table_apply (by decide), table_apply (by decide)]
  simp only [mixRow, add_val]
  rfl

/-- `MixColumns` of the bitslice is the table backend's `MixColumns` on every packed block, and
so is its inverse. -/
theorem mix_columns_from_bytes (s : Fin (num_bytes W) → BitVec 8) :
    (Bitslice.from_bytes W s).mix_columns = Bitslice.from_bytes W (blockwise W Block.mix_columns s) ∧
      (Bitslice.from_bytes W s).inv_mix_columns =
        Bitslice.from_bytes W (blockwise W Block.inv_mix_columns s) :=
  ⟨from_bytes_blockwise W (fun x _ hb => x.block_mix_columns W hb) s,
    from_bytes_blockwise W (fun x _ hb => x.block_inv_mix_columns W hb) s⟩

end mix_columns

end ct_aes.bitslice
