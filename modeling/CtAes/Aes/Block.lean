-- The AES block of aes/block.rs and the reference primitives of aes/simple.rs: sixteen bytes
-- in column-major order, `SubBytes` by table, `ShiftRows` as eight swaps and its inverse as
-- the same swaps reversed, `MixColumns` over GF(2⁸), and `AddRoundKey` as XOR; and the
-- transpose between row-major and column-major order.
import CtAes.Gf256
import CtAes.Util
import CtAes.Aes.Tables
import CtAes.Aes.Ops

namespace ct_aes.aes

open gf256 util

/-- The number of bytes in an AES block. -/
def BLOCK_LEN : Nat := 16

/-- A byte array with the same length as an AES block. Bytes are stored in column-major
order. -/
@[ext] structure Block where
  bytes : Fin 16 → BitVec 8

instance : DecidableEq Block := fun a b =>
  decidable_of_iff (a.bytes = b.bytes) Block.ext_iff.symm

/-- `Block::default()`. -/
instance : Inhabited Block := ⟨⟨fun _ => 0⟩⟩

/-- `idx(row, col)`: the position of a byte. -/
def idx (row col : Fin 4) : Fin 16 := ⟨row + 4 * col, by omega⟩

/-- `block[(row, col)]`. -/
def Block.get (b : Block) (row col : Fin 4) : BitVec 8 := b.bytes (idx row col)

/-- The block whose byte at `(row, col)` is `f row col`, as the loops of `mix_columns` fill
`tmp`. -/
def Block.ofFn (f : Fin 4 → Fin 4 → BitVec 8) : Block :=
  ⟨fun i => f ⟨i % 4, by omega⟩ ⟨i / 4, by omega⟩⟩

@[simp] theorem Block.get_ofFn (f : Fin 4 → Fin 4 → BitVec 8) (row col : Fin 4) :
    (Block.ofFn f).get row col = f row col := by
  have := row.isLt
  have := col.isLt
  simp only [Block.get, Block.ofFn, idx]
  congr 1 <;> apply Fin.ext <;> simp; omega

theorem Block.ext_get {a b : Block} (h : ∀ row col, a.get row col = b.get row col) : a = b := by
  ext i : 2
  have := h ⟨i % 4, by omega⟩ ⟨i / 4, by omega⟩
  simp only [Block.get, idx] at this
  rwa [show (⟨i % 4 + 4 * (i / 4), _⟩ : Fin 16) = i from Fin.ext (by simp; omega)] at this

/-- `TryFrom<&[u8]>`: a slice of exactly `BLOCK_LEN` bytes. -/
def Block.try_from (s : List (BitVec 8)) : Option Block :=
  if h : s.length = BLOCK_LEN then some ⟨fun i => s.get ⟨i, h ▸ i.isLt⟩⟩ else none

/-- `From<Block> for [u8; 16]`, as a byte slice. -/
def Block.toList (b : Block) : List (BitVec 8) := List.ofFn b.bytes

/-! ## The primitives -/

/-- `SubBytes`: every byte through `SBOX`. -/
def Block.sub_bytes (b : Block) : Block := ⟨fun i => sbox (b.bytes i)⟩

def Block.inv_sub_bytes (b : Block) : Block := ⟨fun i => inv_sbox (b.bytes i)⟩

/-- `self.0.swap(i, j)`. -/
def Block.swap (i j : Fin 16) (b : Block) : Block := ⟨b.bytes ∘ Equiv.swap i j⟩

/-- The swaps of `shift_rows`: rows 1, 2 and 3. -/
def shift_rows_swaps : List (Fin 16 × Fin 16) :=
  [(1, 5), (5, 9), (9, 13),
   (2, 10), (6, 14),
   (11, 15), (7, 11), (3, 7)]

def shift_rows_steps : List (Block → Block) := shift_rows_swaps.map fun (i, j) => Block.swap i j

/-- `ShiftRows`, by `define_function_of_involutions_with_inverse!`. -/
def Block.shift_rows (b : Block) : Block := run shift_rows_steps b

def Block.inv_shift_rows (b : Block) : Block := run_inverse shift_rows_steps b

/-- `MixColumns`: `c[i] = 2•b[i] ⊕ 3•b[i+1] ⊕ b[i+2] ⊕ b[i+3]` in each column. The row of
`elem` is taken mod 4, which `Fin 4` addition does. -/
def Block.mix_columns (b : Block) : Block :=
  let elem := fun (r c : Fin 4) => Element.mk (b.get r c)
  Block.ofFn fun row col =>
    (Element.mk 2 * elem row col + Element.mk 3 * elem (row + 1) col
      + Element.mk 1 * elem (row + 2) col + Element.mk 1 * elem (row + 3) col).val

/-- `InvMixColumns`: `c[i] = 14•b[i] ⊕ 11•b[i+1] ⊕ 13•b[i+2] ⊕ 9•b[i+3]`. -/
def Block.inv_mix_columns (b : Block) : Block :=
  let elem := fun (r c : Fin 4) => Element.mk (b.get r c)
  Block.ofFn fun row col =>
    (Element.mk 14 * elem row col + Element.mk 11 * elem (row + 1) col
      + Element.mk 13 * elem (row + 2) col + Element.mk 9 * elem (row + 3) col).val

/-- `AddRoundKey`: the round key of a block is a block, XORed byte by byte. -/
def Block.add_round_key (b rk : Block) : Block := ⟨fun i => b.bytes i ^^^ rk.bytes i⟩

/-- The primitives of the reference `Block`. -/
def Block.primitives : Primitives Block Block where
  sub_bytes := Block.sub_bytes
  inv_sub_bytes := Block.inv_sub_bytes
  shift_rows := Block.shift_rows
  inv_shift_rows := Block.inv_shift_rows
  mix_columns := Block.mix_columns
  inv_mix_columns := Block.inv_mix_columns
  add_round_key := Block.add_round_key

/-- The block read back from the list of its bytes: the same block (`Block.norm_eq`). `decide`
evaluates each byte of it once, where primitives chained through `Block.get` evaluate a byte of
the block before once for every byte that reads it. -/
def Block.norm (b : Block) : Block := let l := List.ofFn b.bytes; ⟨fun i => l.getD i 0⟩

theorem Block.norm_eq (b : Block) : b.norm = b := by
  ext i : 2
  show (List.ofFn b.bytes).getD i 0 = b.bytes i
  rw [List.getD_eq_getElem _ _ (by simp), List.getElem_ofFn]

/-- The reference primitives with every result read back by `Block.norm`, to evaluate the
cipher on fixed bytes. -/
def Block.primitives_norm : Primitives Block Block where
  sub_bytes b := b.sub_bytes.norm
  inv_sub_bytes b := b.inv_sub_bytes.norm
  shift_rows b := b.shift_rows.norm
  inv_shift_rows b := b.inv_shift_rows.norm
  mix_columns b := b.mix_columns.norm
  inv_mix_columns b := b.inv_mix_columns.norm
  add_round_key b rk := (b.add_round_key rk).norm

theorem Block.primitives_norm_eq : Block.primitives_norm = Block.primitives := by
  simp only [Block.primitives_norm, Block.norm_eq]
  rfl

/-! ## What each primitive does to one byte -/

@[simp] theorem Block.get_sub_bytes (b : Block) (row col : Fin 4) :
    b.sub_bytes.get row col = sbox (b.get row col) := rfl

@[simp] theorem Block.get_inv_sub_bytes (b : Block) (row col : Fin 4) :
    b.inv_sub_bytes.get row col = inv_sbox (b.get row col) := rfl

@[simp] theorem Block.get_add_round_key (b rk : Block) (row col : Fin 4) :
    (b.add_round_key rk).get row col = b.get row col ^^^ rk.get row col := rfl

/-- The position that a sequence of swaps reads each byte from. -/
def swapsPerm (ps : List (Fin 16 × Fin 16)) : Fin 16 → Fin 16 :=
  ps.foldr (fun (i, j) σ => Equiv.swap i j ∘ σ) id

theorem run_swaps_bytes (ps : List (Fin 16 × Fin 16)) (b : Block) :
    (run (ps.map fun (i, j) => Block.swap i j) b).bytes = b.bytes ∘ swapsPerm ps := by
  induction ps generalizing b with
  | nil => rfl
  | cons p ps ih =>
    rw [List.map_cons, run_cons, ih]
    rfl

theorem swaps_involutive (ps : List (Fin 16 × Fin 16)) :
    Involutive (ps.map fun (i, j) => Block.swap i j) := by
  simp only [Involutive, List.mem_map]
  rintro f ⟨⟨i, j⟩, -, rfl⟩ b
  ext k : 2
  simp [Block.swap]

/-- Row `r` is rotated left by `r`. -/
theorem Block.get_shift_rows (b : Block) (row col : Fin 4) :
    b.shift_rows.get row col = b.get row (col + row) := by
  have h : ∀ row col : Fin 4, swapsPerm shift_rows_swaps (idx row col) = idx row (col + row) := by
    decide
  simp only [Block.get, Block.shift_rows, shift_rows_steps, run_swaps_bytes, Function.comp_apply, h]

/-- Row `r` is rotated right by `r`. -/
theorem Block.get_inv_shift_rows (b : Block) (row col : Fin 4) :
    b.inv_shift_rows.get row col = b.get row (col - row) := by
  have h : ∀ row col : Fin 4,
      swapsPerm shift_rows_swaps.reverse (idx row col) = idx row (col - row) := by
    decide
  simp only [Block.get, Block.inv_shift_rows, run_inverse, shift_rows_steps, ← List.map_reverse,
    run_swaps_bytes, Function.comp_apply, h]

theorem Block.inv_shift_rows_shift_rows (b : Block) : b.shift_rows.inv_shift_rows = b :=
  run_inverse_run (swaps_involutive _) b

theorem Block.shift_rows_inv_shift_rows (b : Block) : b.inv_shift_rows.shift_rows = b :=
  run_run_inverse (swaps_involutive _) b

theorem Block.add_round_key_twice (b rk : Block) : (b.add_round_key rk).add_round_key rk = b := by
  ext i : 2
  simp [Block.add_round_key, BitVec.xor_assoc]

/-! ## MixColumns and its inverse -/

/-- One byte of a `MixColumns` output: `k0•a0 ⊕ k1•a1 ⊕ k2•a2 ⊕ k3•a3`. -/
def mixRow (k0 k1 k2 k3 a0 a1 a2 a3 : BitVec 8) : BitVec 8 :=
  (Element.mk k0 * Element.mk a0 + Element.mk k1 * Element.mk a1
    + Element.mk k2 * Element.mk a2 + Element.mk k3 * Element.mk a3).val

theorem Block.get_mix_columns (b : Block) (row col : Fin 4) :
    b.mix_columns.get row col =
      mixRow 2 3 1 1 (b.get row col) (b.get (row + 1) col) (b.get (row + 2) col)
        (b.get (row + 3) col) := by
  simp [Block.mix_columns, mixRow]

theorem Block.get_inv_mix_columns (b : Block) (row col : Fin 4) :
    b.inv_mix_columns.get row col =
      mixRow 14 11 13 9 (b.get row col) (b.get (row + 1) col) (b.get (row + 2) col)
        (b.get (row + 3) col) := by
  simp [Block.inv_mix_columns, mixRow]

theorem mixRow_xor (k0 k1 k2 k3 a0 a1 a2 a3 b0 b1 b2 b3 : BitVec 8) :
    mixRow k0 k1 k2 k3 (a0 ^^^ b0) (a1 ^^^ b1) (a2 ^^^ b2) (a3 ^^^ b3) =
      mixRow k0 k1 k2 k3 a0 a1 a2 a3 ^^^ mixRow k0 k1 k2 k3 b0 b1 b2 b3 := by
  simp only [mixRow, add_val, mul_val, mul_loop_xor]
  ac_rfl

/-- A column through the rows `(k0, k1, k2, k3)`, then through the rows `(l0, l1, l2, l3)`:
byte 0 of the result. -/
def mixTwice (k l : Fin 4 → BitVec 8) (x0 x1 x2 x3 : BitVec 8) : BitVec 8 :=
  mixRow (l 0) (l 1) (l 2) (l 3)
    (mixRow (k 0) (k 1) (k 2) (k 3) x0 x1 x2 x3) (mixRow (k 0) (k 1) (k 2) (k 3) x1 x2 x3 x0)
    (mixRow (k 0) (k 1) (k 2) (k 3) x2 x3 x0 x1) (mixRow (k 0) (k 1) (k 2) (k 3) x3 x0 x1 x2)

theorem mixTwice_xor (k l : Fin 4 → BitVec 8) (a0 a1 a2 a3 b0 b1 b2 b3 : BitVec 8) :
    mixTwice k l (a0 ^^^ b0) (a1 ^^^ b1) (a2 ^^^ b2) (a3 ^^^ b3) =
      mixTwice k l a0 a1 a2 a3 ^^^ mixTwice k l b0 b1 b2 b3 := by
  simp only [mixTwice, mixRow_xor]

/-- A joint additive map of a column is the XOR of its values on the four bytes alone. -/
theorem mixTwice_split (k l : Fin 4 → BitVec 8) (x0 x1 x2 x3 : BitVec 8) :
    mixTwice k l x0 x1 x2 x3 =
      mixTwice k l x0 0 0 0 ^^^ mixTwice k l 0 x1 0 0 ^^^ mixTwice k l 0 0 x2 0 ^^^
        mixTwice k l 0 0 0 x3 := by
  rw [← mixTwice_xor, ← mixTwice_xor, ← mixTwice_xor]
  simp

/-- `(14, 11, 13, 9)` after `(2, 3, 1, 1)`, and the other way round, is the identity: on one
byte at a time it is additive, so the eight one-bit bytes settle it. -/
theorem mixTwice_inverse (k l : Fin 4 → BitVec 8)
    (hkl : (k = ![2, 3, 1, 1] ∧ l = ![14, 11, 13, 9]) ∨ (k = ![14, 11, 13, 9] ∧ l = ![2, 3, 1, 1]))
    (x0 x1 x2 x3 : BitVec 8) : mixTwice k l x0 x1 x2 x3 = x0 := by
  have add0 : Additive fun x => mixTwice k l x 0 0 0 := fun a b => by
    simpa using mixTwice_xor k l a 0 0 0 b 0 0 0
  have add1 : Additive fun x => mixTwice k l 0 x 0 0 := fun a b => by
    simpa using mixTwice_xor k l 0 a 0 0 0 b 0 0
  have add2 : Additive fun x => mixTwice k l 0 0 x 0 := fun a b => by
    simpa using mixTwice_xor k l 0 0 a 0 0 0 b 0
  have add3 : Additive fun x => mixTwice k l 0 0 0 x := fun a b => by
    simpa using mixTwice_xor k l 0 0 0 a 0 0 0 b
  have addId : Additive fun x : BitVec 8 => x := fun _ _ => rfl
  have addZero : Additive fun _ : BitVec 8 => (0 : BitVec 8) := fun _ _ => by simp
  have e0 := additive_ext add0 addId (by rcases hkl with ⟨rfl, rfl⟩ | ⟨rfl, rfl⟩ <;> decide)
  have e1 := additive_ext add1 addZero (by rcases hkl with ⟨rfl, rfl⟩ | ⟨rfl, rfl⟩ <;> decide)
  have e2 := additive_ext add2 addZero (by rcases hkl with ⟨rfl, rfl⟩ | ⟨rfl, rfl⟩ <;> decide)
  have e3 := additive_ext add3 addZero (by rcases hkl with ⟨rfl, rfl⟩ | ⟨rfl, rfl⟩ <;> decide)
  rw [mixTwice_split, congrFun e0 x0, congrFun e1 x1, congrFun e2 x2, congrFun e3 x3]
  simp

theorem Block.inv_mix_columns_mix_columns (b : Block) : b.mix_columns.inv_mix_columns = b := by
  refine Block.ext_get fun row col => ?_
  have h := mixTwice_inverse ![2, 3, 1, 1] ![14, 11, 13, 9] (.inl ⟨rfl, rfl⟩) (b.get row col)
    (b.get (row + 1) col) (b.get (row + 2) col) (b.get (row + 3) col)
  simp only [Block.get_inv_mix_columns, Block.get_mix_columns]
  fin_cases row <;> exact h

theorem Block.mix_columns_inv_mix_columns (b : Block) : b.inv_mix_columns.mix_columns = b := by
  refine Block.ext_get fun row col => ?_
  have h := mixTwice_inverse ![14, 11, 13, 9] ![2, 3, 1, 1] (.inr ⟨rfl, rfl⟩) (b.get row col)
    (b.get (row + 1) col) (b.get (row + 2) col) (b.get (row + 3) col)
  simp only [Block.get_inv_mix_columns, Block.get_mix_columns]
  fin_cases row <;> exact h

/-- The reference primitives undo one another once the two S-box tables do. That the tables
do is proved through the circuits of bitslice/sbox.rs, which compute them (`inv_sbox_sbox`). -/
theorem Block.primitives_inverses_of_sbox (h : ∀ v, inv_sbox (sbox v) = v)
    (h' : ∀ v, sbox (inv_sbox v) = v) : Block.primitives.Inverses where
  inv_sub_bytes b := Block.ext (funext fun i => h (b.bytes i))
  sub_bytes_inv b := Block.ext (funext fun i => h' (b.bytes i))
  inv_shift_rows := Block.inv_shift_rows_shift_rows
  shift_rows_inv := Block.shift_rows_inv_shift_rows
  inv_mix_columns := Block.inv_mix_columns_mix_columns
  mix_columns_inv := Block.mix_columns_inv_mix_columns
  add_round_key_twice := Block.add_round_key_twice

/-! ## Transposition -/

/-- `Block::transpose`: for each row, the bytes at `(row, col)` and `(col, row)` swapped, for
the columns from `row + 1` to 3. -/
def Block.transpose (b : Block) : Block :=
  (List.finRange 4).foldl (fun b row =>
    ((List.finRange 4).filter (row < ·)).foldl (fun b col => b.swap (idx row col) (idx col row)) b) b

/-- `Block::from_row_major`: the array as a block, then transposed. -/
def Block.from_row_major (bytes : Fin 16 → BitVec 8) : Block := Block.transpose ⟨bytes⟩

/-- The six swaps of `transpose`, in the order of its loops. -/
def transpose_swaps : List (Fin 16 × Fin 16) :=
  [(idx 0 1, idx 1 0), (idx 0 2, idx 2 0), (idx 0 3, idx 3 0),
   (idx 1 2, idx 2 1), (idx 1 3, idx 3 1),
   (idx 2 3, idx 3 2)]

theorem Block.transpose_eq_run (b : Block) :
    b.transpose = run (transpose_swaps.map fun (i, j) => Block.swap i j) b := rfl

/-- The byte at `(row, col)` moves to `(col, row)`. -/
theorem Block.get_transpose (b : Block) (row col : Fin 4) : b.transpose.get row col = b.get col row := by
  have h : ∀ row col : Fin 4, swapsPerm transpose_swaps (idx row col) = idx col row := by decide
  simp only [Block.get, Block.transpose_eq_run, run_swaps_bytes, Function.comp_apply, h]

theorem Block.transpose_transpose (b : Block) : b.transpose.transpose = b :=
  Block.ext_get fun row col => by rw [b.transpose.get_transpose, b.get_transpose]

/-- `from_row_major` reads the array row by row: `(row, col)` holds byte `idx(col, row)`,
that is `4 * row + col`. -/
theorem Block.get_from_row_major (bytes : Fin 16 → BitVec 8) (row col : Fin 4) :
    (Block.from_row_major bytes).get row col = bytes (idx col row) := by
  rw [Block.from_row_major, Block.get_transpose]
  rfl

end ct_aes.aes
