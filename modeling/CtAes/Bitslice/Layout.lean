-- The packing of bitslice/primitive.rs and bitslice/bitslice.rs. `From<[u8; N]>` loads the
-- bytes as little-endian words and transposes them with `to_bitslice_order`, and
-- `From<Bitslice>` undoes both; with `from_le_bytes`, and `to_le` before the `transmute`, the
-- packing is the same on targets of either byte order. Byte (row, col) of block b lands at bit
-- row * row_shift + col * col_shift + b of the eight planes, so a bitslice is a vector of
-- AES blocks, one per lane, and two bitslices with the same blocks are equal.
import Mathlib.Tactic.IntervalCases
import CtAes.Bitslice.SwapMove
import CtAes.Aes.Block

namespace ct_aes.bitslice

open util aes

/-- `Bitslice<W>`: word `i` holds bit `i` of every byte. -/
@[ext] structure Bitslice (W : Word) where
  words : Fin 8 → BitVec W.bits

instance (W : Word) : DecidableEq (Bitslice W) := fun a b =>
  decidable_of_iff (a.words = b.words) Bitslice.ext_iff.symm

/-! ## Constants -/

section constants

variable (W : Word)

/-- `Bitslice::num_bytes`, `8 * size_of::<W>()`. -/
def num_bytes : Nat := W.bits

def num_blocks : Nat := num_bytes W / BLOCK_LEN

/-- The distance between two adjacent columns of one block. -/
def col_shift : Nat := num_blocks W

/-- The distance between two adjacent rows of one block. -/
def row_shift : Nat := 4 * col_shift W

/-- The bits of the first byte of every block. -/
def first_byte : BitVec 64 := (1 <<< num_blocks W) - 1

/-- The bits of the first row of every block. -/
def first_row : BitVec 64 := (1 <<< row_shift W) - 1

/-- The bits of the first column of every block. -/
def first_col : BitVec 64 := bitmask (first_byte W) (row_shift W)

def nth_col_mask (n : Nat) : BitVec 64 := first_col W <<< (n * col_shift W)

/-- `WORD_LEN`, `size_of::<W>()`. -/
def WORD_LEN : Nat := W.bits / 8

/-- The three shapes of a bitslice. -/
theorem shape : (num_bytes W = 16 ∧ num_blocks W = 1 ∧ WORD_LEN W = 2) ∨
    (num_bytes W = 32 ∧ num_blocks W = 2 ∧ WORD_LEN W = 4) ∨
    (num_bytes W = 64 ∧ num_blocks W = 4 ∧ WORD_LEN W = 8) := by
  cases W <;> decide

theorem num_bytes_eq :
    num_bytes W = 16 * num_blocks W ∧ num_bytes W = 8 * WORD_LEN W ∧ 0 < num_blocks W := by
  rcases shape W with ⟨h1, h2, h3⟩ | ⟨h1, h2, h3⟩ | ⟨h1, h2, h3⟩ <;> omega

/-- Byte `k` of word `i` is byte `i * WORD_LEN + k` of the array. -/
theorem chunk_lt {i k : Nat} (hi : i < 8) (hk : k < WORD_LEN W) : i * WORD_LEN W + k < num_bytes W := by
  have h : (i + 1) * WORD_LEN W ≤ 8 * WORD_LEN W := Nat.mul_le_mul_right _ hi
  have := num_bytes_eq W
  rw [Nat.succ_mul] at h
  omega

end constants

/-! ## Packing -/

section packing

variable (W : Word)

/-- `$T::from_le_bytes`: bit `8 * k + j` of the word is bit `j` of byte `k`. -/
def from_le_bytes (bytes : Nat → BitVec 8) : BitVec W.bits :=
  ofBits W.bits fun p => (bytes (p / 8)).getLsbD (p % 8)

/-- `$T::to_le`: the bytes of the word in the other order on a big-endian target; nothing on a
little-endian one. -/
def word_to_le (e : Endian) (word : BitVec W.bits) : BitVec W.bits :=
  match e with
  | .little => word
  | .big => ofBits W.bits fun p => word.getLsbD (8 * (WORD_LEN W - 1 - p / 8) + p % 8)

/-- The `transmute` of a word to bytes: byte `k` in memory, in the target's order. -/
def word_ne_bytes (e : Endian) (word : BitVec W.bits) (k : Nat) : BitVec 8 :=
  match e with
  | .little => word.extractLsb' (8 * k) 8
  | .big => word.extractLsb' (8 * (WORD_LEN W - 1 - k)) 8

/-- `$T::to_le` followed by the `transmute`: byte `k` of a word, little-endian on either byte
order (`word_ne_bytes_to_le`). -/
def to_le_bytes (word : BitVec W.bits) (k : Nat) : BitVec 8 := word.extractLsb' (8 * k) 8

/-- Byte `n` of an array of `num_bytes` bytes, and `0` past its end. -/
def byteAt (s : Fin (num_bytes W) → BitVec 8) (n : Nat) : BitVec 8 :=
  if h : n < num_bytes W then s ⟨n, h⟩ else 0

theorem word_index_lt (n : Fin (num_bytes W)) : n / WORD_LEN W < 8 :=
  Nat.div_lt_of_lt_mul (by rw [Nat.mul_comm, ← (num_bytes_eq W).2.1]; exact n.isLt)

/-- `From<[u8; N]> for Bitslice<W>` (`Bitslice::from_bytes`): the little-endian words of the
`chunks_exact(WORD_LEN)`, then `to_bitslice_order`. -/
def Bitslice.from_bytes (s : Fin (num_bytes W) → BitVec 8) : Bitslice W :=
  ⟨to_bitslice_order W fun i => from_le_bytes W fun k => byteAt W s (i * WORD_LEN W + k)⟩

/-- `From<Bitslice<W>> for [u8; N]` (`Bitslice::into_bytes`): `to_byte_order`, then the bytes
of each word in turn. -/
def Bitslice.into_bytes {W : Word} (x : Bitslice W) (n : Fin (num_bytes W)) : BitVec 8 :=
  to_le_bytes W (to_byte_order W x.words ⟨n / WORD_LEN W, word_index_lt W n⟩) (n % WORD_LEN W)

/-- `Bitslice::get(n)`: the byte whose bit `i` is bit `n` of word `i`. -/
def Bitslice.get {W : Word} (x : Bitslice W) (n : Nat) : BitVec 8 :=
  ofBits 8 fun i => if h : i < 8 then (x.words ⟨i, h⟩).getLsbD n else false

/-- `Bitslice::bit_to_byte_index`: the byte held at bit `n` of the planes. -/
def bit_to_byte_index (n : Nat) : Nat :=
  let block := n % num_blocks W
  let byte := n / num_blocks W
  let col := byte % 4
  let row := byte / 4
  16 * block + 4 * col + row

@[simp] theorem getLsbD_get (x : Bitslice W) (n : Nat) (j : Fin 8) :
    (x.get n).getLsbD j = (x.words j).getLsbD n := by
  simp [Bitslice.get]

theorem getLsbD_from_le_bytes (bytes : Nat → BitVec 8) (p : Nat) :
    (from_le_bytes W bytes).getLsbD p = (decide (p < W.bits) && (bytes (p / 8)).getLsbD (p % 8)) := by
  simp [from_le_bytes]

theorem getLsbD_to_le_bytes (word : BitVec W.bits) (k j : Nat) :
    (to_le_bytes W word k).getLsbD j = (decide (j < 8) && word.getLsbD (8 * k + j)) := by
  simp [to_le_bytes]

/-- `to_le` and then the `transmute` give the little-endian bytes of a word whatever the target's
byte order: a bitslice is unpacked the same way on every target. -/
theorem word_ne_bytes_to_le (e : Endian) (word : BitVec W.bits) {k : Nat} (hk : k < WORD_LEN W) :
    word_ne_bytes W e (word_to_le W e word) k = to_le_bytes W word k := by
  cases e with
  | little => rfl
  | big =>
    have hw := (num_bytes_eq W).2.1
    apply BitVec.eq_of_getLsbD_eq
    intro j
    have hj := j.isLt
    have hp : 8 * (WORD_LEN W - 1 - k) + j < W.bits := by unfold num_bytes at hw; omega
    simp only [word_ne_bytes, word_to_le, to_le_bytes, BitVec.getLsbD_extractLsb', hj, decide_True,
      Bool.true_and, getLsbD_ofBits, hp]
    congr 1
    omega

theorem bit_to_byte_index_lt {p : Nat} (hp : p < num_bytes W) : bit_to_byte_index W p < num_bytes W := by
  unfold bit_to_byte_index
  rcases shape W with ⟨h1, h2, -⟩ | ⟨h1, h2, -⟩ | ⟨h1, h2, -⟩ <;> simp only [h2] <;> omega

end packing

/-! ## The round trip -/

section round_trip

variable {W : Word}

theorem from_le_bytes_to_le_bytes (word : BitVec W.bits) :
    from_le_bytes W (to_le_bytes W word) = word := by
  apply BitVec.eq_of_getLsbD_eq
  intro p
  rw [getLsbD_from_le_bytes, getLsbD_to_le_bytes, Nat.div_add_mod]
  simp [p.isLt, Nat.mod_lt]

/-- Unpacking a packed array gives the array back. -/
theorem into_bytes_from_bytes (s : Fin (num_bytes W) → BitVec 8) :
    (Bitslice.from_bytes W s).into_bytes = s := by
  funext n
  apply BitVec.eq_of_getLsbD_eq
  intro j
  have hw := num_bytes_eq W
  have hk : n % WORD_LEN W < WORD_LEN W := Nat.mod_lt _ (by omega)
  have hn : n / WORD_LEN W * WORD_LEN W + n % WORD_LEN W = n := Nat.div_add_mod' _ _
  simp only [Bitslice.into_bytes, Bitslice.from_bytes, to_byte_order_to_bitslice_order,
    getLsbD_to_le_bytes, getLsbD_from_le_bytes, byteAt]
  have h8 : (8 * (n % WORD_LEN W) + j) / 8 = n % WORD_LEN W := by omega
  have h8' : (8 * (n % WORD_LEN W) + j) % 8 = j := by omega
  rw [h8, h8', hn, dif_pos n.isLt]
  simp [j.isLt, show 8 * (n % WORD_LEN W) + j < W.bits by unfold num_bytes at hw; omega]

/-- Packing an unpacked bitslice gives the bitslice back. -/
theorem from_bytes_into_bytes (x : Bitslice W) : Bitslice.from_bytes W x.into_bytes = x := by
  have hw := num_bytes_eq W
  have hwords : (fun i : Fin 8 => from_le_bytes W fun k => byteAt W x.into_bytes (i * WORD_LEN W + k)) =
      to_byte_order W x.words := by
    funext i
    rw [← from_le_bytes_to_le_bytes (to_byte_order W x.words i)]
    apply BitVec.eq_of_getLsbD_eq
    intro p
    have hp : p / 8 < WORD_LEN W := by have := p.isLt; unfold num_bytes at hw; omega
    have hlt := chunk_lt W i.isLt hp
    have hdiv : ((i : Nat) * WORD_LEN W + p / 8) / WORD_LEN W = i := by
      rw [Nat.mul_comm, Nat.mul_add_div (by omega), Nat.div_eq_of_lt hp, Nat.add_zero]
    have hmod : ((i : Nat) * WORD_LEN W + p / 8) % WORD_LEN W = p / 8 := by
      rw [Nat.mul_comm, Nat.mul_add_mod, Nat.mod_eq_of_lt hp]
    simp only [getLsbD_from_le_bytes, byteAt, dif_pos hlt, Bitslice.into_bytes, hdiv, hmod]
  ext1
  simp only [Bitslice.from_bytes, hwords, to_bitslice_order_to_byte_order]

/-- Packing and unpacking are inverse at every width. -/
theorem from_bytes_into_bytes_inverse (W : Word) :
    (∀ s : Fin (num_bytes W) → BitVec 8, (Bitslice.from_bytes W s).into_bytes = s) ∧
      ∀ x : Bitslice W, Bitslice.from_bytes W x.into_bytes = x :=
  ⟨into_bytes_from_bytes, from_bytes_into_bytes⟩

end round_trip

/-! ## Where each byte lands -/

section layout

variable (W : Word)

/-- Where bit `q.2` of word `q.1` of a packed bitslice comes from among the little-endian
words: bit `q.1` of byte `bit_to_byte_index q.2`. -/
def layout_src (q : Fin 8 × Nat) : Fin 8 × Nat :=
  if q.2 < W.bits then
    (⟨bit_to_byte_index W q.2 / WORD_LEN W % 8, Nat.mod_lt _ (by decide)⟩,
      8 * (bit_to_byte_index W q.2 % WORD_LEN W) + q.1)
  else q

/-- How `to_bitslice_order` permutes the ten bits of a label: bit `k` of the label of an
output bit is bit `labelPerm W k` of the label of its own position. -/
def labelPerm : Word → Nat → Nat
  | .u64 => fun k => [6, 7, 8, 4, 5, 2, 3, 0, 1, 9].getD k 0
  | .u32 => fun k => [6, 7, 8, 3, 4, 5, 1, 2, 0, 9].getD k 0
  | .u16 => fun k => [6, 7, 8, 2, 4, 5, 3, 0, 1, 9].getD k 0

theorem to_bitslice_order_label : ∀ k < 10,
    to_bitslice_order W (label W.bits k) = label W.bits (labelPerm W k) := by
  cases W <;> decide

theorem labelVal_layout_src (j : Fin 8) {p : Nat} (hp : p < W.bits) :
    labelVal W.bits (layout_src W (j, p)) =
      64 * (bit_to_byte_index W p / WORD_LEN W % 8) + (8 * (bit_to_byte_index W p % WORD_LEN W) + j) +
        512 := by
  have hw := num_bytes_eq W
  have : bit_to_byte_index W p % WORD_LEN W < WORD_LEN W := Nat.mod_lt _ (by omega)
  simp only [layout_src, labelVal, if_pos hp]
  rw [if_pos (by unfold num_bytes at hw; omega)]

theorem labelPerm_of_lt_three {k : Nat} (hk : k < 3) : labelPerm W k = k + 6 := by
  cases W <;> interval_cases k <;> rfl

theorem labelPerm_nine : labelPerm W 9 = 9 := by
  cases W <;> rfl

/-- The six low bits of a label of `layout_src`, the word and the place in it of the byte,
are bits of the position as `labelPerm` says: the one fact that depends on the width. -/
theorem testBit_byte_place : ∀ p < W.bits, ∀ k < 6, labelPerm W (k + 3) < 6 ∧
    (8 * (bit_to_byte_index W p / WORD_LEN W % 8) + bit_to_byte_index W p % WORD_LEN W).testBit k =
      p.testBit (labelPerm W (k + 3)) := by
  cases W <;> decide

/-- `layout_src` permutes the ten bits of a label as `labelPerm` says. Both labels are nested
bit fields: the plane in three bits below the position of the byte on one side, the position
in six bits below the plane on the other; `Nat.testBit_mul_pow_two_add` takes them apart. -/
theorem testBit_labelVal_layout_src (j : Fin 8) {p : Nat} (hp : p < W.bits) {k : Nat} (hk : k < 10) :
    (labelVal W.bits (layout_src W (j, p))).testBit k =
      (labelVal W.bits (j, p)).testBit (labelPerm W k) := by
  have hw := shape W
  simp only [num_bytes] at hw
  have hj : (j : Nat) < 2 ^ 3 := j.isLt
  have hp6 : p < 2 ^ 6 := by omega
  have hB : bit_to_byte_index W p % WORD_LEN W < WORD_LEN W := Nat.mod_lt _ (by omega)
  have hAB : 8 * (bit_to_byte_index W p / WORD_LEN W % 8) + bit_to_byte_index W p % WORD_LEN W <
      2 ^ 6 := by omega
  have hL : labelVal W.bits (layout_src W (j, p)) = 2 ^ 3 * (2 ^ 6 * 1 +
      (8 * (bit_to_byte_index W p / WORD_LEN W % 8) + bit_to_byte_index W p % WORD_LEN W)) + j := by
    rw [labelVal_layout_src W j hp]
    simp only [Nat.reducePow]
    omega
  have hR : labelVal W.bits (j, p) = 2 ^ 6 * (2 ^ 3 * 1 + j) + p := by
    rw [labelVal, if_pos hp]
    simp only [Nat.reducePow]
    omega
  rw [hL, hR, Nat.testBit_mul_pow_two_add _ hj, Nat.testBit_mul_pow_two_add _ hp6]
  by_cases h3 : k < 3
  · rw [if_pos h3, labelPerm_of_lt_three W h3, if_neg (by omega), Nat.add_sub_cancel,
      Nat.testBit_mul_pow_two_add _ hj, if_pos h3]
  rcases Nat.lt_or_ge k 9 with h9 | h9
  · obtain ⟨hlt, heq⟩ := testBit_byte_place W p hp (k - 3) (by omega)
    rw [Nat.sub_add_cancel (by omega)] at hlt heq
    rw [if_neg h3, if_pos hlt, Nat.testBit_mul_pow_two_add _ hAB, if_pos (by omega), heq]
  · obtain rfl : k = 9 := by omega
    simp only [labelPerm_nine, Nat.testBit_mul_pow_two_add _ hAB, Nat.testBit_mul_pow_two_add _ hj,
      Nat.reduceLT, Nat.reduceSub, reduceIte]

/-- `to_bitslice_order` takes each bit from where `layout_src` says. -/
theorem getLsbD_to_bitslice_order (ws : Fin 8 → BitVec W.bits) (j : Fin 8) {p : Nat}
    (hp : p < W.bits) :
    (to_bitslice_order W ws j).getLsbD p =
      (ws (layout_src W (j, p)).1).getLsbD (layout_src W (j, p)).2 := by
  rw [to_bitslice_order_moves W ws j p]
  apply getLsbD_eq_of_labelVal W.bits_le
  apply labelVal_inj W.bits_le
  intro k hk
  rw [(to_bitslice_order_moves W).testBit_labelVal_src W.bits_le (to_bitslice_order_label W) _ hk,
    testBit_labelVal_layout_src W j hp hk]

theorem getLsbD_from_bytes (s : Fin (num_bytes W) → BitVec 8) (j : Fin 8) {p : Nat}
    (hp : p < num_bytes W) :
    ((Bitslice.from_bytes W s).words j).getLsbD p = (byteAt W s (bit_to_byte_index W p)).getLsbD j := by
  have hw := num_bytes_eq W
  have hk := bit_to_byte_index_lt W hp
  have hd : bit_to_byte_index W p / WORD_LEN W < 8 := word_index_lt W ⟨_, hk⟩
  have hm : bit_to_byte_index W p % WORD_LEN W < WORD_LEN W := Nat.mod_lt _ (by omega)
  have h1 : (8 * (bit_to_byte_index W p % WORD_LEN W) + j) / 8 = bit_to_byte_index W p % WORD_LEN W := by
    omega
  have h2 : (8 * (bit_to_byte_index W p % WORD_LEN W) + j) % 8 = j := by omega
  have hp' : p < W.bits := hp
  rw [Bitslice.from_bytes, getLsbD_to_bitslice_order W _ j hp]
  simp only [layout_src, if_pos hp', getLsbD_from_le_bytes]
  rw [h1, h2, Nat.mod_eq_of_lt hd, Nat.div_add_mod', decide_eq_true (by unfold num_bytes at hw; omega),
    Bool.true_and]

end layout

/-! ## Blocks -/

section blocks

variable (W : Word)

/-- The bit of the planes that holds row `row`, column `col` of block `b`. -/
def bitIndex (b : Nat) (row col : Fin 4) : Nat := row * row_shift W + col * col_shift W + b

/-- Block `b` of a bitslice, read with `get`. -/
def Bitslice.block {W : Word} (x : Bitslice W) (b : Nat) : Block :=
  Block.ofFn fun row col => x.get (bitIndex W b row col)

/-- Block `b` of a byte array: bytes `16 * b` to `16 * b + 15`. -/
def blockOf (s : Fin (num_bytes W) → BitVec 8) (b : Nat) : Block := ⟨fun i => byteAt W s (16 * b + i)⟩

theorem bitIndex_lt {b : Nat} (hb : b < num_blocks W) (row col : Fin 4) : bitIndex W b row col < num_bytes W := by
  unfold bitIndex row_shift col_shift
  rcases shape W with ⟨h1, h2, -⟩ | ⟨h1, h2, -⟩ | ⟨h1, h2, -⟩ <;> rw [h1] <;> rw [h2] at hb ⊢ <;> omega

theorem block_byte_lt {b : Nat} (hb : b < num_blocks W) (row col : Fin 4) :
    16 * b + 4 * col + row < num_bytes W := by
  have := num_bytes_eq W
  omega

theorem bit_to_byte_index_bitIndex {b : Nat} (hb : b < num_blocks W) (row col : Fin 4) :
    bit_to_byte_index W (bitIndex W b row col) = 16 * b + 4 * col + row := by
  unfold bit_to_byte_index bitIndex row_shift col_shift
  rcases shape W with ⟨-, h2, -⟩ | ⟨-, h2, -⟩ | ⟨-, h2, -⟩ <;> simp only [h2] at hb ⊢ <;> omega

theorem exists_bitIndex {p : Nat} (hp : p < num_bytes W) :
    ∃ b < num_blocks W, ∃ row col : Fin 4, bitIndex W b row col = p := by
  refine ⟨p % num_blocks W, Nat.mod_lt _ (num_bytes_eq W).2.2, ⟨p / row_shift W, ?_⟩,
    ⟨p / col_shift W % 4, Nat.mod_lt _ (by decide)⟩, ?_⟩ <;>
  rcases shape W with ⟨h1, h2, -⟩ | ⟨h1, h2, -⟩ | ⟨h1, h2, -⟩ <;>
  simp only [bitIndex, row_shift, col_shift, h1, h2] at hp ⊢ <;> omega

theorem get_from_bytes (s : Fin (num_bytes W) → BitVec 8) {b : Nat} (hb : b < num_blocks W)
    (row col : Fin 4) :
    (Bitslice.from_bytes W s).get (bitIndex W b row col) = byteAt W s (16 * b + 4 * col + row) := by
  apply BitVec.eq_of_getLsbD_eq
  intro j
  rw [getLsbD_get, getLsbD_from_bytes W s j (bitIndex_lt W hb row col), bit_to_byte_index_bitIndex W hb]

theorem block_from_bytes (s : Fin (num_bytes W) → BitVec 8) {b : Nat} (hb : b < num_blocks W) :
    (Bitslice.from_bytes W s).block b = blockOf W s b := by
  apply Block.ext_get
  intro row col
  rw [Bitslice.block, Block.get_ofFn, get_from_bytes W s hb]
  simp only [blockOf, Block.get, idx]
  congr 1
  omega

/-- Where packing puts each bit: bit `p` of plane `j` is bit `j` of byte
`bit_to_byte_index p`, and byte (row, col) of block `b` is at bit
`row * row_shift + col * col_shift + b` of the planes. -/
theorem from_bytes_bit_layout (s : Fin (num_bytes W) → BitVec 8) :
    (∀ (j : Fin 8) (p : Fin (num_bytes W)),
      ((Bitslice.from_bytes W s).words j).getLsbD p =
        (s ⟨bit_to_byte_index W p, bit_to_byte_index_lt W p.isLt⟩).getLsbD j) ∧
    ∀ (b : Fin (num_blocks W)) (row col : Fin 4),
      (Bitslice.from_bytes W s).get (row * row_shift W + col * col_shift W + b) =
        s ⟨16 * b + 4 * col + row, block_byte_lt W b.isLt row col⟩ := by
  constructor
  · intro j p
    rw [getLsbD_from_bytes W s j p.isLt, byteAt, dif_pos]
  · intro b row col
    rw [← bitIndex, get_from_bytes W s b.isLt, byteAt, dif_pos]

/-- `f` applied to each 16-byte block of a byte array. -/
def blockwise (f : Block → Block) (s : Fin (num_bytes W) → BitVec 8) (n : Fin (num_bytes W)) :
    BitVec 8 :=
  (f (blockOf W s (n / 16))).bytes ⟨n % 16, Nat.mod_lt _ (by decide)⟩

theorem blockOf_blockwise (f : Block → Block) (s : Fin (num_bytes W) → BitVec 8) {b : Nat}
    (hb : b < num_blocks W) : blockOf W (blockwise W f s) b = f (blockOf W s b) := by
  have := num_bytes_eq W
  apply Block.ext
  funext i
  have hi : 16 * b + i < num_bytes W := by omega
  have h1 : (16 * b + (i : Nat)) / 16 = b := by omega
  have h2 : (⟨(16 * b + (i : Nat)) % 16, Nat.mod_lt _ (by decide)⟩ : Fin 16) = i := Fin.ext (by simp only; omega)
  simp only [blockOf, byteAt, dif_pos hi, blockwise, h1, h2]

/-- Two bitslices with the same blocks are equal. -/
theorem Bitslice.ext_block {x y : Bitslice W} (h : ∀ b < num_blocks W, x.block b = y.block b) : x = y := by
  apply Bitslice.ext
  funext j
  apply BitVec.eq_of_getLsbD_eq
  intro p
  obtain ⟨b, hb, row, col, hbit⟩ := exists_bitIndex W p.isLt
  have := congrArg (fun blk => (Block.get blk row col).getLsbD j) (h b hb)
  simpa [Bitslice.block, hbit] using this

/-- A bitslice operation that acts as `f` on every block acts as `f` on every block of the
packed bytes. -/
theorem from_bytes_blockwise {op : Bitslice W → Bitslice W} {f : Block → Block}
    (h : ∀ x : Bitslice W, ∀ b < num_blocks W, (op x).block b = f (x.block b))
    (s : Fin (num_bytes W) → BitVec 8) :
    op (Bitslice.from_bytes W s) = Bitslice.from_bytes W (blockwise W f s) := by
  apply Bitslice.ext_block
  intro b hb
  rw [h _ b hb, block_from_bytes W s hb, block_from_bytes W _ hb, blockOf_blockwise W f s hb]

end blocks


end ct_aes.bitslice
