-- The bit-sliced key schedule of bitslice/key.rs, with the `RoundKey` of bitslice/bitslice.rs.
-- A round key is a bitslice that holds the same 16 bytes in every block. The expansion
-- runs the loop of the reference schedule on round keys whose column 0 carries the word
-- being built; the other columns hold garbage that `Schedule::word` masks off and
-- `Schedule::set_word` never writes back. The main result: the bit-sliced schedule is the
-- reference schedule with every round key replicated into all blocks, and so the FIPS-197
-- key expansion in every block.
import CtAes.Aes.Expansion
import CtAes.Bitslice.Sbox

namespace ct_aes.bitslice

open aes

/-! ## Round keys -/

section round_keys

variable (W : Word)

/-- `RoundKey<W>`: a `Bitslice` holding one round key, repeated in every block. -/
@[ext] structure RoundKey (W : Word) where
  val : Bitslice W

/-- `RoundKey::default()`. -/
instance : Inhabited (RoundKey W) := ⟨⟨⟨fun _ => 0⟩⟩⟩

/-- `BitXor for Bitslice<W>`: word by word. -/
instance : Xor (Bitslice W) := ⟨fun x y => ⟨fun j => x.words j ^^^ y.words j⟩⟩

/-- `BitXor for RoundKey`. -/
instance : Xor (RoundKey W) := ⟨fun a b => ⟨a.val ^^^ b.val⟩⟩

/-- `bit(byte, bit)` of `RoundKey::from_rc`: `OUT[(byte >> bit) & 1]` with `OUT = [0, !0]`. -/
def rc_bit (byte : BitVec 8) (bit : Nat) : BitVec W.bits :=
  [0, ~~~0].getD ((byte >>> bit) &&& 1).toNat 0

/-- `RoundKey::from_rc`: every column of each block is `[rc, 0, 0, 0]`. The `u64` mask is
cast to `Word`, as the source does. -/
def RoundKey.from_rc (rc : BitVec 8) : RoundKey W :=
  ⟨⟨fun j => rc_bit W rc j &&& (first_row W).setWidth W.bits⟩⟩

/-- `RoundKey::from_key`: the key material copied to the front of every block of a zeroed
buffer, then packed. The hypothesis is the `assert!` that it is at most `BLOCK_LEN` bytes. -/
def RoundKey.from_key (key : List (BitVec 8)) (_h : key.length ≤ BLOCK_LEN) : RoundKey W :=
  ⟨Bitslice.from_bytes W fun n => key.getD (n % BLOCK_LEN) 0⟩

theorem Block.toList_length_le (block : Block) : block.toList.length ≤ BLOCK_LEN := by
  simp [Block.toList, BLOCK_LEN]

/-- `From<&aes::Block> for RoundKey`. -/
def RoundKey.from_block (block : Block) : RoundKey W :=
  RoundKey.from_key W block.toList (Block.toList_length_le block)

/-- `RoundKey::sub_word`: `SubBytes` on the whole round key. -/
def RoundKey.sub_word (rk : RoundKey W) : RoundKey W := ⟨rk.val.sub_bytes⟩

/-- `RoundKey::rot_word`: every word rotated right by one row. -/
def RoundKey.rot_word (rk : RoundKey W) : RoundKey W :=
  ⟨⟨fun j => (rk.val.words j).rotateRight (1 * row_shift W)⟩⟩

/-- `RCON[j]`, `RoundKey::from_rc(ROUND_CONSTANTS[j])`. -/
def RCON (j : Nat) : RoundKey W := RoundKey.from_rc W (ROUND_CONSTANTS.getD j 0)

end round_keys

/-! ## The schedule -/

section schedule

variable (W : Word)

/-- `Schedule::word`: a round key whose first column is word `n` of the schedule, column
`n % 4` of round key `n / 4` shifted down to column 0. The masks are `u64`s; for the `u64`
word the casts to `Word` are the identity. -/
def Schedule.word (rks : List (RoundKey W)) (n : Nat) : RoundKey W :=
  let rk := rks.getD (n / 4) default
  let col := n % 4
  ⟨⟨fun j => 0 ||| ((rk.val.words j >>> (col * col_shift W)) &&& (first_col W).setWidth W.bits)⟩⟩

/-- The loop body of `Schedule::set_word`: column `col` of `rk` cleared, then filled from
the first column of `word` shifted up to it. -/
def set_col (rk word : RoundKey W) (col : Nat) : RoundKey W :=
  ⟨⟨fun j => (rk.val.words j &&& (~~~nth_col_mask W col).setWidth W.bits) |||
    ((word.val.words j <<< (col * col_shift W)) &&& (nth_col_mask W col).setWidth W.bits)⟩⟩

/-- `Schedule::set_word`: word `n` of the schedule. -/
def Schedule.set_word (rks : List (RoundKey W)) (n : Nat) (word : RoundKey W) :
    List (RoundKey W) :=
  rks.set (n / 4) (set_col W (rks.getD (n / 4) default) word (n % 4))

/-- The operations of the loop of `From<Key> for bitslice::Schedule`. -/
def expansion : KeyExpansion (List (RoundKey W)) (RoundKey W) where
  word := Schedule.word W
  set_word := Schedule.set_word W
  rot_word := RoundKey.rot_word W
  sub_word := RoundKey.sub_word W
  rcon := RCON W

/-- The schedule before the loop: `Schedule::new` (default round keys), then
`RoundKey::from_key` of chunk `i` of the key as round key `i`. -/
def init_round_keys (key : Key) : List (RoundKey W) :=
  (List.range key.num_round_keys).map fun i =>
    if 16 * i < key.len then RoundKey.from_key W (key_chunk key.as_slice i) (key_chunk_length_le _ i)
    else default

/-- `From<Key> for bitslice::Schedule`. -/
def Schedule.from (key : Key) : Schedule (RoundKey W) where
  round_keys := (expansion W).expand (key.len / 4) key.num_round_keys (init_round_keys W key)
  valid := by
    refine (expansion W).expand_invariant (P := fun s => ValidRounds s.length)
      (fun s i a hs => by show ValidRounds (Schedule.set_word W s i a).length;
                          rwa [Schedule.set_word, List.length_set]) _ _ ?_
    rcases key.shape with ⟨-, h⟩ | ⟨-, h⟩ | ⟨-, h⟩ <;> simp [init_round_keys, h, ValidRounds]

end schedule

/-! ## Bytes of round keys -/

section bytes

variable (W : Word)

theorem Bitslice.get_eq_of {x : Bitslice W} {p : Nat} {v : BitVec 8}
    (h : ∀ j : Fin 8, (x.words j).getLsbD p = v.getLsbD j) : x.get p = v := by
  apply BitVec.eq_of_getLsbD_eq
  intro j
  rw [getLsbD_get, h]

theorem Bitslice.get_eq_get {x y : Bitslice W} {p q : Nat}
    (h : ∀ j : Fin 8, (x.words j).getLsbD p = (y.words j).getLsbD q) : x.get p = y.get q :=
  Bitslice.get_eq_of W fun j => by rw [h, getLsbD_get]

/-- Two bitslices that agree on every byte of every block are equal. -/
theorem Bitslice.ext_get {x y : Bitslice W}
    (h : ∀ b < num_blocks W, ∀ row col, x.get (bitIndex W b row col) = y.get (bitIndex W b row col)) :
    x = y :=
  Bitslice.ext_block W fun b hb => Block.ext_get fun row col => by
    simp only [Bitslice.block, Block.get_ofFn, h b hb]

theorem get_default (p : Nat) : (default : RoundKey W).val.get p = 0 :=
  Bitslice.get_eq_of W fun _ => by simp [default]

@[simp] theorem Bitslice.words_xor (x y : Bitslice W) (j : Fin 8) :
    (x ^^^ y).words j = x.words j ^^^ y.words j := rfl

theorem Bitslice.get_xor (x y : Bitslice W) (p : Nat) : (x ^^^ y).get p = x.get p ^^^ y.get p :=
  Bitslice.get_eq_of W fun j => by
    rw [Bitslice.words_xor, BitVec.getLsbD_xor, BitVec.getLsbD_xor, getLsbD_get, getLsbD_get]

theorem RoundKey.get_from_key (key : List (BitVec 8)) (h : key.length ≤ BLOCK_LEN) {b : Nat}
    (hb : b < num_blocks W) (row col : Fin 4) :
    (RoundKey.from_key W key h).val.get (bitIndex W b row col) = key.getD (4 * col + row) 0 := by
  rw [RoundKey.from_key, get_from_bytes W _ hb, byteAt, dif_pos (block_byte_lt W hb row col)]
  congr 1
  simp only [BLOCK_LEN]
  omega

theorem RoundKey.get_from_block (block : Block) {b : Nat} (hb : b < num_blocks W) (row col : Fin 4) :
    (RoundKey.from_block W block).val.get (bitIndex W b row col) = block.get row col := by
  rw [RoundKey.from_block, RoundKey.get_from_key W _ _ hb, Block.toList,
    List.getD_eq_getElem _ _ (by simp; omega), List.getElem_ofFn]
  simp only [Block.get, idx]
  congr 2
  omega

theorem RoundKey.block_from_block (block : Block) {b : Nat} (hb : b < num_blocks W) :
    (RoundKey.from_block W block).val.block b = block :=
  Block.ext_get fun row col => by
    rw [Bitslice.block, Block.get_ofFn, RoundKey.get_from_block W block hb]

/-- `From<RoundKey> for aes::Block`: `aes::Block::try_from` of the first `BLOCK_LEN` bytes of
the unpacked round key, then `.unwrap()`. -/
def RoundKey.into_block {W : Word} (rk : RoundKey W) : Option Block :=
  Block.try_from ((List.ofFn rk.val.into_bytes).take BLOCK_LEN)

/-- The block a round key is made from is the block it gives back. -/
theorem RoundKey.into_block_from_block (block : Block) :
    (RoundKey.from_block W block).into_block = some block := by
  have hw := num_bytes_eq W
  rw [RoundKey.into_block, RoundKey.from_block, RoundKey.from_key, into_bytes_from_bytes,
    Block.try_from, dif_pos (by simp only [List.length_take, List.length_ofFn, BLOCK_LEN]; omega)]
  congr 1
  ext i : 2
  simp only [List.get_eq_getElem, List.getElem_take, List.getElem_ofFn, Block.toList,
    Nat.mod_eq_of_lt (show i.val < BLOCK_LEN from i.isLt), List.getD_eq_getElem?_getD,
    List.getElem?_ofFn, List.ofFnNthVal, dif_pos i.isLt, Option.getD_some]

/-- A round key is `from_block` of a block when every block of it holds that block. -/
theorem RoundKey.eq_from_block {x : RoundKey W} {block : Block}
    (h : ∀ b < num_blocks W, ∀ row col, x.val.get (bitIndex W b row col) = block.get row col) :
    x = RoundKey.from_block W block :=
  RoundKey.ext (Bitslice.ext_get W fun b hb row col => by
    rw [h b hb, RoundKey.get_from_block W block hb])

theorem RoundKey.from_block_default : RoundKey.from_block W default = default :=
  (RoundKey.eq_from_block W fun _ _ _ _ => by rw [get_default]; rfl).symm

/-! ## The masks -/

theorem first_col_eq :
    first_col .u64 = 0x000f000f000f000f#64 ∧ first_col .u32 = 0x0303030303030303#64 ∧
      first_col .u16 = 0x1111111111111111#64 := by
  refine ⟨?_, ?_, ?_⟩ <;> decide

/-- `first_col` holds the first `col_shift` bits of every row. -/
theorem getLsbD_first_col {p : Nat} (hp : p < 64) :
    (first_col W).getLsbD p = decide (p % row_shift W < col_shift W) := by
  revert p
  obtain ⟨h64, h32, h16⟩ := first_col_eq
  cases W
  · rw [h16]; decide
  · rw [h32]; decide
  · rw [h64]; decide


theorem getLsbD_first_col_bitIndex {b : Nat} (hb : b < num_blocks W) (row col : Fin 4) :
    ((first_col W).setWidth W.bits).getLsbD (bitIndex W b row col) = decide (col = 0) := by
  have hp : bitIndex W b row col < W.bits := bitIndex_lt W hb row col
  have hw := Word.bits_le W
  rw [BitVec.getLsbD_setWidth, getLsbD_first_col W (by omega), decide_eq_true hp, Bool.true_and]
  apply decide_eq_decide.mpr
  unfold bitIndex row_shift col_shift
  rcases shape W with ⟨-, h2, -⟩ | ⟨-, h2, -⟩ | ⟨-, h2, -⟩ <;>
    simp only [h2, Fin.ext_iff, Fin.val_zero] at hb ⊢ <;> omega

theorem getLsbD_nth_col_mask_bitIndex (c : Fin 4) {b : Nat} (hb : b < num_blocks W) (row col : Fin 4) :
    ((nth_col_mask W c).setWidth W.bits).getLsbD (bitIndex W b row col) = decide (col = c) := by
  have hp : bitIndex W b row col < W.bits := bitIndex_lt W hb row col
  have hw := Word.bits_le W
  rw [BitVec.getLsbD_setWidth, nth_col_mask, BitVec.getLsbD_shiftLeft,
    getLsbD_first_col W (by omega), decide_eq_true hp, decide_eq_true (show _ < 64 by omega)]
  simp only [Bool.true_and, ← decide_not, ← Bool.decide_and]
  apply decide_eq_decide.mpr
  unfold bitIndex row_shift col_shift
  rcases shape W with ⟨-, h2, -⟩ | ⟨-, h2, -⟩ | ⟨-, h2, -⟩ <;>
    simp only [h2, Fin.ext_iff] at hb ⊢ <;> omega

theorem getLsbD_not_nth_col_mask_bitIndex (c : Fin 4) {b : Nat} (hb : b < num_blocks W)
    (row col : Fin 4) :
    ((~~~nth_col_mask W c).setWidth W.bits).getLsbD (bitIndex W b row col) = !decide (col = c) := by
  have hp : bitIndex W b row col < W.bits := bitIndex_lt W hb row col
  have hw := Word.bits_le W
  rw [← getLsbD_nth_col_mask_bitIndex W c hb, BitVec.getLsbD_setWidth, BitVec.getLsbD_setWidth,
    BitVec.getLsbD_not, decide_eq_true hp, decide_eq_true (show _ < 64 by omega)]
  rfl

/-! ## What the word operations do to each block -/

theorem toNat_ushiftRight_and_one (byte : BitVec 8) (bit : Nat) :
    ((byte >>> bit) &&& 1).toNat = (byte.getLsbD bit).toNat := by
  rw [BitVec.toNat_and, BitVec.toNat_ushiftRight, BitVec.getLsbD, Nat.testBit_to_div_mod,
    Nat.shiftRight_eq_div_pow, show (1 : BitVec 8).toNat = 1 from rfl, Nat.and_one_is_mod]
  rcases Nat.mod_two_eq_zero_or_one (byte.toNat / 2 ^ bit) with h | h <;> simp [h]

theorem getLsbD_rc_bit (byte : BitVec 8) (bit : Nat) {p : Nat} (hp : p < W.bits) :
    (rc_bit W byte bit).getLsbD p = byte.getLsbD bit := by
  rw [rc_bit, toNat_ushiftRight_and_one]
  cases byte.getLsbD bit
  · exact BitVec.getLsbD_zero
  · simp [hp]

theorem RoundKey.get_from_rc (rc : BitVec 8) {b : Nat} (hb : b < num_blocks W) (row col : Fin 4) :
    (RoundKey.from_rc W rc).val.get (bitIndex W b row col) = if row = 0 then rc else 0 :=
  Bitslice.get_eq_of W fun j => by
    rw [RoundKey.from_rc, getLsbD_first_row_bitIndex W _ hb,
      getLsbD_rc_bit W _ _ (bitIndex_lt W hb row col)]
    split_ifs with h
    · simp [h]
    · simp [show (row : Nat) ≠ 0 from Fin.ext_iff.not.mp h]

theorem RoundKey.get_rot_word (rk : RoundKey W) {b : Nat} (hb : b < num_blocks W) (row col : Fin 4) :
    (rk.rot_word W).val.get (bitIndex W b row col) = rk.val.get (bitIndex W b (row + 1) col) :=
  Bitslice.get_eq_get W fun j => getLsbD_rotateRight_bitIndex W (rk.val.words j) (d := 1)
    (by decide) hb row col

theorem RoundKey.get_sub_word (rk : RoundKey W) {p : Nat} (hp : p < W.bits) :
    (rk.sub_word W).val.get p = sbox (rk.val.get p) :=
  rk.val.get_sub_bytes W hp

/-- `Schedule::word` moves column `n % 4` of round key `n / 4` to column 0. -/
theorem Schedule.get_word (rks : List (RoundKey W)) (n : Nat) {b : Nat} (hb : b < num_blocks W)
    (row : Fin 4) :
    (Schedule.word W rks n).val.get (bitIndex W b row 0) =
      (rks.getD (n / 4) default).val.get (bitIndex W b row ⟨n % 4, Nat.mod_lt _ (by decide)⟩) :=
  Bitslice.get_eq_get W fun j => by
    have h0 : ∀ i, (0 : BitVec W.bits).getLsbD i = false := fun _ => BitVec.getLsbD_zero
    simp only [Schedule.word, BitVec.getLsbD_or, h0, Bool.false_or, BitVec.getLsbD_and,
      BitVec.getLsbD_ushiftRight, getLsbD_first_col_bitIndex W hb, decide_True, Bool.and_true]
    congr 1
    simp only [bitIndex, Fin.val_zero, Fin.val_mk]
    omega

/-- `set_col` writes column `c` from column 0 of `word` and keeps the others. -/
theorem get_set_col (rk word : RoundKey W) (c : Fin 4) {b : Nat} (hb : b < num_blocks W)
    (row col : Fin 4) :
    (set_col W rk word c).val.get (bitIndex W b row col) =
      if col = c then word.val.get (bitIndex W b row 0) else rk.val.get (bitIndex W b row col) := by
  have hp : bitIndex W b row col < W.bits := bitIndex_lt W hb row col
  split_ifs with hc
  · subst hc
    refine Bitslice.get_eq_get W fun j => ?_
    simp only [set_col, BitVec.getLsbD_or, BitVec.getLsbD_and, getLsbD_nth_col_mask_bitIndex W col hb,
      getLsbD_not_nth_col_mask_bitIndex W col hb, decide_True, Bool.not_true, Bool.and_false,
      Bool.and_true, Bool.false_or, BitVec.getLsbD_shiftLeft, decide_eq_true hp,
      decide_eq_false (show ¬bitIndex W b row col < col * col_shift W by unfold bitIndex; omega),
      Bool.not_false, Bool.true_and]
    congr 1
    simp only [bitIndex, Fin.val_zero]
    omega
  · refine Bitslice.get_eq_get W fun j => ?_
    simp only [set_col, BitVec.getLsbD_or, BitVec.getLsbD_and, getLsbD_nth_col_mask_bitIndex W c hb,
      getLsbD_not_nth_col_mask_bitIndex W c hb, hc, decide_False, Bool.not_false, Bool.and_false,
      Bool.and_true, Bool.or_false]

end bytes

/-! ## The bit-sliced schedule is the reference schedule in every block -/

section simulation

variable (W : Word)

/-- A bit-sliced round key holds a reference word when row `k` of column 0 of every block is
the word's big-endian byte `k`. The other columns are not constrained. -/
def HoldsWord (a : RoundKey W) (w : BitVec 32) : Prop :=
  ∀ b < num_blocks W, ∀ row : Fin 4, a.val.get (bitIndex W b row 0) = u32_to_be_bytes w row

theorem getD_map_from_block (ref : List Block) (k : Nat) :
    (ref.map (RoundKey.from_block W)).getD k default = RoundKey.from_block W (ref.getD k default) := by
  rw [← RoundKey.from_block_default W, List.getD_map]

/-- Each operation of the bit-sliced loop does to column 0 of every block what the
reference operation does to its word, and `set_word` keeps every round key replicated. -/
theorem expansion_simulates :
    (expansion W).Simulates (simple.expansion .little)
      (fun bs ref => bs = ref.map (RoundKey.from_block W))
      (HoldsWord W) where
  word := by
    rintro _ ref i rfl b hb row
    show (Schedule.word W _ i).val.get _ = u32_to_be_bytes (simple.word ref i) row
    rw [Schedule.get_word W _ _ hb, getD_map_from_block, RoundKey.get_from_block W _ hb,
      simple.u32_to_be_bytes_word]
  set_word := by
    rintro _ ref i a w rfl ha
    show Schedule.set_word W _ i a = (simple.set_word ref i w).map _
    rw [Schedule.set_word, simple.set_word_eq, List.map_set, getD_map_from_block]
    congr 1
    refine RoundKey.eq_from_block W fun b hb row col => ?_
    rw [get_set_col W _ _ ⟨i % 4, Nat.mod_lt _ (by decide)⟩ hb, Block.get_ofFn, ha b hb,
      RoundKey.get_from_block W _ hb]
    simp only [Fin.ext_iff, Fin.val_mk]
  rot_word a w ha b hb row := by
    rw [show (expansion W).rot_word a = a.rot_word W from rfl, RoundKey.get_rot_word W a hb,
      ha b hb]
    exact (u32_to_be_bytes_rotateLeft w row).symm
  sub_word a w ha b hb row := by
    rw [show (expansion W).sub_word a = a.sub_word W from rfl,
      RoundKey.get_sub_word W a (bitIndex_lt W hb row 0), ha b hb]
    exact (simple.u32_to_be_bytes_sub_word .little w row).symm
  rcon j b hb row := by
    rw [show (expansion W).rcon j = RCON W j from rfl, RCON, RoundKey.get_from_rc W _ hb,
      simple.u32_to_be_bytes_rcon]
  xor a w c v ha hc b hb row := by
    rw [show (a ^^^ c).val = a.val ^^^ c.val from rfl, Bitslice.get_xor, ha b hb, hc b hb,
      u32_to_be_bytes_xor]

/-- Before the loop, round key `i` is chunk `i` of the key in every block. -/
theorem init_round_keys_eq (key : Key) :
    init_round_keys W key = (simple.init_round_keys key).map (RoundKey.from_block W) := by
  rw [init_round_keys, simple.init_round_keys, List.map_map]
  refine List.map_congr_left fun i _ => RoundKey.eq_from_block W fun b hb row col => ?_
  have hchunk : ∀ k, (¬16 * i < key.len) → (key_chunk key.as_slice i).getD k 0 = 0 := by
    intro k h
    rw [key_chunk, List.drop_eq_nil_of_le (by rw [Key.len] at h; omega)]
    rfl
  simp only [Block.get, idx]
  split_ifs with h
  · rw [RoundKey.get_from_key W _ _ hb, Nat.add_comm]
  · rw [get_default, hchunk _ h]

/-- The round keys of the bit-sliced schedule are the reference round keys of a little-endian
target, replicated. -/
theorem Schedule.from_round_keys (key : Key) :
    (Schedule.from W key).round_keys =
      (simple.Schedule.from .little key).round_keys.map (RoundKey.from_block W) :=
  (expansion_simulates W).expand _ _ (init_round_keys_eq W key)

/-- `bitslice::Schedule::from(K)` holds, as round key `r`, `RoundKey::from_key` of the bytes
of round key `r` of the reference schedule built for a little-endian target, for every key and
every `r`. Built for a big-endian target, the reference schedule has the round constant in row 3,
and its round key `Nk / 4`, which holds the first word the loop computes, is not the one the
bit-sliced schedule holds, for every key. -/
theorem schedule_from_round_keys (key : Key) :
    (Schedule.from W key).round_keys =
        (simple.Schedule.from .little key).round_keys.map (fun rk =>
          RoundKey.from_key W rk.toList (Block.toList_length_le rk)) ∧
      (Schedule.from W key).round_keys.getD (key.len / 4 / 4) default ≠
        ((simple.Schedule.from .big key).round_keys.map fun rk =>
          RoundKey.from_key W rk.toList (Block.toList_length_le rk)).getD (key.len / 4 / 4) default := by
  refine ⟨Schedule.from_round_keys W key, fun h => ?_⟩
  have hs := key.shape
  have hb := (num_bytes_eq W).2.2
  -- row 0 of the column of word `Nk` in block 0: the standard's byte, and that byte XOR 1
  have h0 := congrArg (fun rk : RoundKey W => (rk.val.block 0).get 0 ⟨key.len / 4 % 4, by omega⟩) h
  simp only [Schedule.from_round_keys, getD_map_from_block, RoundKey.block_from_block W _ hb] at h0
  erw [getD_map_from_block, RoundKey.block_from_block W _ hb] at h0
  rw [schedule_from_key_expansion key (by omega), ← simple.u32_to_be_bytes_word,
    ← simple.be_word, simple.be_word_schedule_from_big, if_pos (.inl rfl),
    show 4 * (key.len / 4 / 4) + key.len / 4 % 4 = key.len / 4 by omega] at h0
  simpa using congrArg (·.getLsbD 0) h0

/-- Every block of round key `r` of the bit-sliced schedule holds, in column `col`, word
`4 * r + col` of the FIPS-197 key expansion, for every key. -/
theorem bitslice_schedule_key_expansion (key : Key) {r : Nat} (hr : r < key.num_round_keys)
    {b : Nat} (hb : b < num_blocks W) (row col : Fin 4) :
    (((Schedule.from W key).round_keys.getD r default).val.block b).get row col =
      key_expansion key (4 * r + col) row := by
  rw [Schedule.from_round_keys, getD_map_from_block, RoundKey.block_from_block W _ hb,
    schedule_from_key_expansion key hr]

theorem bitslice_schedule_key_expansion_last_aes128 :
    10 < (Key.Aes128 (List.replicate 16 0) rfl).num_round_keys ∧ 3 < num_blocks .u64 ∧
      ((((Schedule.from .u64 (.Aes128 (List.replicate 16 0) rfl)).round_keys.getD 10
          default).val.block 3).get 0 3 =
        key_expansion (.Aes128 (List.replicate 16 0) rfl) (4 * 10 + 3) 0) :=
  ⟨by decide, by decide, bitslice_schedule_key_expansion .u64 _ (by decide) (by decide) 0 3⟩

end simulation

end ct_aes.bitslice
