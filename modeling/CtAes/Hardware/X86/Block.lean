-- The block and the rounds of hardware/x86.rs: `Block` holds an SSE register, `Aes for Block`
-- runs each round as one AES-NI instruction, and `BlockCipher for Schedule` encrypts the first
-- sixteen bytes of the buffer. Read through `transmute`, each instruction is the reference
-- primitive it stands for, so the hardware cipher is the reference cipher on every block and
-- every list of round keys.
import CtAes.Hardware.X86.Intrinsics
import CtAes.Gf256.Product
import CtAes.Aes.Simple

namespace ct_aes.hardware.x86

open gf256

/-- `Block(__m128i)`. -/
structure Block where
  val : __m128i

/-- `mem::zeroed()`. -/
instance Block.instInhabited : Inhabited Block := ⟨⟨0⟩⟩

/-- `BitXor for Block`: `_mm_xor_si128`. -/
instance Block.instXor : Xor Block := ⟨fun a b => ⟨_mm_xor_si128 a.val b.val⟩⟩

@[simp] theorem Block.xor_val (a b : Block) : (a ^^^ b).val = a.val ^^^ b.val := rfl

/-- `From<&aes::Block> for Block`: `_mm_loadu_si128` of the block's bytes. -/
def Block.from_block (b : aes.Block) : Block := ⟨_mm_loadu_si128 b.bytes⟩

/-- `From<Block> for aes::Block`: a `transmute`, byte `k` of the register to byte `k`. -/
def Block.into_block (b : Block) : aes.Block := ⟨fun k => byte b.val k⟩

/-- `TryFrom<&[u8]> for Block`: through `aes::Block::try_from`. -/
def Block.try_from (s : List (BitVec 8)) : Option Block := (aes.Block.try_from s).map Block.from_block

/-- `impl Aes for Block`: AESENC, AESENCLAST, AESDEC with the round key through AESIMC, and
AESDECLAST; `AddRoundKey` is `*self ^= *rhs`. -/
def Block.aes_ni : aes.Aes Block Block where
  add_round_key s rk := s ^^^ rk
  encrypt_round s rk := ⟨_mm_aesenc_si128 s.val rk.val⟩
  encrypt_round_last s rk := ⟨_mm_aesenclast_si128 s.val rk.val⟩
  decrypt_round s rk := ⟨_mm_aesdec_si128 s.val (_mm_aesimc_si128 rk.val)⟩
  decrypt_round_last s rk := ⟨_mm_aesdeclast_si128 s.val rk.val⟩

/-- The body that `encrypt_blocks` and `decrypt_blocks` of `impl BlockCipher for Schedule`
share, with `cipher` for `Aes::encrypt` or `Aes::decrypt`: `&bytes[..BLOCK_LEN]` panics on a
shorter buffer, and one block is processed. -/
def process_blocks (cipher : Block → List Block → Option Block) (sched : aes.Schedule Block)
    (bytes : List (BitVec 8)) : Option (List (BitVec 8) × Nat) :=
  if aes.BLOCK_LEN ≤ bytes.length then do
    let block ← Block.try_from (bytes.take aes.BLOCK_LEN)
    let block ← cipher block sched.as_slice
    pure (block.into_block.toList ++ bytes.drop aes.BLOCK_LEN, aes.BLOCK_LEN)
  else none

/-- `BlockCipher::encrypt_blocks` of the hardware schedule. -/
def encrypt_blocks (sched : aes.Schedule Block) (bytes : List (BitVec 8)) :
    Option (List (BitVec 8) × Nat) :=
  process_blocks Block.aes_ni.encrypt sched bytes

/-- `BlockCipher::decrypt_blocks` of the hardware schedule. -/
def decrypt_blocks (sched : aes.Schedule Block) (bytes : List (BitVec 8)) :
    Option (List (BitVec 8) × Nat) :=
  process_blocks Block.aes_ni.decrypt sched bytes

/-! ## Bytes of the register and bytes of the block -/

@[simp] theorem Block.into_block_from_block (b : aes.Block) : (Block.from_block b).into_block = b := by
  ext k : 2
  exact byte_of_bytes _ k.isLt

theorem Block.from_block_into_block (b : Block) : Block.from_block b.into_block = b := by
  cases b
  exact congrArg Block.mk (of_bytes_byte _)

theorem Block.get_into_block (x : __m128i) (row col : Fin 4) :
    (Block.into_block ⟨x⟩).get row col = byte x (row + 4 * col) := rfl

theorem byte_of_bytes_get (f : Fin 16 → BitVec 8) (row col : Fin 4) :
    byte (of_bytes f) (row + 4 * col) = f (aes.idx row col) :=
  byte_of_bytes f (by omega)

theorem into_block_xor (a b : __m128i) :
    Block.into_block ⟨a ^^^ b⟩ = (Block.into_block ⟨a⟩).add_round_key (Block.into_block ⟨b⟩) := by
  ext k : 2
  exact byte_xor a b k

theorem into_block_SubBytes (s : __m128i) :
    Block.into_block ⟨SubBytes s⟩ = (Block.into_block ⟨s⟩).sub_bytes :=
  aes.Block.ext_get fun row col => by
    rw [aes.Block.get_sub_bytes, Block.get_into_block, SubBytes, byte_of_bytes_get]
    rfl

theorem into_block_InvSubBytes (s : __m128i) :
    Block.into_block ⟨InvSubBytes s⟩ = (Block.into_block ⟨s⟩).inv_sub_bytes :=
  aes.Block.ext_get fun row col => by
    rw [aes.Block.get_inv_sub_bytes, Block.get_into_block, InvSubBytes, byte_of_bytes_get]
    rfl

theorem into_block_ShiftRows (s : __m128i) :
    Block.into_block ⟨ShiftRows s⟩ = (Block.into_block ⟨s⟩).shift_rows := by
  refine aes.Block.ext_get fun row col => ?_
  rw [aes.Block.get_shift_rows, Block.get_into_block, Block.get_into_block, ShiftRows,
    byte_of_bytes_get]
  simp only [aes.idx, Fin.val_add]
  congr 1
  omega

theorem into_block_InvShiftRows (s : __m128i) :
    Block.into_block ⟨InvShiftRows s⟩ = (Block.into_block ⟨s⟩).inv_shift_rows := by
  refine aes.Block.ext_get fun row col => ?_
  rw [aes.Block.get_inv_shift_rows, Block.get_into_block, Block.get_into_block, InvShiftRows,
    byte_of_bytes_get]
  simp only [aes.idx, Fin.sub_def]
  congr 1
  omega

/-- The SDM's `k • a` is the product of `Element`s. -/
theorem mixRow_eq_gmul (k0 k1 k2 k3 a0 a1 a2 a3 : BitVec 8) :
    aes.mixRow k0 k1 k2 k3 a0 a1 a2 a3 = gmul k0 a0 ^^^ gmul k1 a1 ^^^ gmul k2 a2 ^^^ gmul k3 a3 := by
  simp only [aes.mixRow, add_val, mul_val_eq, gmul]

theorem into_block_mix (k0 k1 k2 k3 : BitVec 8) (s : __m128i) (row col : Fin 4) :
    (Block.into_block ⟨mix k0 k1 k2 k3 s⟩).get row col =
      aes.mixRow k0 k1 k2 k3 ((Block.into_block ⟨s⟩).get row col)
        ((Block.into_block ⟨s⟩).get (row + 1) col) ((Block.into_block ⟨s⟩).get (row + 2) col)
        ((Block.into_block ⟨s⟩).get (row + 3) col) := by
  simp only [Block.get_into_block, mix, byte_of_bytes_get, aes.idx, mixRow_eq_gmul, Fin.val_add]
  congr 4 <;> congr 1 <;> omega

theorem into_block_MixColumns (s : __m128i) :
    Block.into_block ⟨MixColumns s⟩ = (Block.into_block ⟨s⟩).mix_columns :=
  aes.Block.ext_get fun row col => by rw [aes.Block.get_mix_columns, MixColumns, into_block_mix]

theorem into_block_InvMixColumns (s : __m128i) :
    Block.into_block ⟨InvMixColumns s⟩ = (Block.into_block ⟨s⟩).inv_mix_columns :=
  aes.Block.ext_get fun row col => by
    rw [aes.Block.get_inv_mix_columns, InvMixColumns, into_block_mix]

/-! ## The instructions -/

/-- SubBytes and ShiftRows commute: one acts on the bytes, the other moves them. -/
theorem SubBytes_ShiftRows (s : __m128i) : SubBytes (ShiftRows s) = ShiftRows (SubBytes s) := by
  simp only [SubBytes, ShiftRows]
  congr 1
  funext k
  rw [byte_of_bytes _ k.isLt, byte_of_bytes _ (by omega)]

theorem gmul_xor (k a b : BitVec 8) : gmul k (a ^^^ b) = gmul k a ^^^ gmul k b := by
  have ha : gf_mul k.toNat a.toNat < 2 ^ 8 := gf_mul_lt _ _
  have hb : gf_mul k.toNat b.toNat < 2 ^ 8 := gf_mul_lt _ _
  apply BitVec.eq_of_toNat_eq
  simp only [gmul, BitVec.toNat_xor, BitVec.toNat_ofNat, gf_mul_xor_right, Nat.mod_eq_of_lt ha,
    Nat.mod_eq_of_lt hb, Nat.mod_eq_of_lt (Nat.xor_lt_two_pow ha hb)]

theorem of_bytes_xor (f g : Fin 16 → BitVec 8) :
    of_bytes f ^^^ of_bytes g = of_bytes fun k => f k ^^^ g k := by
  ext ⟨i, hi⟩
  simp [of_bytes, hi]

/-- `InvMixColumns` is linear over XOR. -/
theorem InvMixColumns_xor (a b : __m128i) :
    InvMixColumns (a ^^^ b) = InvMixColumns a ^^^ InvMixColumns b := by
  simp only [InvMixColumns, mix, of_bytes_xor, byte_xor, gmul_xor]
  congr 1
  funext k
  ac_rfl

/-- AESDEC with the round key through AESIMC is the reference decryption round: the round key
is added before `InvMixColumns`, since `InvMixColumns` is linear. -/
theorem aesdec_aesimc (s rk : __m128i) :
    _mm_aesdec_si128 s (_mm_aesimc_si128 rk) = InvMixColumns (InvSubBytes (InvShiftRows s) ^^^ rk) := by
  rw [_mm_aesdec_si128, _mm_aesimc_si128, InvMixColumns_xor]

/-! ## The hardware cipher is the reference cipher -/

/-- Each AES-NI round is the reference round on the bytes of the registers. -/
theorem Block.aes_ni_simulates :
    Block.aes_ni.Simulates aes.Block.primitives.aes Block.into_block Block.into_block where
  add_round_key s k := into_block_xor s.val k.val
  encrypt_round s k := by
    show Block.into_block ⟨_ ^^^ _⟩ = _
    rw [into_block_xor, into_block_MixColumns, SubBytes_ShiftRows, into_block_ShiftRows,
      into_block_SubBytes]
    rfl
  encrypt_round_last s k := by
    show Block.into_block ⟨_ ^^^ _⟩ = _
    rw [into_block_xor, SubBytes_ShiftRows, into_block_ShiftRows, into_block_SubBytes]
    rfl
  decrypt_round s k := by
    show Block.into_block ⟨_⟩ = _
    rw [aesdec_aesimc, into_block_InvMixColumns, into_block_xor, into_block_InvSubBytes,
      into_block_InvShiftRows]
    rfl
  decrypt_round_last s k := by
    show Block.into_block ⟨_ ^^^ _⟩ = _
    rw [into_block_xor, into_block_InvSubBytes, into_block_InvShiftRows]
    rfl

theorem map_into_block_from_block (bs : List aes.Block) :
    (bs.map Block.from_block).map Block.into_block = bs := by
  simp [Function.comp_def]

/-- `Aes::encrypt` and `Aes::decrypt` of the x86 block give the bytes of the reference ones,
for every block and every list of round keys, loaded into registers. -/
theorem aes_ni_encrypt_decrypt (s : aes.Block) (round_keys : List aes.Block) :
    (Block.aes_ni.encrypt (Block.from_block s) (round_keys.map Block.from_block)).map
        Block.into_block = aes.Block.primitives.aes.encrypt s round_keys ∧
      (Block.aes_ni.decrypt (Block.from_block s) (round_keys.map Block.from_block)).map
        Block.into_block = aes.Block.primitives.aes.decrypt s round_keys := by
  refine ⟨?_, ?_⟩
  · rw [Block.aes_ni_simulates.encrypt, Block.into_block_from_block, map_into_block_from_block]
  · rw [Block.aes_ni_simulates.decrypt, Block.into_block_from_block, map_into_block_from_block]

end ct_aes.hardware.x86
