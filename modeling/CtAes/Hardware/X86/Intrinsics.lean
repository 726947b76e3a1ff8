-- The SSE and AES-NI intrinsics that hardware/x86.rs calls, as the Intel SDM defines them on a
-- 128-bit register: the shuffles pick 32-bit lanes, the byte shift moves the register right,
-- and the AES instructions work on its sixteen bytes, byte `k` at bits `8k + 7 : 8k`, which
-- is byte `k` in memory. The shuffle macros of hardware/x86/intrinsics.rs pass their
-- immediates through `permute_col_mask`.
import CtAes.Aes.Tables
import CtAes.Gf256.Poly
import CtAes.Bits

namespace ct_aes.hardware.x86

open aes gf256

/-- An SSE register. -/
abbrev __m128i := BitVec 128

/-! ## Lanes and bytes -/

/-- Doubleword `i` of a register, `SRC[32i + 31 : 32i]`. -/
def lane (x : __m128i) (i : Nat) : BitVec 32 := x.extractLsb' (32 * i) 32

/-- The register with doublewords `d0` (bits 31:0) to `d3` (bits 127:96). -/
def of_lanes (d0 d1 d2 d3 : BitVec 32) : __m128i := d3 ++ d2 ++ d1 ++ d0

/-- Byte `k` of a register, `SRC[8k + 7 : 8k]`. -/
def byte (x : __m128i) (k : Nat) : BitVec 8 := x.extractLsb' (8 * k) 8

/-- The register whose byte `k` is `f k`. -/
def of_bytes (f : Fin 16 → BitVec 8) : __m128i :=
  ofBits 128 fun i => if h : i < 128 then (f ⟨i / 8, by omega⟩).getLsbD (i % 8) else false

/-- `_mm_loadu_si128`: the sixteen bytes at the address, the first one lowest. -/
def _mm_loadu_si128 (mem : Fin 16 → BitVec 8) : __m128i := of_bytes mem

/-! ## SSE -/

/-- `_mm_xor_si128` (PXOR). -/
def _mm_xor_si128 (a b : __m128i) : __m128i := a ^^^ b

/-- `imm8[2k + 1 : 2k]`, the field of a shuffle control that picks doubleword `k`. -/
def control (imm8 : BitVec 8) (k : Nat) : Nat := (imm8.extractLsb' (2 * k) 2).toNat

/-- `_mm_shuffle_epi32` (PSHUFD): doubleword `k` of the result is doubleword `imm8[2k + 1 : 2k]`
of `a`. -/
def _mm_shuffle_epi32 (a : __m128i) (imm8 : BitVec 8) : __m128i :=
  of_lanes (lane a (control imm8 0)) (lane a (control imm8 1)) (lane a (control imm8 2))
    (lane a (control imm8 3))

/-- `_mm_shuffle_ps` (SHUFPS), on the bits of two registers: doublewords 0 and 1 are
`Select4(a, ·)`, doublewords 2 and 3 are `Select4(b, ·)`. -/
def _mm_shuffle_ps (a b : __m128i) (imm8 : BitVec 8) : __m128i :=
  of_lanes (lane a (control imm8 0)) (lane a (control imm8 1)) (lane b (control imm8 2))
    (lane b (control imm8 3))

/-- `_mm_srli_si128` (PSRLDQ): shift right by `imm8` bytes, and by 16 when `imm8 > 15`. -/
def _mm_srli_si128 (a : __m128i) (imm8 : Nat) : __m128i := a >>> (min imm8 16 * 8)

/-! ## AES-NI -/

/-- `SubWord(X)` of AESKEYGENASSIST: the S-box on each byte of a doubleword. -/
def SubWord (x : BitVec 32) : BitVec 32 :=
  sbox (x.extractLsb' 24 8) ++ sbox (x.extractLsb' 16 8) ++ sbox (x.extractLsb' 8 8) ++
    sbox (x.extractLsb' 0 8)

/-- `RotWord(X)`: the doubleword rotated right by one byte. -/
def RotWord (x : BitVec 32) : BitVec 32 := x.rotateRight 8

/-- `_mm_aeskeygenassist_si128` (AESKEYGENASSIST). -/
def _mm_aeskeygenassist_si128 (a : __m128i) (imm8 : BitVec 8) : __m128i :=
  let X1 := lane a 1
  let X3 := lane a 3
  let RCON : BitVec 32 := imm8.setWidth 32
  of_lanes (SubWord X1) (RotWord (SubWord X1) ^^^ RCON) (SubWord X3) (RotWord (SubWord X3) ^^^ RCON)

/-- `a • b`, the product in GF(2⁸) of the SDM's `MixColumns`. -/
def gmul (a b : BitVec 8) : BitVec 8 := BitVec.ofNat 8 (gf_mul a.toNat b.toNat)

/-- `ShiftRows(STATE)`: byte `r + 4c` (row `r`, column `c`) is byte `r + 4((c + r) mod 4)`. -/
def ShiftRows (s : __m128i) : __m128i :=
  of_bytes fun k => byte s (k % 4 + 4 * ((k / 4 + k % 4) % 4))

/-- `InvShiftRows(STATE)`: byte `r + 4c` is byte `r + 4((c - r) mod 4)`. -/
def InvShiftRows (s : __m128i) : __m128i :=
  of_bytes fun k => byte s (k % 4 + 4 * ((k / 4 + 4 - k % 4) % 4))

/-- `SubBytes(STATE)`: the S-box on each byte. -/
def SubBytes (s : __m128i) : __m128i := of_bytes fun k => sbox (byte s k)

/-- `InvSubBytes(STATE)`. -/
def InvSubBytes (s : __m128i) : __m128i := of_bytes fun k => inv_sbox (byte s k)

/-- A column through the rows `(k0, k1, k2, k3)` of a circulant matrix: byte `r` of column `c`
is `k0•s[r] ⊕ k1•s[r+1] ⊕ k2•s[r+2] ⊕ k3•s[r+3]`, rows mod 4. -/
def mix (k0 k1 k2 k3 : BitVec 8) (s : __m128i) : __m128i :=
  of_bytes fun k =>
    let s' := fun i => byte s ((k % 4 + i) % 4 + 4 * (k / 4))
    gmul k0 (s' 0) ^^^ gmul k1 (s' 1) ^^^ gmul k2 (s' 2) ^^^ gmul k3 (s' 3)

/-- `MixColumns(STATE)`: the rows `({02}, {03}, {01}, {01})`. -/
def MixColumns (s : __m128i) : __m128i := mix 0x02 0x03 0x01 0x01 s

/-- `InvMixColumns(STATE)`: the rows `({0e}, {0b}, {0d}, {09})`. -/
def InvMixColumns (s : __m128i) : __m128i := mix 0x0e 0x0b 0x0d 0x09 s

/-- `_mm_aesenc_si128` (AESENC). -/
def _mm_aesenc_si128 (a RoundKey : __m128i) : __m128i :=
  MixColumns (SubBytes (ShiftRows a)) ^^^ RoundKey

/-- `_mm_aesenclast_si128` (AESENCLAST). -/
def _mm_aesenclast_si128 (a RoundKey : __m128i) : __m128i :=
  SubBytes (ShiftRows a) ^^^ RoundKey

/-- `_mm_aesdec_si128` (AESDEC). -/
def _mm_aesdec_si128 (a RoundKey : __m128i) : __m128i :=
  InvMixColumns (InvSubBytes (InvShiftRows a)) ^^^ RoundKey

/-- `_mm_aesdeclast_si128` (AESDECLAST). -/
def _mm_aesdeclast_si128 (a RoundKey : __m128i) : __m128i :=
  InvSubBytes (InvShiftRows a) ^^^ RoundKey

/-- `_mm_aesimc_si128` (AESIMC). -/
def _mm_aesimc_si128 (a : __m128i) : __m128i := InvMixColumns a

/-! ## The immediates of intrinsics.rs -/

/-- `permute_col_mask(ws)`: the shuffle control that picks doublewords `ws[0]` to `ws[3]`. -/
def permute_col_mask (ws : Fin 4 → BitVec 8) : BitVec 8 :=
  (ws 0 &&& 0x3) ||| ((ws 1 &&& 0x3) <<< 2) ||| ((ws 2 &&& 0x3) <<< 4) ||| ((ws 3 &&& 0x3) <<< 6)

/-! ## Reading the bytes back -/

theorem byte_of_bytes (f : Fin 16 → BitVec 8) {k : Nat} (hk : k < 16) :
    byte (of_bytes f) k = f ⟨k, hk⟩ := by
  ext ⟨i, hi⟩
  have hlt : 8 * k + i < 128 := by omega
  simp only [byte, of_bytes, BitVec.getLsbD_extractLsb', getLsbD_ofBits, hi, decide_True,
    Bool.true_and, dif_pos hlt, hlt]
  simp only [show (8 * k + i) / 8 = k by omega, show (8 * k + i) % 8 = i by omega, dite_true]

theorem of_bytes_byte (x : __m128i) : of_bytes (fun k => byte x k) = x := by
  ext ⟨i, hi⟩
  simp only [byte, of_bytes, getLsbD_ofBits, hi, dif_pos, decide_True, Bool.true_and,
    BitVec.getLsbD_extractLsb', show i % 8 < 8 by omega]
  congr 1
  omega

theorem byte_xor (a b : __m128i) (k : Nat) : byte (a ^^^ b) k = byte a k ^^^ byte b k := by
  ext i
  simp [byte]

end ct_aes.hardware.x86
