-- The AES cipher of FIPS-197 (5.1 and 5.3) as the standard writes it: a 4×4 state, `ShiftRows`
-- rotating row `r` by `r`, `MixColumns` multiplying each column by `a(x)` modulo `x⁴ + 1`, and
-- rounds that index the expanded key `w`. The reference backend refines it on a little-endian
-- target: each primitive of aes/simple.rs is the standard's on the `(row, col)` view of a
-- block, so `Aes::encrypt` and `Aes::decrypt` of aes/ops.rs with the reference schedule of such
-- a target are `Cipher` and `InvCipher`.
import CtAes.Aes.Expansion
import CtAes.Gf256.Product

namespace ct_aes.aes

open gf256

/-! ## The standard's cipher -/

/-- The state (3.4): `s[r, c]`, the byte in row `r` and column `c`. -/
abbrev State := Fin 4 → Fin 4 → BitVec 8

/-- `state = in` (3.4): `s[r, c] = in[r + 4c]`. -/
def State.ofInput (input : Fin 16 → BitVec 8) : State := fun r c => input ⟨r + 4 * c, by omega⟩

/-- `out = state` (3.4): `out[r + 4c] = s[r, c]`. -/
def State.toOutput (s : State) : Fin 16 → BitVec 8 := fun i => s ⟨i % 4, by omega⟩ ⟨i / 4, by omega⟩

/-- `a • b` (4.2): the product of two bytes in GF(2⁸), the polynomial product modulo `m(x)`. -/
def byte_mul (a b : BitVec 8) : BitVec 8 := BitVec.ofNat 8 (gf_mul a.toNat b.toNat)

/-- `a(x) ⊗ s(x)` (4.3): a column read as a polynomial over GF(2⁸), times `a(x)` modulo
`x⁴ + 1`. Coefficient `r` is the XOR over `j` of `a[(r - j) mod 4] • s[j]`. -/
def column_mul (a s : Fin 4 → BitVec 8) (r : Fin 4) : BitVec 8 :=
  byte_mul (a r) (s 0) ^^^ byte_mul (a (r - 1)) (s 1) ^^^ byte_mul (a (r - 2)) (s 2) ^^^
    byte_mul (a (r - 3)) (s 3)

/-- `a(x) = {03}x³ + {01}x² + {01}x + {02}` (5.5), coefficients from `x⁰` up. -/
def mix_poly : Fin 4 → BitVec 8 := ![0x02, 0x01, 0x01, 0x03]

/-- `a⁻¹(x) = {0b}x³ + {0d}x² + {09}x + {0e}` (5.10). -/
def inv_mix_poly : Fin 4 → BitVec 8 := ![0x0e, 0x09, 0x0d, 0x0b]

/-- `SubBytes()` (5.1.1). -/
def SubBytes (s : State) : State := fun r c => sbox (s r c)

/-- `InvSubBytes()` (5.3.2). -/
def InvSubBytes (s : State) : State := fun r c => inv_sbox (s r c)

/-- `ShiftRows()` (5.1.2): `s'[r, c] = s[r, (c + shift(r, 4)) mod 4]`, with `shift(r, 4) = r`. -/
def ShiftRows (s : State) : State := fun r c => s r (c + r)

/-- `InvShiftRows()` (5.3.1): `s'[r, (c + shift(r, 4)) mod 4] = s[r, c]`. -/
def InvShiftRows (s : State) : State := fun r c => s r (c - r)

/-- `MixColumns()` (5.1.3): each column times `a(x)`. -/
def MixColumns (s : State) : State := fun r c => column_mul mix_poly (fun j => s j c) r

/-- `InvMixColumns()` (5.3.3): each column times `a⁻¹(x)`. -/
def InvMixColumns (s : State) : State := fun r c => column_mul inv_mix_poly (fun j => s j c) r

/-- `AddRoundKey()` (5.1.4): column `c` XOR word `c` of the round key. -/
def AddRoundKey (s : State) (ws : Fin 4 → KeyWord) : State := fun r c => s r c ^^^ ws c r

/-- `w[round * Nb, (round + 1) * Nb - 1]`: the four words of round `round`. -/
def round_words (w : Nat → KeyWord) (round : Nat) : Fin 4 → KeyWord := fun c => w (4 * round + c)

/-- `Cipher()` (Figure 5), with `Nr` rounds and the expanded key `w`. -/
def Cipher (input : Fin 16 → BitVec 8) (Nr : Nat) (w : Nat → KeyWord) : Fin 16 → BitVec 8 :=
  let state := AddRoundKey (State.ofInput input) (round_words w 0)
  let state := (List.range' 1 (Nr - 1)).foldl (fun state round =>
    AddRoundKey (MixColumns (ShiftRows (SubBytes state))) (round_words w round)) state
  (AddRoundKey (ShiftRows (SubBytes state)) (round_words w Nr)).toOutput

/-- `InvCipher()` (Figure 12): the rounds `Nr - 1` down to `1`. -/
def InvCipher (input : Fin 16 → BitVec 8) (Nr : Nat) (w : Nat → KeyWord) : Fin 16 → BitVec 8 :=
  let state := AddRoundKey (State.ofInput input) (round_words w Nr)
  let state := (List.range' 1 (Nr - 1)).reverse.foldl (fun state round =>
    InvMixColumns (AddRoundKey (InvSubBytes (InvShiftRows state)) (round_words w round))) state
  (AddRoundKey (InvSubBytes (InvShiftRows state)) (round_words w 0)).toOutput

/-! ## The standard's rounds in the round structure of aes/ops.rs -/

/-- The standard's transformations, a round key given by its four words. -/
def standard : Primitives State (Fin 4 → KeyWord) where
  sub_bytes := SubBytes
  inv_sub_bytes := InvSubBytes
  shift_rows := ShiftRows
  inv_shift_rows := InvShiftRows
  mix_columns := MixColumns
  inv_mix_columns := InvMixColumns
  add_round_key := AddRoundKey

/-- The rounds `0` to `Nr` as the first, the middle ones and the last. -/
theorem range_succ_first_last {Nr : Nat} (h : 1 ≤ Nr) :
    List.range (Nr + 1) = 0 :: (List.range' 1 (Nr - 1) ++ [Nr]) := by
  obtain ⟨n, rfl⟩ : ∃ n, Nr = n + 1 := ⟨Nr - 1, by omega⟩
  rw [List.range_eq_range', List.range'_succ, Nat.add_sub_cancel, List.range'_concat]
  simp only [Nat.zero_add, Nat.one_mul, Nat.add_comm 1 n]

/-- `Aes::encrypt` with the standard's transformations, over the round keys of rounds `0` to
`Nr`, is `Cipher`. -/
theorem standard_encrypt (input : Fin 16 → BitVec 8) {Nr : Nat} (hv : ValidRounds (Nr + 1))
    (w : Nat → KeyWord) :
    (standard.aes.encrypt (State.ofInput input) ((List.range (Nr + 1)).map (round_words w))).map
      State.toOutput = some (Cipher input Nr w) := by
  have h1 : 1 ≤ Nr := by rcases hv with h | h | h <;> omega
  rw [range_succ_first_last h1, List.map_cons, List.map_append, List.map_singleton,
    Aes.encrypt_shape _ _ _ _ _ (by simpa [show Nr - 1 + 2 = Nr + 1 by omega] using hv),
    Option.map_some', List.foldl_map]
  rfl

/-- `Aes::decrypt` with the standard's transformations is `InvCipher`. -/
theorem standard_decrypt (input : Fin 16 → BitVec 8) {Nr : Nat} (hv : ValidRounds (Nr + 1))
    (w : Nat → KeyWord) :
    (standard.aes.decrypt (State.ofInput input) ((List.range (Nr + 1)).map (round_words w))).map
      State.toOutput = some (InvCipher input Nr w) := by
  have h1 : 1 ≤ Nr := by rcases hv with h | h | h <;> omega
  rw [range_succ_first_last h1, List.map_cons, List.map_append, List.map_singleton,
    Aes.decrypt_shape _ _ _ _ _ (by simpa [show Nr - 1 + 2 = Nr + 1 by omega] using hv),
    Option.map_some', ← List.map_reverse, List.foldl_map]
  rfl

/-! ## The reference primitives are the standard's -/

/-- A round-key block read as the four words of the standard, one per column. -/
def Block.words (rk : Block) : Fin 4 → KeyWord := fun c r => rk.get r c

/-- The bytes of a block are the output of its `(row, col)` view. -/
theorem State.toOutput_get (b : Block) : State.toOutput b.get = b.bytes := by
  funext i
  simp only [State.toOutput, Block.get, idx]
  congr 1
  exact Fin.ext (by simp only; omega)

/-- One byte of the reference `MixColumns` rows `(k0, k1, k2, k3)` is the standard's product of
the column with the polynomial whose coefficients are `k0, k3, k2, k1`. -/
theorem mixRow_column_mul (a x : Fin 4 → BitVec 8) (r : Fin 4) :
    mixRow (a 0) (a 3) (a 2) (a 1) (x r) (x (r + 1)) (x (r + 2)) (x (r + 3)) = column_mul a x r := by
  simp only [mixRow, add_val, mul_val_eq, column_mul, byte_mul]
  obtain rfl | rfl | rfl | rfl : r = 0 ∨ r = 1 ∨ r = 2 ∨ r = 3 := by omega
  all_goals simp only [Fin.isValue, Fin.reduceAdd, Fin.reduceSub] <;> ac_rfl

theorem Block.simulates_standard : Block.primitives.Simulates standard Block.get Block.words where
  sub_bytes _ := rfl
  inv_sub_bytes _ := rfl
  shift_rows b := funext₂ b.get_shift_rows
  inv_shift_rows b := funext₂ b.get_inv_shift_rows
  mix_columns b := funext₂ fun r c =>
    (b.get_mix_columns r c).trans (mixRow_column_mul mix_poly (fun j => b.get j c) r)
  inv_mix_columns b := funext₂ fun r c =>
    (b.get_inv_mix_columns r c).trans (mixRow_column_mul inv_mix_poly (fun j => b.get j c) r)
  add_round_key _ _ := rfl

/-- Read by columns, the reference schedule of a little-endian target is the standard's expanded
key, round by round. -/
theorem schedule_from_round_words (key : Key) :
    (simple.Schedule.from .little key).round_keys.map Block.words =
      (List.range key.num_round_keys).map (round_words (key_expansion key)) := by
  have hl := (ExpandedTo.schedule_from key).1
  refine List.ext_get (by simp [hl]) fun r h1 h2 => ?_
  have hr : r < key.num_round_keys := by simpa using h2
  funext c row
  have h := schedule_from_key_expansion key hr row c
  rw [List.getD_eq_getElem _ _ (by omega)] at h
  simpa [Block.words, round_words] using h

/-- The reference `Aes::encrypt` with the reference schedule of a key, on a little-endian
target, is the standard's `Cipher` with `Nr = rounds` and the key's expansion, and
`Aes::decrypt` is `InvCipher`. -/
theorem Block.cipher_schedule_from (key : Key) (b : Block) :
    (Block.primitives.aes.encrypt b (simple.Schedule.from .little key).round_keys).map Block.bytes =
        some (Cipher b.bytes key.rounds (key_expansion key)) ∧
      (Block.primitives.aes.decrypt b (simple.Schedule.from .little key).round_keys).map Block.bytes =
        some (InvCipher b.bytes key.rounds (key_expansion key)) := by
  have hv : ValidRounds (key.rounds + 1) := by
    rcases key.shape with ⟨-, h⟩ | ⟨-, h⟩ | ⟨-, h⟩ <;> simp only [Key.num_round_keys] at h <;>
      simp [ValidRounds, h]
  have hb : ∀ o : Option Block, o.map Block.bytes = (o.map Block.get).map State.toOutput := by
    intro o
    rw [Option.map_map]
    exact congrArg (Option.map · o) (funext fun b => (State.toOutput_get b).symm)
  constructor
  · rw [hb, Block.simulates_standard.aes.encrypt, schedule_from_round_words]
    exact standard_encrypt b.bytes hv _
  · rw [hb, Block.simulates_standard.aes.decrypt, schedule_from_round_words]
    exact standard_decrypt b.bytes hv _

/-! ## The reference `BlockCipher` -/

/-- On a buffer that starts with a block, the shared body of the reference `encrypt_blocks`
and `decrypt_blocks` runs the cipher on that block, keeps the rest and returns 16. -/
theorem simple.process_blocks_append (cipher : Block → List Block → Option Block)
    (sched : Schedule Block) (b : Block) (rest : List (BitVec 8)) :
    simple.process_blocks cipher sched (b.toList ++ rest) =
      (cipher b sched.as_slice).map fun c => (c.toList ++ rest, 16) := by
  have hl : b.toList.length = BLOCK_LEN := by simp [Block.toList, BLOCK_LEN]
  have ht : Block.try_from b.toList = some b := by
    rw [Block.try_from, dif_pos hl]
    congr 1
    ext i : 2
    simp only [Block.toList, List.get_eq_getElem, List.getElem_ofFn]
  rw [simple.process_blocks, if_pos (by simp [hl]), List.take_left' hl, List.drop_left' hl, ht]
  simp only [Option.bind_eq_bind, Option.some_bind, Option.pure_def, Option.map_eq_bind]
  rfl

/-- A cipher whose result a second cipher maps back: on a buffer that starts with a block, the
shared body with the first and then with the second gives the buffer back. -/
theorem simple.process_blocks_append_undo (sched : Schedule Block) (b : Block)
    (rest : List (BitVec 8)) {cipher cipher' : Block → List Block → Option Block}
    (hsome : (cipher b sched.as_slice).isSome)
    (hundo : ∀ c, cipher b sched.as_slice = some c → cipher' c sched.as_slice = some b) :
    (simple.process_blocks cipher sched (b.toList ++ rest)).bind
        (fun r => simple.process_blocks cipher' sched r.1) = some (b.toList ++ rest, 16) := by
  obtain ⟨c, hc⟩ := Option.isSome_iff_exists.mp hsome
  rw [simple.process_blocks_append, hc, Option.map_some', Option.some_bind,
    simple.process_blocks_append, hundo c hc]
  rfl

/-- On a buffer that starts with the 16 bytes of a block, the reference `encrypt_blocks` of
`Schedule::from(K)` on a little-endian target writes the standard's `Cipher` of the block over
them and `decrypt_blocks` writes `InvCipher`; the rest is kept and both return 16. -/
theorem simple.blocks_standard (key : Key) (b : Block) (rest : List (BitVec 8)) :
    simple.encrypt_blocks (simple.Schedule.from .little key) (b.toList ++ rest) =
        some (List.ofFn (Cipher b.bytes key.rounds (key_expansion key)) ++ rest, 16) ∧
      simple.decrypt_blocks (simple.Schedule.from .little key) (b.toList ++ rest) =
        some (List.ofFn (InvCipher b.bytes key.rounds (key_expansion key)) ++ rest, 16) := by
  obtain ⟨he, hd⟩ := Block.cipher_schedule_from key b
  obtain ⟨c, hc, hce⟩ := Option.map_eq_some'.mp he
  obtain ⟨d, hd, hde⟩ := Option.map_eq_some'.mp hd
  rw [simple.encrypt_blocks, simple.decrypt_blocks, simple.process_blocks_append,
    simple.process_blocks_append, Schedule.as_slice, hc, hd]
  simp only [Option.map_some', Block.toList, hce, hde, and_self]

/-- The reference `BlockCipher` of `Schedule::from(K)`: built for a little-endian target, on a
buffer that starts with the 16 bytes of a block, it writes the standard's `Cipher` of the block
with the expansion of `K` over them (`InvCipher` for `decrypt_blocks`), keeps the rest and
returns 16; built for any target, a buffer shorter than a block makes the `.unwrap()` panic. -/
theorem reference_blocks_standard (key : Key) :
    (∀ (b : Block) (rest : List (BitVec 8)),
      simple.encrypt_blocks (simple.Schedule.from .little key) (b.toList ++ rest) =
          some (List.ofFn (Cipher b.bytes key.rounds (key_expansion key)) ++ rest, 16) ∧
        simple.decrypt_blocks (simple.Schedule.from .little key) (b.toList ++ rest) =
          some (List.ofFn (InvCipher b.bytes key.rounds (key_expansion key)) ++ rest, 16)) ∧
      ∀ (e : Endian) (bytes : List (BitVec 8)), bytes.length < BLOCK_LEN →
        simple.encrypt_blocks (simple.Schedule.from e key) bytes = none ∧
          simple.decrypt_blocks (simple.Schedule.from e key) bytes = none :=
  ⟨simple.blocks_standard key, fun _ _ h => ⟨if_neg (by omega), if_neg (by omega)⟩⟩

theorem reference_blocks_standard_short :
    (List.replicate 15 (0 : BitVec 8)).length < BLOCK_LEN ∧
      simple.encrypt_blocks (simple.Schedule.from .big (.Aes128 (List.replicate 16 0) rfl))
          (List.replicate 15 0) = none ∧
        simple.decrypt_blocks (simple.Schedule.from .big (.Aes128 (List.replicate 16 0) rfl))
          (List.replicate 15 0) = none :=
  ⟨by decide, (reference_blocks_standard _).2 .big _ (by decide)⟩

end ct_aes.aes
