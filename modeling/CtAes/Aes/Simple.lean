-- The key expansion and the `BlockCipher` of aes/simple.rs. The expansion loop of
-- `From<Key>` is written once, over any round-key slice and any kind of word, because
-- bitslice/key.rs runs the same loop on bit-sliced round keys; a relation that each of its
-- operations keeps is kept by the whole loop. The reference words are big-endian `u32`s
-- cut from the round-key blocks. `sub_word` and the round constant go through the target's
-- own byte order (`to_ne_bytes`, `to_be`), and word.rs builds the crate for big-endian
-- targets as well as little-endian ones, so the schedule takes the byte order as a parameter.
import Mathlib.Data.List.GetD
import CtAes.Aes.Key

namespace ct_aes.aes

/-! ## The expansion loop -/

/-- What the loop of `From<Key>` does with the round-key slice `S` and its words `Wd`:
`Schedule::word`, `Schedule::set_word`, the two word operations and the word XORed for
`ROUND_CONSTANTS[j]`. -/
structure KeyExpansion (S Wd : Type) where
  word : S → Nat → Wd
  set_word : S → Nat → Wd → S
  rot_word : Wd → Wd
  sub_word : Wd → Wd
  rcon : Nat → Wd

variable {S T Wd Vd : Type} [Xor Wd] [Xor Vd]

/-- The `match i % n` of iteration `i`, for a key of `n` words: what becomes of `a`, word
`i - 1`. -/
def KeyExpansion.temp (e : KeyExpansion S Wd) (n i : Nat) (a : Wd) : Wd :=
  if i % n = 0 then e.sub_word (e.rot_word a) ^^^ e.rcon (i / n - 1)
  else if i % n = 4 ∧ n > 6 then e.sub_word a
  else a

/-- One iteration, for word `i` of a key of `n` words. -/
def KeyExpansion.step (e : KeyExpansion S Wd) (n : Nat) (sched : S) (i : Nat) : S :=
  e.set_word sched i (e.temp n i (e.word sched (i - 1)) ^^^ e.word sched (i - n))

/-- `for i in n..(4 * num_round_keys)`. -/
def KeyExpansion.expand (e : KeyExpansion S Wd) (n num_round_keys : Nat) (sched : S) : S :=
  (List.range' n (4 * num_round_keys - n)).foldl (e.step n) sched

/-- A property of the slice that `set_word` keeps holds after the loop. -/
theorem KeyExpansion.expand_invariant (e : KeyExpansion S Wd) {P : S → Prop}
    (h : ∀ s i a, P s → P (e.set_word s i a)) (n num_round_keys : Nat) {s : S} (hs : P s) :
    P (e.expand n num_round_keys s) := by
  unfold KeyExpansion.expand
  induction List.range' n (4 * num_round_keys - n) generalizing s with
  | nil => exact hs
  | cons i is ih => exact ih (h _ _ _ hs)

/-- A relation between two slices, and one between two kinds of words, that each operation
of the loop keeps. -/
structure KeyExpansion.Simulates (e : KeyExpansion S Wd) (f : KeyExpansion T Vd)
    (R : S → T → Prop) (Rw : Wd → Vd → Prop) : Prop where
  word : ∀ s t i, R s t → Rw (e.word s i) (f.word t i)
  set_word : ∀ s t i a b, R s t → Rw a b → R (e.set_word s i a) (f.set_word t i b)
  rot_word : ∀ a b, Rw a b → Rw (e.rot_word a) (f.rot_word b)
  sub_word : ∀ a b, Rw a b → Rw (e.sub_word a) (f.sub_word b)
  rcon : ∀ j, Rw (e.rcon j) (f.rcon j)
  xor : ∀ a b c d, Rw a b → Rw c d → Rw (a ^^^ c) (b ^^^ d)

section simulation

variable {e : KeyExpansion S Wd} {f : KeyExpansion T Vd} {R : S → T → Prop}
  {Rw : Wd → Vd → Prop} (h : e.Simulates f R Rw)
include h

theorem KeyExpansion.Simulates.step (n : Nat) {s : S} {t : T} (hR : R s t) (i : Nat) :
    R (e.step n s i) (f.step n t i) := by
  have ha := h.word s t (i - 1) hR
  refine h.set_word _ _ _ _ _ hR (h.xor _ _ _ _ ?_ (h.word s t (i - n) hR))
  unfold KeyExpansion.temp
  split_ifs
  · exact h.xor _ _ _ _ (h.sub_word _ _ (h.rot_word _ _ ha)) (h.rcon _)
  · exact h.sub_word _ _ ha
  · exact ha

/-- The loop keeps the relation: the two expansions stay related after every word. -/
theorem KeyExpansion.Simulates.expand (n num_round_keys : Nat) {s : S} {t : T} (hR : R s t) :
    R (e.expand n num_round_keys s) (f.expand n num_round_keys t) := by
  unfold KeyExpansion.expand
  induction List.range' n (4 * num_round_keys - n) generalizing s t with
  | nil => exact hR
  | cons i is ih => exact ih (h.step n hR i)

end simulation

/-! ## Words and the target's byte order -/

/-- `u32::from_be_bytes`. -/
def u32_from_be_bytes (bytes : Fin 4 → BitVec 8) : BitVec 32 :=
  bytes 0 ++ bytes 1 ++ bytes 2 ++ bytes 3

/-- `u32::to_be_bytes`. -/
def u32_to_be_bytes (word : BitVec 32) (k : Fin 4) : BitVec 8 := word.extractLsb' (8 * (3 - k)) 8

/-- `u32::to_le_bytes`. -/
def u32_to_le_bytes (word : BitVec 32) (k : Fin 4) : BitVec 8 := word.extractLsb' (8 * k) 8

/-- `u32::from_le_bytes`. -/
def u32_from_le_bytes (bytes : Fin 4 → BitVec 8) : BitVec 32 :=
  bytes 3 ++ bytes 2 ++ bytes 1 ++ bytes 0

/-- `u32::to_ne_bytes`: the bytes in the target's order. -/
def u32_to_ne_bytes : Endian → BitVec 32 → Fin 4 → BitVec 8
  | .little => u32_to_le_bytes
  | .big => u32_to_be_bytes

/-- `u32::from_ne_bytes`. -/
def u32_from_ne_bytes : Endian → (Fin 4 → BitVec 8) → BitVec 32
  | .little => u32_from_le_bytes
  | .big => u32_from_be_bytes

/-- `u32::to_be`: the word whose bytes in the target's order are the big-endian bytes of
`word`. It swaps the bytes on a little-endian target and does nothing on a big-endian one. -/
def u32_to_be (e : Endian) (word : BitVec 32) : BitVec 32 := u32_from_ne_bytes e (u32_to_be_bytes word)

theorem getLsbD_u32_to_be_bytes (word : BitVec 32) (k : Fin 4) {i : Nat} (hi : i < 8) :
    (u32_to_be_bytes word k).getLsbD i = word.getLsbD (8 * (3 - k) + i) := by
  simp [u32_to_be_bytes, hi]

theorem getLsbD_u32_from_be_bytes (bytes : Fin 4 → BitVec 8) (k : Fin 4) {i : Nat} (hi : i < 8) :
    (u32_from_be_bytes bytes).getLsbD (8 * (3 - k) + i) = (bytes k).getLsbD i := by
  fin_cases k <;> simp (disch := omega) only [u32_from_be_bytes, BitVec.getLsbD_append,
    decide_eq_true, decide_eq_false, cond_true, cond_false, Fin.isValue] <;> congr 1 <;> omega

theorem getLsbD_u32_from_le_bytes (bytes : Fin 4 → BitVec 8) (k : Fin 4) {i : Nat} (hi : i < 8) :
    (u32_from_le_bytes bytes).getLsbD (8 * k + i) = (bytes k).getLsbD i := by
  fin_cases k <;> simp (disch := omega) only [u32_from_le_bytes, BitVec.getLsbD_append,
    decide_eq_true, decide_eq_false, cond_true, cond_false, Fin.isValue] <;> congr 1 <;> omega

theorem val_three_sub (k : Fin 4) : ((3 - k : Fin 4) : Nat) = 3 - k := by
  fin_cases k <;> rfl

theorem u32_to_be_bytes_from_be_bytes (bytes : Fin 4 → BitVec 8) (k : Fin 4) :
    u32_to_be_bytes (u32_from_be_bytes bytes) k = bytes k := by
  apply BitVec.eq_of_getLsbD_eq
  intro i
  rw [getLsbD_u32_to_be_bytes _ _ i.isLt, getLsbD_u32_from_be_bytes _ _ i.isLt]

theorem u32_to_be_bytes_from_le_bytes (bytes : Fin 4 → BitVec 8) (k : Fin 4) :
    u32_to_be_bytes (u32_from_le_bytes bytes) k = bytes (3 - k) := by
  apply BitVec.eq_of_getLsbD_eq
  intro i
  rw [getLsbD_u32_to_be_bytes _ _ i.isLt, ← val_three_sub]
  exact getLsbD_u32_from_le_bytes bytes _ i.isLt

theorem u32_to_le_bytes_three_sub (w : BitVec 32) (k : Fin 4) :
    u32_to_le_bytes w (3 - k) = u32_to_be_bytes w k := by
  rw [u32_to_le_bytes, u32_to_be_bytes, val_three_sub]

/-- Each byte mapped in the target's order is each big-endian byte mapped, on either order. -/
theorem u32_to_be_bytes_map_ne_bytes (e : Endian) (f : BitVec 8 → BitVec 8) (w : BitVec 32)
    (k : Fin 4) :
    u32_to_be_bytes (u32_from_ne_bytes e fun j => f (u32_to_ne_bytes e w j)) k =
      f (u32_to_be_bytes w k) := by
  cases e with
  | little => rw [u32_from_ne_bytes, u32_to_be_bytes_from_le_bytes, u32_to_ne_bytes,
      u32_to_le_bytes_three_sub]
  | big => rw [u32_from_ne_bytes, u32_to_be_bytes_from_be_bytes, u32_to_ne_bytes]

/-- Read big-endian, `to_be` of a word gives its bytes in the target's order. -/
theorem u32_to_be_bytes_to_be (e : Endian) (word : BitVec 32) (k : Fin 4) :
    u32_to_be_bytes (u32_to_be e word) k = u32_to_ne_bytes e word k := by
  cases e with
  | little =>
    rw [u32_to_be, u32_from_ne_bytes, u32_to_be_bytes_from_le_bytes, u32_to_be_bytes, u32_to_ne_bytes,
      u32_to_le_bytes, val_three_sub]
    congr 2
    omega
  | big => rw [u32_to_be, u32_from_ne_bytes, u32_to_be_bytes_from_be_bytes, u32_to_ne_bytes]

theorem u32_to_be_bytes_xor (a b : BitVec 32) (k : Fin 4) :
    u32_to_be_bytes (a ^^^ b) k = u32_to_be_bytes a k ^^^ u32_to_be_bytes b k := by
  apply BitVec.eq_of_getLsbD_eq
  intro i
  simp only [BitVec.getLsbD_xor, getLsbD_u32_to_be_bytes _ _ i.isLt]

/-- `rotate_left(8)` moves each big-endian byte up one place. -/
theorem u32_to_be_bytes_rotateLeft (a : BitVec 32) (k : Fin 4) :
    u32_to_be_bytes (a.rotateLeft 8) k = u32_to_be_bytes a (k + 1) := by
  apply BitVec.eq_of_getLsbD_eq
  intro i
  have hi := i.isLt
  have hk := k.isLt
  rw [getLsbD_u32_to_be_bytes _ _ i.isLt, getLsbD_u32_to_be_bytes _ _ i.isLt,
    BitVec.getLsbD_rotateLeft, Fin.val_add, Fin.val_one]
  by_cases h3 : k.val < 3 <;>
    simp (disch := omega) only [Nat.reduceMod, decide_eq_true, decide_eq_false, cond_true,
      cond_false, Bool.true_and] <;> congr 1 <;> omega

/-- `rc as u32`: `rc` in the low byte, which is little-endian byte 0. -/
theorem u32_to_le_bytes_setWidth (rc : BitVec 8) (k : Fin 4) :
    u32_to_le_bytes (rc.setWidth 32) k = if k = 0 then rc else 0 := by
  apply BitVec.eq_of_getLsbD_eq
  intro i
  have hi := i.isLt
  fin_cases k <;>
    simp (disch := omega) [u32_to_le_bytes, hi, BitVec.getLsbD_ge, show i.val < 32 by omega]

/-- `rc as u32`: the low byte is big-endian byte 3. -/
theorem u32_to_be_bytes_setWidth (rc : BitVec 8) (k : Fin 4) :
    u32_to_be_bytes (rc.setWidth 32) k = if k = 3 then rc else 0 := by
  rw [← u32_to_le_bytes_three_sub, u32_to_le_bytes_setWidth]
  fin_cases k <;> rfl

/-! ## The reference key schedule -/

namespace simple

/-- `Schedule::word`: word `n` of the schedule, read big-endian from round key `n / 4` at
byte `4 * (n % 4)`. The loop only reads words of the schedule, so the index is in range. -/
def word (rks : List Block) (n : Nat) : BitVec 32 :=
  let rk := rks.getD (n / 4) default
  let i := 4 * (n % 4)
  u32_from_be_bytes fun k => rk.bytes ⟨i + k, by omega⟩

/-- `Schedule::set_word`: the big-endian bytes of `word` into round key `n / 4` at byte
`4 * (n % 4)`. -/
def set_word (rks : List Block) (n : Nat) (word : BitVec 32) : List Block :=
  let rk := rks.getD (n / 4) default
  let i := 4 * (n % 4)
  rks.set (n / 4)
    ⟨fun j => if h : i ≤ j.val ∧ j.val < i + 4 then u32_to_be_bytes word ⟨j - i, by omega⟩
      else rk.bytes j⟩

/-- `sub_word`: `SBOX` on each byte, in the target's order. -/
def sub_word (e : Endian) (word : BitVec 32) : BitVec 32 :=
  u32_from_ne_bytes e fun k => sbox (u32_to_ne_bytes e word k)

/-- The operations of the loop of `From<Key> for Schedule`, on a target of byte order `e`. -/
def expansion (e : Endian) : KeyExpansion (List Block) (BitVec 32) where
  word := word
  set_word := set_word
  rot_word a := a.rotateLeft 8
  sub_word := sub_word e
  rcon j := u32_to_be e ((ROUND_CONSTANTS.getD j 0).setWidth 32)

/-! ### The bytes of the reference words -/

/-- Big-endian byte `k` of word `n` is row `k`, column `n % 4` of round key `n / 4`. -/
theorem u32_to_be_bytes_word (rks : List Block) (n : Nat) (k : Fin 4) :
    u32_to_be_bytes (word rks n) k = (rks.getD (n / 4) default).get k ⟨n % 4, Nat.mod_lt _ (by decide)⟩ := by
  rw [word, u32_to_be_bytes_from_be_bytes, Block.get, idx]
  congr 2
  simp only [Fin.val_mk]
  omega

/-- `set_word` rewrites column `n % 4` of round key `n / 4` with the big-endian bytes of the
word. -/
theorem set_word_eq (rks : List Block) (n : Nat) (w : BitVec 32) :
    set_word rks n w = rks.set (n / 4) (Block.ofFn fun row col =>
      if col.val = n % 4 then u32_to_be_bytes w row else (rks.getD (n / 4) default).get row col) := by
  rw [set_word]
  congr 1
  refine Block.ext_get fun row col => ?_
  rw [Block.get_ofFn]
  simp only [Block.get, idx]
  split_ifs with h1 h2 h2
  · congr 1
    exact Fin.ext (by simp only; omega)
  · omega
  · omega
  · rfl

/-- `sub_word` is `SBOX` on each big-endian byte, whatever the byte order. -/
theorem u32_to_be_bytes_sub_word (e : Endian) (w : BitVec 32) (k : Fin 4) :
    u32_to_be_bytes (sub_word e w) k = sbox (u32_to_be_bytes w k) :=
  u32_to_be_bytes_map_ne_bytes e sbox w k

/-- On a little-endian target the round-constant word has the constant as its first
big-endian byte, row 0 of the column. -/
theorem u32_to_be_bytes_rcon (j : Nat) (k : Fin 4) :
    u32_to_be_bytes ((expansion .little).rcon j) k = if k = 0 then ROUND_CONSTANTS.getD j 0 else 0 := by
  rw [expansion, u32_to_be_bytes_to_be]
  exact u32_to_le_bytes_setWidth _ k

/-- On a big-endian target `to_be` leaves the constant in the low byte: the last big-endian
byte, row 3 of the column. -/
theorem u32_to_be_bytes_rcon_big (j : Nat) (k : Fin 4) :
    u32_to_be_bytes ((expansion .big).rcon j) k = if k = 3 then ROUND_CONSTANTS.getD j 0 else 0 := by
  rw [expansion, u32_to_be_bytes_to_be]
  exact u32_to_be_bytes_setWidth _ k

end simple

/-- Chunk `i` of `key.chunks(BLOCK_LEN)`; empty past the last chunk. -/
def key_chunk (key : List (BitVec 8)) (i : Nat) : List (BitVec 8) := (key.drop (16 * i)).take 16

theorem key_chunk_length_le (key : List (BitVec 8)) (i : Nat) : (key_chunk key i).length ≤ BLOCK_LEN :=
  List.length_take_le _ _

namespace simple

/-- The schedule before the loop: `Schedule::new` (zero blocks), then chunk `i` of the key
copied to the front of round key `i`. -/
def init_round_keys (key : Key) : List Block :=
  (List.range key.num_round_keys).map fun i => ⟨fun j => (key_chunk key.as_slice i).getD j 0⟩

theorem set_word_length (rks : List Block) (n : Nat) (word : BitVec 32) :
    (set_word rks n word).length = rks.length :=
  List.length_set _ _ _

/-- `From<Key> for Schedule`, built for a target of byte order `e`. -/
def Schedule.from (e : Endian) (key : Key) : Schedule Block where
  round_keys := (expansion e).expand (key.len / 4) key.num_round_keys (init_round_keys key)
  valid := by
    refine (expansion e).expand_invariant (P := fun s => ValidRounds s.length)
      (fun s i a hs => by show ValidRounds (set_word s i a).length; rwa [set_word_length]) _ _ ?_
    rcases key.shape with ⟨-, h⟩ | ⟨-, h⟩ | ⟨-, h⟩ <;> simp [init_round_keys, h, ValidRounds]

/-! ## The reference cipher -/

/-- The body that `encrypt_blocks` and `decrypt_blocks` of the reference schedule share, with
`cipher` for `Aes::encrypt` or `Aes::decrypt`: the first `BLOCK_LEN` bytes as one block (a
shorter slice panics), processed in place; returns 16. -/
def process_blocks (cipher : Block → List Block → Option Block) (sched : Schedule Block)
    (bytes : List (BitVec 8)) : Option (List (BitVec 8) × Nat) :=
  if BLOCK_LEN ≤ bytes.length then do
    let block ← Block.try_from (bytes.take BLOCK_LEN)
    let block ← cipher block sched.as_slice
    pure (block.toList ++ bytes.drop BLOCK_LEN, 16)
  else none

/-- `BlockCipher::encrypt_blocks` of the reference schedule. -/
def encrypt_blocks (sched : Schedule Block) (bytes : List (BitVec 8)) :
    Option (List (BitVec 8) × Nat) :=
  process_blocks Block.primitives.aes.encrypt sched bytes

/-- `BlockCipher::decrypt_blocks` of the reference schedule. -/
def decrypt_blocks (sched : Schedule Block) (bytes : List (BitVec 8)) :
    Option (List (BitVec 8) × Nat) :=
  process_blocks Block.primitives.aes.decrypt sched bytes

end simple

end ct_aes.aes
