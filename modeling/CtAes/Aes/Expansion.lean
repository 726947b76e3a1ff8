-- The key expansion of FIPS-197 (5.2), on words of four bytes, and what the reference
-- schedule of aes/simple.rs computes. The reference keeps its words as big-endian `u32`s
-- inside the round-key blocks, and the loop writes each word once, after the words it reads.
-- `rotate_left(8)` and the native-endian `sub_word` are the standard's `RotWord` and `SubWord`
-- on those bytes on every target. The `to_be` of the round constant is `Rcon` on a
-- little-endian target only: there the schedule is the standard's. On a big-endian target
-- `to_be` does nothing, the constant lands in row 3, and the first word the loop computes is
-- already not the standard's, so neither is the cipher.
import CtAes.Aes.Simple
import CtAes.Gf256
import CtAes.Util

namespace ct_aes.aes

open gf256

/-! ## The standard's expansion -/

/-- A word of the key expansion: four bytes, `a0` first. -/
abbrev KeyWord := Fin 4 → BitVec 8

/-- The bytewise XOR of two words. -/
def KeyWord.xor (a b : KeyWord) : KeyWord := fun k => a k ^^^ b k

@[simp] theorem KeyWord.xor_apply (a b : KeyWord) (k : Fin 4) : a.xor b k = a k ^^^ b k := rfl

/-- `RotWord([a0, a1, a2, a3]) = [a1, a2, a3, a0]`. -/
def RotWord (a : KeyWord) : KeyWord := fun k => a (k + 1)

/-- `SubWord`: the S-box on each byte. -/
def SubWord (a : KeyWord) : KeyWord := fun k => sbox (a k)

/-- `Rcon[j] = [x^(j-1), 0, 0, 0]`, with `x^(j-1)` a power of `x` in GF(2⁸). -/
def Rcon (j : Nat) : KeyWord := fun k => if k = 0 then xtime^[j - 1] 1 else 0

/-- The word XORed into `w[i - Nk]`: `temp`, word `i - 1`, after the standard's two cases. -/
def expand_temp (nk i : Nat) (temp : KeyWord) : KeyWord :=
  if i % nk = 0 then (SubWord (RotWord temp)).xor (Rcon (i / nk))
  else if nk > 6 ∧ i % nk = 4 then SubWord temp
  else temp

/-- `KeyExpansion`: word `i` of the expanded key, for a key of `Nk = key.len / 4` words. -/
def key_expansion (key : Key) (i : Nat) : KeyWord :=
  if h : i < key.len / 4 then fun k => key.as_slice.getD (4 * i + k) 0
  else (key_expansion key (i - key.len / 4)).xor
    (expand_temp (key.len / 4) i (key_expansion key (i - 1)))
termination_by i
decreasing_by all_goals (have hs := key.shape; omega)

theorem key_expansion_of_ge (key : Key) {i : Nat} (hi : key.len / 4 ≤ i) :
    key_expansion key i = (key_expansion key (i - key.len / 4)).xor
      (expand_temp (key.len / 4) i (key_expansion key (i - 1))) := by
  rw [key_expansion, dif_neg (by omega)]

/-- A word `i` with `i mod Nk = 0` is `w[i - Nk] ⊕ SubWord(RotWord(w[i - 1])) ⊕ Rcon[i / Nk]`. -/
theorem key_expansion_rot (key : Key) {i : Nat} (hi : key.len / 4 ≤ i) (h0 : i % (key.len / 4) = 0) :
    key_expansion key i = (key_expansion key (i - key.len / 4)).xor
      ((SubWord (RotWord (key_expansion key (i - 1)))).xor (Rcon (i / (key.len / 4)))) := by
  rw [key_expansion_of_ge key hi, expand_temp, if_pos h0]

/-- For `Nk > 6`, a word `i` with `i mod Nk = 4` is `w[i - Nk] ⊕ SubWord(w[i - 1])`. -/
theorem key_expansion_sub (key : Key) {i : Nat} (hi : key.len / 4 ≤ i)
    (h4 : key.len / 4 > 6 ∧ i % (key.len / 4) = 4) :
    key_expansion key i = (key_expansion key (i - key.len / 4)).xor
      (SubWord (key_expansion key (i - 1))) := by
  rw [key_expansion_of_ge key hi, expand_temp, if_neg (by omega), if_pos h4]

/-- Any other word `i` is `w[i - Nk] ⊕ w[i - 1]`. -/
theorem key_expansion_plain (key : Key) {i : Nat} (hi : key.len / 4 ≤ i) (h0 : i % (key.len / 4) ≠ 0)
    (h4 : ¬(key.len / 4 > 6 ∧ i % (key.len / 4) = 4)) :
    key_expansion key i = (key_expansion key (i - key.len / 4)).xor (key_expansion key (i - 1)) := by
  rw [key_expansion_of_ge key hi, expand_temp, if_neg h0, if_neg h4]

/-- The running XOR `a 0 ⊕ a 1 ⊕ … ⊕ a c` of a sequence of words. -/
def running_xor (a : Nat → KeyWord) : Nat → KeyWord
  | 0 => a 0
  | c + 1 => (running_xor a c).xor (a (c + 1))

/-- Once word `s` is `w[s - Nk] ⊕ T`, each following word whose `temp` is the word before it is
`T` XORed with the running XOR of the words from `s - Nk`. -/
theorem key_expansion_running_xor (key : Key) {s n : Nat} {a : Nat → KeyWord} (T : KeyWord)
    (hs : key.len / 4 ≤ s) (ha : ∀ j < n, a j = key_expansion key (s - key.len / 4 + j))
    (h0 : key_expansion key s = (key_expansion key (s - key.len / 4)).xor T)
    (hplain : ∀ c, 0 < c → c < n →
      (s + c) % (key.len / 4) ≠ 0 ∧ ¬(key.len / 4 > 6 ∧ (s + c) % (key.len / 4) = 4)) :
    ∀ c < n, (running_xor a c).xor T = key_expansion key (s + c) := by
  intro c hc
  induction c with
  | zero => rw [running_xor, ha 0 hc, Nat.add_zero, Nat.add_zero, h0]
  | succ c ih =>
    obtain ⟨h1, h2⟩ := hplain (c + 1) (by omega) hc
    rw [key_expansion_plain key (by omega) h1 h2, show s + (c + 1) - 1 = s + c by omega, ← ih (by omega),
      show s + (c + 1) - key.len / 4 = s - key.len / 4 + (c + 1) by omega, ← ha (c + 1) hc]
    funext k
    simp only [KeyWord.xor_apply, running_xor]
    ac_rfl

/-- `ROUND_CONSTANTS` holds the powers of `x`. -/
theorem round_constants_getD : ∀ j < 10, ROUND_CONSTANTS.getD j 0 = xtime^[j] 1 := by
  decide

/-! ## The reference words -/

namespace simple

/-- The big-endian bytes of word `n` of the schedule. -/
def be_word (rks : List Block) (n : Nat) : KeyWord := u32_to_be_bytes (word rks n)

/-- `set_word` changes word `n` of the schedule and no other. -/
theorem be_word_set_word (rks : List Block) {n : Nat} (hn : n / 4 < rks.length) (w : BitVec 32)
    (m : Nat) : be_word (set_word rks n w) m = if m = n then u32_to_be_bytes w else be_word rks m := by
  funext k
  have hm4 := Nat.mod_lt m (show 0 < 4 by decide)
  simp only [be_word, u32_to_be_bytes_word, set_word_eq, List.getD_eq_getElem?_getD,
    List.getElem?_set, if_pos hn]
  by_cases hq : n / 4 = m / 4
  · rw [if_pos hq, Option.getD_some, Block.get_ofFn, hq]
    by_cases hmn : m = n
    · subst hmn
      simp
    · rw [if_neg (show ¬ m % 4 = n % 4 by omega), if_neg hmn, u32_to_be_bytes_word,
        List.getD_eq_getElem?_getD]
  · rw [if_neg hq, if_neg (by omega), u32_to_be_bytes_word, List.getD_eq_getElem?_getD]

/-- The match of the loop acts on the bytes of `a` as the standard's cases act on them, while
the round constant read is one of the ten. -/
theorem be_temp {n i : Nat} (hr : i % n = 0 → i / n - 1 < 10) (a : BitVec 32) :
    u32_to_be_bytes ((expansion .little).temp n i a) = expand_temp n i (u32_to_be_bytes a) := by
  funext k
  unfold KeyExpansion.temp expand_temp
  by_cases h0 : i % n = 0
  · rw [if_pos h0, if_pos h0, u32_to_be_bytes_xor, u32_to_be_bytes_rcon,
      round_constants_getD _ (hr h0)]
    show u32_to_be_bytes (sub_word .little (a.rotateLeft 8)) k ^^^ _ = sbox (u32_to_be_bytes a (k + 1)) ^^^ _
    rw [u32_to_be_bytes_sub_word, u32_to_be_bytes_rotateLeft]
    rfl
  · rw [if_neg h0, if_neg h0]
    by_cases h4 : i % n = 4 ∧ n > 6
    · rw [if_pos h4, if_pos h4.symm]
      exact u32_to_be_bytes_sub_word .little a k
    · rw [if_neg h4, if_neg fun h => h4 h.symm]

/-- Words `0` to `Nk - 1` of the schedule before the loop are the key. -/
theorem be_word_init_round_keys (key : Key) {i : Nat} (hi : i < key.len / 4) :
    be_word (init_round_keys key) i = key_expansion key i := by
  funext k
  have hs := key.shape
  have hr : i / 4 < key.num_round_keys := by omega
  have hk := k.isLt
  rw [key_expansion, dif_pos hi, be_word, u32_to_be_bytes_word, init_round_keys,
    List.getD_eq_getElem?_getD, List.getElem?_map, List.getElem?_range hr, Option.map_some',
    Option.getD_some]
  simp only [Block.get, idx, key_chunk, List.getD_eq_getElem?_getD, Fin.val_mk]
  rw [List.getElem?_take_of_lt (by omega), List.getElem?_drop]
  congr 2
  omega

end simple

/-! ## The loop computes the standard's words -/

section loop

variable (key : Key)

/-- The reference round keys, with words `0` to `m - 1` those of the standard. -/
def ExpandedTo (m : Nat) (rks : List Block) : Prop :=
  rks.length = key.num_round_keys ∧ ∀ i < m, simple.be_word rks i = key_expansion key i

/-- Iteration `m` of the loop writes word `m` of the standard and keeps the ones below. -/
theorem ExpandedTo.step {m : Nat} (hm : key.len / 4 ≤ m) (hm' : m < 4 * key.num_round_keys)
    {rks : List Block} (h : ExpandedTo key m rks) :
    ExpandedTo key (m + 1) ((simple.expansion .little).step (key.len / 4) rks m) := by
  have hs := key.shape
  have hl := h.1
  have hn : m / 4 < rks.length := by omega
  have hr : m % (key.len / 4) = 0 → m / (key.len / 4) - 1 < 10 := by
    rcases hs with ⟨h1, h2⟩ | ⟨h1, h2⟩ | ⟨h1, h2⟩ <;> simp only [h1, h2] at hm' ⊢ <;> omega
  refine ⟨(simple.set_word_length _ _ _).trans h.1, fun i hi => ?_⟩
  show simple.be_word (simple.set_word rks m _) i = _
  rw [simple.be_word_set_word rks hn]
  split_ifs with him
  · subst him
    funext k
    rw [u32_to_be_bytes_xor, simple.be_temp hr, key_expansion_of_ge key hm]
    show expand_temp _ i (simple.be_word rks (i - 1)) k ^^^ simple.be_word rks (i - key.len / 4) k = _
    rw [h.2 (i - 1) (by omega), h.2 (i - key.len / 4) (by omega)]
    exact BitVec.xor_comm _ _
  · exact h.2 i (by omega)

/-- On a little-endian target the reference schedule holds every word of the standard: the loop
from `Nk` to `4 * rounds` keeps the invariant from the key words on. -/
theorem ExpandedTo.schedule_from :
    ExpandedTo key (4 * key.num_round_keys) (simple.Schedule.from .little key).round_keys := by
  have hs := key.shape
  have h := util.foldl_range'_invariant (ExpandedTo key) ((simple.expansion .little).step (key.len / 4))
    (m := key.len / 4) (d := 4 * key.num_round_keys - key.len / 4)
    (fun i rks h1 h2 h => h.step key h1 (by omega))
    ⟨by simp [simple.init_round_keys], fun i hi => simple.be_word_init_round_keys key hi⟩
  rwa [Nat.add_sub_cancel' (by omega)] at h

/-- On a little-endian target, column `col` of round key `r` of the reference schedule is word
`4 * r + col` of the standard's key expansion, for every key. -/
theorem schedule_from_key_expansion {r : Nat} (hr : r < key.num_round_keys) (row col : Fin 4) :
    ((simple.Schedule.from .little key).round_keys.getD r default).get row col =
      key_expansion key (4 * r + col) row := by
  have hc := col.isLt
  rw [← (ExpandedTo.schedule_from key).2 (4 * r + col) (by omega), simple.be_word,
    simple.u32_to_be_bytes_word]
  congr 2
  · omega
  · exact Fin.ext (by simp only [Fin.val_mk]; omega)

end loop

/-! ## On a big-endian target -/

namespace simple

/-- Iterations from `m` on leave word `n < m` as it is: each writes its own word. -/
theorem be_word_foldl_step (e : Endian) (nk : Nat) {n m d : Nat} (hnm : n < m) {rks : List Block}
    (hd : m + d ≤ 4 * rks.length) :
    be_word ((List.range' m d).foldl ((expansion e).step nk) rks) n = be_word rks n := by
  have h := util.foldl_range'_invariant (fun _ x => x.length = rks.length ∧ be_word x n = be_word rks n)
    ((expansion e).step nk) (m := m) (d := d)
    (fun i x _ hi ⟨hl, hw⟩ => ⟨(set_word_length _ _ _).trans hl, by
      show be_word (set_word x i _) n = _
      rw [be_word_set_word x (by omega), if_neg (by omega), hw]⟩) ⟨rfl, rfl⟩
  exact h.2

/-- On a big-endian target the first word the loop computes, word `Nk`, is the standard's with
the round constant XORed into row 3 instead of row 0: `to_be` does nothing there, so `rc as u32`
keeps the constant in its low byte. The two words differ in rows 0 and 3, for every key. -/
theorem be_word_schedule_from_big (key : Key) (row : Fin 4) :
    be_word (Schedule.from .big key).round_keys (key.len / 4) row =
      key_expansion key (key.len / 4) row ^^^ (if row = 0 ∨ row = 3 then 1 else 0) := by
  have hs := key.shape
  have hl : (init_round_keys key).length = key.num_round_keys := by simp [init_round_keys]
  have hn : 0 < key.len / 4 := by omega
  -- the loop starts with word `Nk`, and the iterations after it do not touch it
  rw [Schedule.from]
  dsimp only
  rw [KeyExpansion.expand,
    show 4 * key.num_round_keys - key.len / 4 = (4 * key.num_round_keys - key.len / 4 - 1) + 1 by omega,
    List.range'_succ, List.foldl_cons, be_word_foldl_step .big _ (Nat.lt_succ_self _)
      (by erw [set_word_length]; omega)]
  erw [be_word_set_word _ (by omega), if_pos rfl]
  rw [KeyExpansion.temp, if_pos (Nat.mod_self _), Nat.div_self hn, Nat.sub_self, u32_to_be_bytes_xor,
    u32_to_be_bytes_xor, key_expansion_rot key le_rfl (Nat.mod_self _), Nat.div_self hn, Nat.sub_self,
    u32_to_be_bytes_rcon_big]
  change u32_to_be_bytes (sub_word .big ((word _ (key.len / 4 - 1)).rotateLeft 8)) row ^^^ _ ^^^
    be_word _ 0 row = _
  rw [u32_to_be_bytes_sub_word, u32_to_be_bytes_rotateLeft]
  change sbox (be_word _ _ (row + 1)) ^^^ _ ^^^ _ = _
  rw [congrFun (be_word_init_round_keys key hn) row,
    congrFun (be_word_init_round_keys key (show key.len / 4 - 1 < key.len / 4 by omega)) (row + 1)]
  simp only [KeyWord.xor_apply, SubWord, RotWord, Rcon, show ROUND_CONSTANTS.getD 0 0 = 1 from rfl,
    Nat.sub_self, Function.iterate_zero, id]
  -- the constant in row 3, against the standard's in row 0
  generalize sbox _ = x
  generalize key_expansion key 0 row = y
  fin_cases row <;> ext i <;> simp [Bool.xor_assoc, Bool.xor_comm, Bool.xor_left_comm]

set_option maxRecDepth 10000 in
/-- On the zero AES-128 key, the reference ciphertext of the zero block on a big-endian target is
not the one on a little-endian target, which is FIPS-197's `66e94bd4…`: the kernel runs both. -/
theorem encrypt_blocks_zero_big_ne_little :
    encrypt_blocks (Schedule.from .big (.Aes128 (List.replicate 16 0) rfl)) (List.replicate 16 0) ≠
      encrypt_blocks (Schedule.from .little (.Aes128 (List.replicate 16 0) rfl)) (List.replicate 16 0) := by
  simp only [encrypt_blocks, ← Block.primitives_norm_eq]
  decide

end simple

end ct_aes.aes
