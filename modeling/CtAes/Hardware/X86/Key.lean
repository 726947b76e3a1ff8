-- The key schedule of hardware/x86.rs: `From<Key> for Schedule` fills 11, 13 or 15 registers
-- with `expand_key_128`, `expand_key_192` or `expand_key_256`, which build each round key from
-- the ones before with AESKEYGENASSIST, shuffles and `partial_sum_words`. Each round key is
-- read here as four FIPS-197 words, its columns; every intrinsic gets one lemma saying what
-- it does to the columns.
import CtAes.Hardware.X86.Block
import CtAes.Aes.Expansion

namespace ct_aes.hardware.x86

open gf256

/-- `COL_SHIFT`: the bytes of a column. -/
def COL_SHIFT : Nat := 4

/-- `block_from_cols!(a, b, c, d)`: each column four copies of one byte. -/
def block_from_cols (a b c d : BitVec 8) : Block :=
  ⟨of_bytes fun k => ![a, b, c, d] ⟨k / 4, by omega⟩⟩

/-- `ZERO`. -/
def ZERO : Block := block_from_cols 0 0 0 0

/-! ## The macros of intrinsics.rs -/

/-- `pshufd!(a, ws)`. -/
def pshufd (a : Block) (ws : Fin 4 → BitVec 8) : Block :=
  ⟨_mm_shuffle_epi32 a.val (permute_col_mask ws)⟩

/-- `shufps!(a, b, ws)`. -/
def shufps (a b : Block) (ws : Fin 4 → BitVec 8) : Block :=
  ⟨_mm_shuffle_ps a.val b.val (permute_col_mask ws)⟩

/-- `keygenassist!(a, rc)`. -/
def keygenassist (a : Block) (rc : BitVec 8) : Block := ⟨_mm_aeskeygenassist_si128 a.val rc⟩

/-! ## The expansion -/

/-- `partial_sum_words(x)`: given `X0, X1, X2, X3`, computes `X0, X0^X1, X0^X1^X2, X0^X1^X2^X3`. -/
def partial_sum_words (x : Block) : Block :=
  let z := shufps ZERO x ![0, 0, 1, 0]
  let x := x ^^^ z
  let t := shufps z x ![0, 3, 0, 2]
  x ^^^ t

/-- `splat_sub_word_3(kg)`: `Sub(X3)` in every column. -/
def splat_sub_word_3 (kg : Block) : Block := pshufd kg ![2, 2, 2, 2]

/-- `splat_rot_sub_word_3(kg)`: `Rot(Sub(X3))` in every column. -/
def splat_rot_sub_word_3 (kg : Block) : Block := pshufd kg ![3, 3, 3, 3]

/-- `expand128!(in, kg, out, splat, rc)`: the block stored to `out`. -/
def expand128 (a kg : Block) (splat : Block → Block) (rc : BitVec 8) : Block :=
  let kg := keygenassist kg rc
  let kg := splat kg
  let a := partial_sum_words a
  a ^^^ kg

/-- `RCON[i]`. -/
def RCON (i : Nat) : BitVec 8 := aes.ROUND_CONSTANTS.getD i 0

/-- `expand192!(rk[3i], RCON[2i], RCON[2i+1])`: from `rk[3i] = W0..W3` and `rk[3i+1] = W4, W5, 0, 0`,
round keys `3i + 1` to `3i + 3` and, if it is not the last one, the first half of `3i + 4`. -/
def expand192 (rk : List Block) (i : Nat) : List Block :=
  let a := rk.getD (3 * i) default
  let b := rk.getD (3 * i + 1) default
  let kg1 := keygenassist b (RCON (2 * i))
  let kg1 := shufps b kg1 ![3, 3, 1, 1]
  let m := shufps b a ![0, 3, 0, 1]
  let tmp := shufps b m ![3, 1, 1, 2]
  let m := m ^^^ tmp
  let m := m ^^^ kg1
  let rk := rk.set (3 * i + 1) m
  let n := shufps a b ![2, 3, 0, 1]
  let n := partial_sum_words n
  let first := pshufd m ![3, 3, 3, 3]
  let n := n ^^^ first
  let rk := rk.set (3 * i + 2) n
  let kg2 := keygenassist n (RCON (2 * i + 1))
  let kg2 := splat_rot_sub_word_3 kg2
  let o := shufps m n ![2, 3, 0, 1]
  let o := partial_sum_words o
  let o := o ^^^ kg2
  let rk := rk.set (3 * i + 3) o
  if 3 * i + 4 < 13 then
    let p := shufps n ZERO ![2, 3, 0, 0]
    let tmp := pshufd p ![3, 0, 3, 3]
    let p := p ^^^ tmp
    let last := shufps o p ![3, 3, 3, 3]
    let p := p ^^^ last
    rk.set (3 * i + 4) p
  else rk

/-- `expand256!(rk => [i, tail..])`: round keys `2i + 2` and `2i + 3` for each `i`, and only
`2i + 2` for the last. -/
def expand256 : List Nat → List Block → List Block
  | [], rk => rk
  | [i], rk =>
    rk.set (2 * i + 2) (expand128 (rk.getD (2 * i) default) (rk.getD (2 * i + 1) default)
      splat_rot_sub_word_3 (RCON i))
  | i :: tail, rk =>
    let rk := rk.set (2 * i + 2) (expand128 (rk.getD (2 * i) default) (rk.getD (2 * i + 1) default)
      splat_rot_sub_word_3 (RCON i))
    let rk := rk.set (2 * i + 3) (expand128 (rk.getD (2 * i + 1) default)
      (rk.getD (2 * i + 2) default) splat_sub_word_3 (RCON i))
    expand256 tail rk

/-- `Block::try_from(&key[start..start + 16]).unwrap()` on a key array, which holds those
sixteen bytes. -/
def key_block (key : List (BitVec 8)) (start : Nat) : Block :=
  Block.from_block ⟨fun j => key.getD (start + j) 0⟩

/-- `expand_key_128`: round key 0 is the key, and `expand128!(round_keys => [0, …, 9])` makes
round key `i + 1` from round key `i`. -/
def expand_key_128 (key : List (BitVec 8)) (round_keys : List Block) : List Block :=
  (List.range 10).foldl
    (fun rk i => rk.set (i + 1)
      (expand128 (rk.getD i default) (rk.getD i default) splat_rot_sub_word_3 (RCON i)))
    (round_keys.set 0 (key_block key 0))

/-- `expand_key_192`: round key 0 is bytes 0 to 15 of the key, round key 1 bytes 16 to 23 (the
bytes 8 to 23 shifted right by `2 * COL_SHIFT`), then `expand192!(round_keys => [0, 1, 2, 3])`. -/
def expand_key_192 (key : List (BitVec 8)) (round_keys : List Block) : List Block :=
  let tmp := key_block key 8
  [0, 1, 2, 3].foldl expand192
    ((round_keys.set 0 (key_block key 0)).set 1 ⟨_mm_srli_si128 tmp.val (2 * COL_SHIFT)⟩)

/-- `expand_key_256`: round keys 0 and 1 are the key, then `expand256!(round_keys => [0, …, 6])`. -/
def expand_key_256 (key : List (BitVec 8)) (round_keys : List Block) : List Block :=
  expand256 [0, 1, 2, 3, 4, 5, 6] ((round_keys.set 0 (key_block key 0)).set 1 (key_block key 16))

theorem expand192_length (rk : List Block) (i : Nat) : (expand192 rk i).length = rk.length := by
  simp only [expand192, apply_ite List.length, List.length_set, ite_self]

theorem expand256_length (is : List Nat) (rk : List Block) : (expand256 is rk).length = rk.length := by
  induction is generalizing rk with
  | nil => rfl
  | cons i tail ih =>
    cases tail with
    | nil => simp [expand256]
    | cons j tail =>
      simp only [expand256]
      rw [ih]
      simp

theorem foldl_set_length {α β : Type} (f : List α → β → Nat) (g : List α → β → α) (xs : List β)
    (rk : List α) : (xs.foldl (fun rk i => rk.set (f rk i) (g rk i)) rk).length = rk.length := by
  induction xs generalizing rk <;> simp_all

/-- `From<Key> for Schedule`: `mem::zeroed()` round keys, 11, 13 or 15 of them, expanded. -/
def Schedule.from (key : aes.Key) : aes.Schedule Block :=
  match key with
  | .Aes128 arr _ => ⟨expand_key_128 arr (List.replicate 11 default), by
      rw [expand_key_128, foldl_set_length]; simp [aes.ValidRounds]⟩
  | .Aes192 arr _ => ⟨expand_key_192 arr (List.replicate 13 default), by
      have h : ∀ is : List Nat, ∀ rk : List Block, (is.foldl expand192 rk).length = rk.length :=
        fun is => by induction is <;> simp_all [expand192_length]
      rw [expand_key_192, h]; simp [aes.ValidRounds]⟩
  | .Aes256 arr _ => ⟨expand_key_256 arr (List.replicate 15 default), by
      rw [expand_key_256, expand256_length]; simp [aes.ValidRounds]⟩

/-! ## The columns of a block -/

theorem lt_four_cases {c : Nat} (hc : c < 4) : c = 0 ∨ c = 1 ∨ c = 2 ∨ c = 3 := by omega

/-- Column `c` of a block: bytes `4c` to `4c + 3`, row 0 first; a FIPS-197 word. -/
def col (b : Block) (c : Nat) : aes.KeyWord := fun r => byte b.val (r + 4 * c)

theorem col_xor (a b : Block) (c : Nat) : col (a ^^^ b) c = (col a c).xor (col b c) := by
  funext r
  exact byte_xor _ _ _

theorem u32_to_le_bytes_lane (x : __m128i) (c : Nat) :
    aes.u32_to_le_bytes (lane x c) = col ⟨x⟩ c := by
  funext r
  apply BitVec.eq_of_getLsbD_eq
  intro ⟨i, hi⟩
  have hr := r.isLt
  have hlt : 8 * r.val + i < 32 := by omega
  simp only [aes.u32_to_le_bytes, lane, col, byte, BitVec.getLsbD_extractLsb', hi, hlt,
    decide_True, Bool.true_and]
  congr 1
  omega

theorem getLsbD_of_lanes (d0 d1 d2 d3 : BitVec 32) (i : Nat) :
    (of_lanes d0 d1 d2 d3).getLsbD i = (d3 ++ d2 ++ d1 ++ d0 : BitVec (32 + 32 + 32 + 32)).getLsbD i :=
  rfl

theorem lane_of_lanes (d0 d1 d2 d3 : BitVec 32) (c : Fin 4) :
    lane (of_lanes d0 d1 d2 d3) c = ![d0, d1, d2, d3] c := by
  apply BitVec.eq_of_getLsbD_eq
  intro ⟨i, hi⟩
  simp only [lane, BitVec.getLsbD_extractLsb', hi, decide_True, Bool.true_and, getLsbD_of_lanes,
    BitVec.getLsbD_append]
  fin_cases c <;>
    simp (disch := omega) only [decide_eq_true, decide_eq_false, cond_true, cond_false, Fin.isValue,
      Fin.zero_eta, Fin.mk_one, Matrix.cons_val_zero, Matrix.cons_val_one, Matrix.head_cons,
      Matrix.cons_val_two, Matrix.tail_cons] <;> congr 1 <;> omega

theorem col_of_lanes (d0 d1 d2 d3 : BitVec 32) {c : Nat} (hc : c < 4) :
    col ⟨of_lanes d0 d1 d2 d3⟩ c = aes.u32_to_le_bytes (![d0, d1, d2, d3] ⟨c, hc⟩) := by
  rw [← u32_to_le_bytes_lane, ← lane_of_lanes]

/-- The field of `permute_col_mask(ws)` for doubleword `k` is `ws[k] & 3`. -/
theorem control_permute_col_mask (ws : Fin 4 → BitVec 8) {k : Nat} (hk : k < 4) :
    control (permute_col_mask ws) k = (ws ⟨k, hk⟩).toNat % 4 := by
  have h : (permute_col_mask ws).extractLsb' (2 * k) 2 = (ws ⟨k, hk⟩).setWidth 2 := by
    apply BitVec.eq_of_getLsbD_eq
    intro i
    rcases lt_four_cases hk with rfl | rfl | rfl | rfl <;>
      fin_cases i <;> simp [permute_col_mask]
  rw [control, h, BitVec.toNat_setWidth]

@[simp] theorem Block.eta_val (b : Block) : (⟨b.val⟩ : Block) = b := rfl

theorem col_shufps (a b : Block) (ws : Fin 4 → BitVec 8) {c : Nat} (hc : c < 4) :
    col (shufps a b ws) c = col (if c < 2 then a else b) ((ws ⟨c, hc⟩).toNat % 4) := by
  rw [shufps, _mm_shuffle_ps, col_of_lanes _ _ _ _ hc]
  rcases lt_four_cases hc with rfl | rfl | rfl | rfl <;>
    simp [control_permute_col_mask, u32_to_le_bytes_lane]

theorem col_pshufd (a : Block) (ws : Fin 4 → BitVec 8) {c : Nat} (hc : c < 4) :
    col (pshufd a ws) c = col a ((ws ⟨c, hc⟩).toNat % 4) := by
  rw [pshufd, _mm_shuffle_epi32, col_of_lanes _ _ _ _ hc]
  rcases lt_four_cases hc with rfl | rfl | rfl | rfl <;>
    simp [control_permute_col_mask, u32_to_le_bytes_lane]

theorem u32_to_le_bytes_from_le_bytes (bytes : Fin 4 → BitVec 8) (k : Fin 4) :
    aes.u32_to_le_bytes (aes.u32_from_le_bytes bytes) k = bytes k := by
  apply BitVec.eq_of_getLsbD_eq
  intro ⟨i, hi⟩
  simp only [aes.u32_to_le_bytes, BitVec.getLsbD_extractLsb', hi, decide_True, Bool.true_and]
  exact aes.getLsbD_u32_from_le_bytes bytes k hi

theorem u32_to_le_bytes_SubWord (d : BitVec 32) :
    aes.u32_to_le_bytes (SubWord d) = aes.SubWord (aes.u32_to_le_bytes d) :=
  funext (u32_to_le_bytes_from_le_bytes fun k => aes.sbox (aes.u32_to_le_bytes d k))

theorem u32_to_le_bytes_RotWord (d : BitVec 32) :
    aes.u32_to_le_bytes (RotWord d) = aes.RotWord (aes.u32_to_le_bytes d) := by
  funext k
  apply BitVec.eq_of_getLsbD_eq
  intro ⟨i, hi⟩
  have hk := k.isLt
  simp only [aes.u32_to_le_bytes, RotWord, aes.RotWord, BitVec.getLsbD_extractLsb', hi, decide_True,
    Bool.true_and, BitVec.getLsbD_rotateRight, Fin.val_add, Fin.val_one]
  by_cases h3 : k.val < 3 <;>
    simp (disch := omega) only [Nat.reduceMod, decide_eq_true, decide_eq_false, cond_true,
      cond_false, Bool.true_and, Bool.not_false] <;> congr 1 <;> omega

theorem u32_to_le_bytes_xor (a b : BitVec 32) :
    aes.u32_to_le_bytes (a ^^^ b) = aes.KeyWord.xor (aes.u32_to_le_bytes a) (aes.u32_to_le_bytes b) := by
  funext k
  ext i
  simp [aes.u32_to_le_bytes]

theorem col_keygenassist (a : Block) (rc : BitVec 8) {c : Nat} (hc : c < 4) :
    col (keygenassist a rc) c =
      let X := col a (if c < 2 then 1 else 3)
      if c % 2 = 0 then aes.SubWord X
      else (aes.RotWord (aes.SubWord X)).xor fun k => if k = 0 then rc else 0 := by
  have hrc : aes.u32_to_le_bytes (rc.setWidth 32) = fun k => if k = 0 then rc else 0 :=
    funext (aes.u32_to_le_bytes_setWidth rc)
  rw [keygenassist, _mm_aeskeygenassist_si128, col_of_lanes _ _ _ _ hc]
  rcases lt_four_cases hc with rfl | rfl | rfl | rfl <;>
    simp [u32_to_le_bytes_SubWord, u32_to_le_bytes_RotWord, u32_to_le_bytes_xor,
      u32_to_le_bytes_lane, hrc]

theorem col_srli (x : Block) {c : Nat} (hc : c < 4) :
    col ⟨_mm_srli_si128 x.val (2 * COL_SHIFT)⟩ c = if c < 2 then col x (c + 2) else fun _ => 0 := by
  funext r
  apply BitVec.eq_of_getLsbD_eq
  intro ⟨i, hi⟩
  have hr := r.isLt
  rcases lt_four_cases hc with rfl | rfl | rfl | rfl <;>
    simp (disch := omega) [col, byte, _mm_srli_si128, COL_SHIFT, BitVec.getLsbD_ushiftRight, hi,
      BitVec.getLsbD_ge] <;> congr 1 <;> omega

theorem col_key_block (key : List (BitVec 8)) (start : Nat) {c : Nat} (hc : c < 4) :
    col (key_block key start) c = fun r : Fin 4 => key.getD (start + (r.val + 4 * c)) 0 := by
  funext r
  exact byte_of_bytes _ (by omega)

theorem col_ZERO {c : Nat} (hc : c < 4) : col ZERO c = fun _ => 0 := by
  funext r
  rw [col, ZERO, block_from_cols, byte_of_bytes _ (by omega)]
  generalize (⟨_, _⟩ : Fin 4) = j
  fin_cases j <;> rfl

/-! ## The macros on columns -/

/-- `partial_sum_words` makes column `c` the XOR of columns `0` to `c`. -/
theorem col_partial_sum_words (x : Block) {c : Nat} (hc : c < 4) :
    col (partial_sum_words x) c = aes.running_xor (col x) c := by
  rcases lt_four_cases hc with rfl | rfl | rfl | rfl <;>
    funext k <;>
    simp [partial_sum_words, col_xor, col_shufps, col_ZERO, aes.running_xor] <;> ac_rfl

theorem col_pshufd_3 (a : Block) {c : Nat} (hc : c < 4) : col (pshufd a ![3, 3, 3, 3]) c = col a 3 := by
  rcases lt_four_cases hc with rfl | rfl | rfl | rfl <;> simp [col_pshufd]

theorem col_splat_rot_sub_word_3 (kg : Block) (rc : BitVec 8) {c : Nat} (hc : c < 4) :
    col (splat_rot_sub_word_3 (keygenassist kg rc)) c =
      (aes.RotWord (aes.SubWord (col kg 3))).xor fun k => if k = 0 then rc else 0 := by
  rcases lt_four_cases hc with rfl | rfl | rfl | rfl <;>
    simp [splat_rot_sub_word_3, col_pshufd, col_keygenassist]

theorem col_splat_sub_word_3 (kg : Block) (rc : BitVec 8) {c : Nat} (hc : c < 4) :
    col (splat_sub_word_3 (keygenassist kg rc)) c = aes.SubWord (col kg 3) := by
  rcases lt_four_cases hc with rfl | rfl | rfl | rfl <;>
    simp [splat_sub_word_3, col_pshufd, col_keygenassist]

/-- `expand128!` makes column `c` the XOR of columns `0` to `c` of `a` and of the splatted word. -/
theorem col_expand128 (a kg : Block) (splat : Block → Block) (rc : BitVec 8) {c : Nat} (hc : c < 4) :
    col (expand128 a kg splat rc) c =
      (aes.running_xor (col a) c).xor (col (splat (keygenassist kg rc)) c) := by
  rw [expand128, col_xor, col_partial_sum_words _ hc]

/-- The word of `RCON[i]` is `Rcon[i + 1]`. -/
theorem rcon_word_RCON {i : Nat} (hi : i < 10) :
    (fun k : Fin 4 => if k = 0 then RCON i else 0) = aes.Rcon (i + 1) := by
  funext k
  rw [RCON, aes.round_constants_getD i hi]
  rfl

/-! ## The round keys hold the standard's words -/

theorem getD_set_self {l : List Block} {i : Nat} (h : i < l.length) (b : Block) :
    (l.set i b).getD i default = b := by
  rw [List.getD_eq_getElem?_getD, List.getElem?_set_self h, Option.getD_some]

theorem getD_set_ne {l : List Block} {i j : Nat} (h : i ≠ j) (b : Block) :
    (l.set i b).getD j default = l.getD j default := by
  rw [List.getD_eq_getElem?_getD, List.getD_eq_getElem?_getD, List.getElem?_set_ne h]

section words

variable (key : aes.Key)

/-- Round keys `0` to `m - 1` hold words `0` to `4m - 1` of the standard's expansion of `key`:
column `c` of round key `r` is word `4r + c`. -/
def KeysTo (m : Nat) (rk : List Block) : Prop :=
  ∀ r < m, ∀ c < 4, col (rk.getD r default) c = aes.key_expansion key (4 * r + c)

/-- Reading word `n = 4r + c` back from a round key below `m`. -/
theorem KeysTo.col_eq {m : Nat} {rk : List Block} (h : KeysTo key m rk) {r c n : Nat} (hr : r < m)
    (hc : c < 4) (hn : n = 4 * r + c) : col (rk.getD r default) c = aes.key_expansion key n :=
  hn ▸ h r hr c hc

theorem KeysTo.set_succ {m : Nat} {rk : List Block} (h : KeysTo key m rk) (hm : m < rk.length)
    {b : Block} (hb : ∀ c < 4, col b c = aes.key_expansion key (4 * m + c)) :
    KeysTo key (m + 1) (rk.set m b) := by
  intro r hr c hc
  rcases (by omega : r < m ∨ r = m) with hr | rfl
  · rw [getD_set_ne (by omega)]
    exact h r hr c hc
  · rw [getD_set_self hm]
    exact hb c hc

theorem KeysTo.set_of_le {m j : Nat} {rk : List Block} (h : KeysTo key m rk) (hj : m ≤ j) (b : Block) :
    KeysTo key m (rk.set j b) := fun r hr c hc => by
  rw [getD_set_ne (by omega)]
  exact h r hr c hc

/-- Column `c` of the sixteen key bytes from byte `4s` is word `s + c`, while that is a word of
the key. -/
theorem col_key_block_key_expansion {s c : Nat} (hc : c < 4) (hs : s + c < key.len / 4) :
    col (key_block key.as_slice (4 * s)) c = aes.key_expansion key (s + c) := by
  rw [col_key_block _ _ hc, aes.key_expansion, dif_pos hs]
  funext r
  congr 1
  omega

/-- Round key 0 is the first sixteen bytes of the key, words 0 to 3. -/
theorem KeysTo.key_block_zero {rk : List Block} (hl : 0 < rk.length) :
    KeysTo key 1 (rk.set 0 (key_block key.as_slice 0)) := by
  have hs := key.shape
  exact KeysTo.set_succ key (fun r hr => absurd hr (Nat.not_lt_zero r)) hl
    fun c hc => col_key_block_key_expansion key (s := 0) hc (by omega)

/-- `expand128!` with `splat_rot_sub_word_3` and `RCON[j]` writes words `s = Nk·(j + 1)` to
`s + 3` when `a` holds the four words from `s - Nk` and `kg` holds word `s - 1` in column 3. -/
theorem expand128_rot_key_expansion {n s j : Nat} (hnk : key.len / 4 = n) (h4 : 4 ≤ n)
    (hs : s = n * (j + 1)) (hj : j < 10) {a kg : Block}
    (ha : ∀ c < 4, col a c = aes.key_expansion key (s - n + c))
    (hkg : col kg 3 = aes.key_expansion key (s - 1)) :
    ∀ c < 4, col (expand128 a kg splat_rot_sub_word_3 (RCON j)) c = aes.key_expansion key (s + c) := by
  subst hnk hs
  have hle : key.len / 4 ≤ key.len / 4 * (j + 1) := Nat.le_mul_of_pos_right _ (Nat.succ_pos j)
  have h0 := aes.key_expansion_rot key hle (Nat.mul_mod_right _ _)
  rw [Nat.mul_div_cancel_left _ (by omega), ← hkg] at h0
  intro c hc
  rw [col_expand128 _ _ _ _ hc, col_splat_rot_sub_word_3 _ _ hc, rcon_word_RCON hj]
  refine aes.key_expansion_running_xor key _ hle ha h0 (fun c' h1 h2 => ?_) c hc
  rw [Nat.mul_add_mod, Nat.mod_eq_of_lt (by omega)]
  omega

/-- For a 256-bit key, `expand128!` with `splat_sub_word_3` writes words `s` to `s + 3` for
`s mod 8 = 4`, when `a` holds the four words from `s - 8` and `kg` holds word `s - 1` in
column 3. -/
theorem expand128_sub_key_expansion (hnk : key.len / 4 = 8) {s : Nat} (hs : s % 8 = 4) (h12 : 12 ≤ s)
    {a kg : Block} (ha : ∀ c < 4, col a c = aes.key_expansion key (s - 8 + c))
    (hkg : col kg 3 = aes.key_expansion key (s - 1)) (rc : BitVec 8) :
    ∀ c < 4, col (expand128 a kg splat_sub_word_3 rc) c = aes.key_expansion key (s + c) := by
  have h0 := aes.key_expansion_sub key (i := s) (by omega) ⟨by omega, by rw [hnk]; omega⟩
  rw [hnk, ← hkg] at h0
  intro c hc
  rw [col_expand128 _ _ _ _ hc, col_splat_sub_word_3 _ _ hc]
  exact aes.key_expansion_running_xor key _ (by omega) (by rwa [hnk]) (by rwa [hnk])
    (fun c' h1 h2 => by rw [hnk]; omega) c hc

/-- `expand_key_128` writes the eleven round keys of a 128-bit key. -/
theorem keys_to_expand_key_128 (hk : key.len = 16) :
    (expand_key_128 key.as_slice (List.replicate 11 default)).length = 11 ∧
      KeysTo key 11 (expand_key_128 key.as_slice (List.replicate 11 default)) := by
  have h0 : KeysTo key 1 ((List.replicate 11 default).set 0 (key_block key.as_slice 0)) :=
    KeysTo.key_block_zero key (by simp)
  have h := util.foldl_range'_invariant (fun i rk => rk.length = 11 ∧ KeysTo key (i + 1) rk) _
    (m := 0) (d := 10) (fun i rk _ hi ⟨hl, h⟩ => ⟨by rw [List.length_set, hl],
      h.set_succ key (by omega) (expand128_rot_key_expansion key (n := 4) (s := 4 * (i + 1)) (j := i)
        (by omega) le_rfl (by omega) (by omega)
        (fun c hc => h.col_eq key (r := i) (by omega) hc (by omega))
        (h.col_eq key (r := i) (by omega) (by decide) (by omega)))⟩)
    ⟨by simp, h0⟩
  rw [expand_key_128, List.range_eq_range']
  exact h

/-- `expand256!` at index `i` first writes round key `2i + 2`, words `8i + 8` to `8i + 11`. -/
theorem KeysTo.expand256_rot (hk : key.len = 32) {i : Nat} (hi : i < 7) {rk : List Block}
    (hl : rk.length = 15) (h : KeysTo key (2 * i + 2) rk) :
    KeysTo key (2 * i + 3) (rk.set (2 * i + 2) (expand128 (rk.getD (2 * i) default)
      (rk.getD (2 * i + 1) default) splat_rot_sub_word_3 (RCON i))) :=
  h.set_succ key (by omega) (expand128_rot_key_expansion key (n := 8) (s := 4 * (2 * i + 2))
    (j := i) (by omega) (by omega) (by omega) (by omega)
    (fun c hc => h.col_eq key (r := 2 * i) (by omega) hc (by omega))
    (h.col_eq key (r := 2 * i + 1) (by omega) (by decide) (by omega)))

/-- Then round key `2i + 3`, words `8i + 12` to `8i + 15`, from round keys `2i + 1` and `2i + 2`. -/
theorem KeysTo.expand256_sub (hk : key.len = 32) {i : Nat} (rc : BitVec 8) {rk : List Block}
    (hl : 2 * i + 3 < rk.length) (h : KeysTo key (2 * i + 3) rk) :
    KeysTo key (2 * i + 4) (rk.set (2 * i + 3) (expand128 (rk.getD (2 * i + 1) default)
      (rk.getD (2 * i + 2) default) splat_sub_word_3 rc)) :=
  h.set_succ key hl (expand128_sub_key_expansion key (s := 4 * (2 * i + 3)) (by omega) (by omega)
    (by omega) (fun c hc => h.col_eq key (r := 2 * i + 1) (by omega) hc (by omega))
    (h.col_eq key (r := 2 * i + 2) (by omega) (by decide) (by omega)) rc)

/-- `expand256!` over the indices `i` to `6` completes the fifteen round keys of a 256-bit key. -/
theorem keys_to_expand256 (hk : key.len = 32) (d : Nat) : ∀ i (rk : List Block), i + d = 6 →
    rk.length = 15 → KeysTo key (2 * i + 2) rk →
      KeysTo key 15 (expand256 (List.range' i (d + 1)) rk) := by
  induction d with
  | zero =>
    intro i rk hd hl h
    obtain rfl : i = 6 := by omega
    exact h.expand256_rot key hk (by decide) hl
  | succ d ih =>
    intro i rk hd hl h
    have h1 := h.expand256_rot key hk (by omega) hl
    rw [List.range'_succ, List.range'_succ]
    simp only [expand256]
    rw [← List.range'_succ]
    exact ih (i + 1) _ (by omega) (by simp [hl])
      (h1.expand256_sub key hk (RCON i) (by simp [hl]; omega))

/-- `expand_key_256` writes the fifteen round keys of a 256-bit key. -/
theorem keys_to_expand_key_256 (hk : key.len = 32) :
    (expand_key_256 key.as_slice (List.replicate 15 default)).length = 15 ∧
      KeysTo key 15 (expand_key_256 key.as_slice (List.replicate 15 default)) := by
  refine ⟨by rw [expand_key_256, expand256_length]; simp, ?_⟩
  exact keys_to_expand256 key hk 6 0 _ rfl (by simp) ((KeysTo.key_block_zero key (by simp)).set_succ
    key (by simp) fun c hc => col_key_block_key_expansion key (s := 4) hc (by omega))

/-- Round key `r` of a 192-bit schedule before `expand192!` completes it: words `4r` and `4r + 1`
in columns 0 and 1, and zero in column 3. -/
def HalfKey (r : Nat) (b : Block) : Prop :=
  col b 0 = aes.key_expansion key (4 * r) ∧ col b 1 = aes.key_expansion key (4 * r + 1) ∧
    col b 3 = fun _ => 0

/-- Round key `3i + 1` of `expand192!`, `m`: words `12i + 4` and `12i + 5` kept from `b`, then
words `12i + 6` and `12i + 7`, from `a` (words `12i` to `12i + 3`) and `RCON[2i]`. -/
theorem expand192_m_key_expansion (hk : key.len = 24) {i : Nat} (hi : i < 4) {a b : Block}
    (ha : ∀ c < 4, col a c = aes.key_expansion key (12 * i + c)) (hb : HalfKey key (3 * i + 1) b) :
    ∀ c < 4, col (shufps b a ![0, 3, 0, 1] ^^^ shufps b (shufps b a ![0, 3, 0, 1]) ![3, 1, 1, 2] ^^^
      shufps b (keygenassist b (RCON (2 * i))) ![3, 3, 1, 1]) c =
        aes.key_expansion key (4 * (3 * i + 1) + c) := by
  obtain ⟨hb0, hb1, hb3⟩ := hb
  have hnk : key.len / 4 = 6 := by omega
  have hx := aes.key_expansion_running_xor key (s := 12 * i + 6) (n := 2) (a := col a)
    ((aes.RotWord (aes.SubWord (col b 1))).xor fun k => if k = 0 then RCON (2 * i) else 0)
    (by omega) (fun j hj => (ha j (by omega)).trans (congrArg _ (by omega)))
    (by rw [aes.key_expansion_rot key (by omega) (by rw [hnk]; omega), hb1,
      rcon_word_RCON (by omega), hnk, show (12 * i + 6) / 6 = 2 * i + 1 by omega,
      show 12 * i + 6 - 1 = 4 * (3 * i + 1) + 1 by omega]; rfl)
    (fun c h1 h2 => by rw [hnk]; omega)
  intro c hc
  rcases lt_four_cases hc with rfl | rfl | rfl | rfl
  · rw [Nat.add_zero, ← hb0]
    funext k
    simp [col_xor, col_shufps, hb3]
  · rw [← hb1]
    funext k
    simp [col_xor, col_shufps, hb3]
  · rw [show 4 * (3 * i + 1) + 2 = 12 * i + 6 + 0 by omega, ← hx 0 (by decide)]
    funext k
    simp [col_xor, col_shufps, col_keygenassist, hb3, aes.running_xor]
  · rw [show 4 * (3 * i + 1) + 3 = 12 * i + 6 + 1 by omega, ← hx 1 (by decide)]
    funext k
    simp [col_xor, col_shufps, col_keygenassist, hb3, aes.running_xor]
    ac_rfl

/-- Round key `3i + 2` of `expand192!`, `n`: words `12i + 8` to `12i + 11`, the running XOR of
words `12i + 2` to `12i + 5` and word `12i + 7`, the last column of `m`. -/
theorem expand192_n_key_expansion (hk : key.len = 24) {i : Nat} {a b m : Block}
    (ha : ∀ c < 4, col a c = aes.key_expansion key (12 * i + c)) (hb : HalfKey key (3 * i + 1) b)
    (hm : col m 3 = aes.key_expansion key (4 * (3 * i + 1) + 3)) :
    ∀ c < 4, col (partial_sum_words (shufps a b ![2, 3, 0, 1]) ^^^ pshufd m ![3, 3, 3, 3]) c =
      aes.key_expansion key (4 * (3 * i + 2) + c) := by
  have hnk : key.len / 4 = 6 := by omega
  intro c hc
  rw [col_xor, col_partial_sum_words _ hc, col_pshufd_3 _ hc,
    show 4 * (3 * i + 2) + c = 12 * i + 8 + c by omega]
  refine aes.key_expansion_running_xor key (s := 12 * i + 8) (n := 4) _ (by omega)
    (fun j hj => ?_) ?_ (fun c h1 h2 => by rw [hnk]; omega) c hc
  · rw [col_shufps _ _ _ hj]
    rcases lt_four_cases hj with rfl | rfl | rfl | rfl <;>
      simp [ha, hb.1, hb.2.1] <;> exact congrArg _ (by omega)
  · rw [hm, aes.key_expansion_plain key (by omega) (by rw [hnk]; omega) (by rw [hnk]; omega)]
    exact congrArg (fun x => (aes.key_expansion key (12 * i + 8 - key.len / 4)).xor
      (aes.key_expansion key x)) (by omega)

/-- Round key `3i + 3` of `expand192!`, `o`: words `12i + 12` to `12i + 15`, made as `expand128!`
makes them from words `12i + 6` to `12i + 9` and `RCON[2i + 1]`. -/
theorem expand192_o_key_expansion (hk : key.len = 24) {i : Nat} (hi : i < 4) {m n : Block}
    (hm : ∀ c < 4, col m c = aes.key_expansion key (4 * (3 * i + 1) + c))
    (hn : ∀ c < 4, col n c = aes.key_expansion key (4 * (3 * i + 2) + c)) :
    ∀ c < 4, col (partial_sum_words (shufps m n ![2, 3, 0, 1]) ^^^
      splat_rot_sub_word_3 (keygenassist n (RCON (2 * i + 1)))) c =
        aes.key_expansion key (4 * (3 * i + 3) + c) :=
  expand128_rot_key_expansion key (n := 6) (s := 4 * (3 * i + 3)) (j := 2 * i + 1)
    (by omega) (by omega) (by omega) (by omega)
    (fun c hc => by
      rw [col_shufps _ _ _ hc]
      rcases lt_four_cases hc with rfl | rfl | rfl | rfl <;>
        simp [hm, hn] <;> exact congrArg _ (by omega))
    ((hn 3 (by decide)).trans (congrArg _ (by omega)))

/-- The first half of round key `3i + 4` of `expand192!`, `p`: words `12i + 16` and `12i + 17`,
from the last two columns of `n` and the last column of `o`, and zero in column 3. -/
theorem expand192_p_key_expansion (hk : key.len = 24) {i : Nat} {n o : Block}
    (hn : ∀ c < 4, col n c = aes.key_expansion key (4 * (3 * i + 2) + c))
    (ho : col o 3 = aes.key_expansion key (4 * (3 * i + 3) + 3)) :
    HalfKey key (3 * i + 4) (shufps n ZERO ![2, 3, 0, 0] ^^^
      pshufd (shufps n ZERO ![2, 3, 0, 0]) ![3, 0, 3, 3] ^^^
      shufps o (shufps n ZERO ![2, 3, 0, 0] ^^^ pshufd (shufps n ZERO ![2, 3, 0, 0]) ![3, 0, 3, 3])
        ![3, 3, 3, 3]) := by
  have hnk : key.len / 4 = 6 := by omega
  have hx := aes.key_expansion_running_xor key (s := 12 * i + 16) (n := 2)
    (a := fun j => col n (2 + j)) (col o 3) (by omega)
    (fun j hj => (hn (2 + j) (by omega)).trans (congrArg _ (by omega)))
    (by
      rw [ho, aes.key_expansion_plain key (by omega) (by rw [hnk]; omega) (by rw [hnk]; omega)]
      exact congrArg (fun x => (aes.key_expansion key (12 * i + 16 - key.len / 4)).xor
        (aes.key_expansion key x)) (by omega))
    (fun c h1 h2 => by rw [hnk]; omega)
  refine ⟨?_, ?_, ?_⟩
  · rw [show 4 * (3 * i + 4) = 12 * i + 16 + 0 by omega, ← hx 0 (by decide)]
    funext k
    simp [col_xor, col_shufps, col_pshufd, col_ZERO, aes.running_xor]
  · rw [show 4 * (3 * i + 4) + 1 = 12 * i + 16 + 1 by omega, ← hx 1 (by decide)]
    funext k
    simp [col_xor, col_shufps, col_pshufd, col_ZERO, aes.running_xor]
    ac_rfl
  · funext k
    simp [col_xor, col_shufps, col_pshufd, col_ZERO]

/-- `expand192!` at index `i`, from round key `3i` and the first half of round key `3i + 1`, writes
round keys `3i + 1` to `3i + 3` and, unless it is the last index, the first half of `3i + 4`. -/
theorem keys_to_expand192 (hk : key.len = 24) {i : Nat} (hi : i < 4) {rk : List Block}
    (hl : rk.length = 13) (h : KeysTo key (3 * i + 1) rk)
    (hb : HalfKey key (3 * i + 1) (rk.getD (3 * i + 1) default)) :
    KeysTo key (3 * i + 4) (expand192 rk i) ∧
      (3 * i + 4 < 13 → HalfKey key (3 * i + 4) ((expand192 rk i).getD (3 * i + 4) default)) := by
  have ha : ∀ c < 4, col (rk.getD (3 * i) default) c = aes.key_expansion key (12 * i + c) :=
    fun c hc => h.col_eq key (r := 3 * i) (by omega) hc (by omega)
  have hm := expand192_m_key_expansion key hk hi ha hb
  have hn := expand192_n_key_expansion key hk ha hb (hm 3 (by decide))
  have ho := expand192_o_key_expansion key hk hi hm hn
  rw [expand192]
  have hkeys := ((h.set_succ key (by omega) hm).set_succ key (by simp [hl]; omega) hn).set_succ key
    (by simp [hl]; omega) ho
  split_ifs with h13
  · refine ⟨hkeys.set_of_le key le_rfl _, fun _ => ?_⟩
    rw [getD_set_self (by simp [hl]; omega)]
    exact expand192_p_key_expansion key hk hn (ho 3 (by decide))
  · exact ⟨hkeys, fun h' => absurd h' h13⟩

/-- `expand_key_192` writes the thirteen round keys of a 192-bit key. -/
theorem keys_to_expand_key_192 (hk : key.len = 24) :
    (expand_key_192 key.as_slice (List.replicate 13 default)).length = 13 ∧
      KeysTo key 13 (expand_key_192 key.as_slice (List.replicate 13 default)) := by
  have h0 : KeysTo key 1 ((List.replicate 13 default).set 0 (key_block key.as_slice 0)) :=
    KeysTo.key_block_zero key (by simp)
  -- round key 1 holds words 4 and 5, bytes 16 to 23 of the key
  have hb : HalfKey key 1 ⟨_mm_srli_si128 (key_block key.as_slice 8).val (2 * COL_SHIFT)⟩ := by
    refine ⟨?_, ?_, ?_⟩ <;> rw [col_srli _ (by decide)]
    · exact col_key_block_key_expansion key (s := 2) (c := 2) (by decide) (by omega)
    · exact col_key_block_key_expansion key (s := 2) (c := 3) (by decide) (by omega)
    · rfl
  have h := util.foldl_range'_invariant (fun i rk => rk.length = 13 ∧ KeysTo key (3 * i + 1) rk ∧
      (3 * i + 1 < 13 → HalfKey key (3 * i + 1) (rk.getD (3 * i + 1) default))) expand192
    (m := 0) (d := 4) (fun i rk _ hi ⟨hl, h, hb⟩ => ⟨by rw [expand192_length, hl],
      keys_to_expand192 key hk (by omega) hl h (hb (by omega))⟩)
    ⟨by simp, h0.set_of_le key le_rfl _, fun _ => by rw [getD_set_self (by simp)]; exact hb⟩
  rw [expand_key_192, show [0, 1, 2, 3] = List.range' 0 4 from rfl]
  exact ⟨h.1, h.2.1⟩

/-- The round keys of `Schedule::from(key)`: as many as the key has, each holding its four words
of the standard. -/
theorem keys_to_schedule_from : (Schedule.from key).round_keys.length = key.num_round_keys ∧
    KeysTo key key.num_round_keys (Schedule.from key).round_keys := by
  cases key with
  | Aes128 arr h =>
    simp only [Schedule.from]
    exact keys_to_expand_key_128 (.Aes128 arr h) h
  | Aes192 arr h =>
    simp only [Schedule.from]
    exact keys_to_expand_key_192 (.Aes192 arr h) h
  | Aes256 arr h =>
    simp only [Schedule.from]
    exact keys_to_expand_key_256 (.Aes256 arr h) h

/-- Round keys that hold all the standard's words are, read through `transmute`, the reference
schedule. -/
theorem KeysTo.map_into_block {rk : List Block} (hl : rk.length = key.num_round_keys)
    (h : KeysTo key key.num_round_keys rk) :
    rk.map Block.into_block = (aes.simple.Schedule.from .little key).round_keys := by
  have href := (aes.ExpandedTo.schedule_from key).1
  refine List.ext_getElem (by rw [List.length_map, hl, href]) fun r h1 h2 => ?_
  refine aes.Block.ext_get fun row c => ?_
  have hr : r < key.num_round_keys := by rwa [href] at h2
  rw [List.getElem_map, ← List.getD_eq_getElem _ default, ← List.getD_eq_getElem _ default,
    aes.schedule_from_key_expansion key hr]
  exact congrFun (h r hr c c.isLt) row

end words

/-- `hardware::x86::Schedule::from(K)` holds, byte for byte, the round keys of the reference
schedule `aes::simple::Schedule::from(K)`, for every key of 16, 24 or 32 bytes. -/
theorem schedule_from_round_keys_eq (key : aes.Key) :
    (Schedule.from key).round_keys.map Block.into_block = (aes.simple.Schedule.from .little key).round_keys :=
  (keys_to_schedule_from key).2.map_into_block key (keys_to_schedule_from key).1

end ct_aes.hardware.x86
