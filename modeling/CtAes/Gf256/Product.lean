-- The code computes the product of GF(2⁸): `mul_assign` (gf256/src/lib.rs) for every pair of
-- elements, and each entry `k` of `multiplication_table` (symbolic.rs) for every byte, which
-- it multiplies by `k` read as a polynomial.
import CtAes.Gf256
import CtAes.Gf256.Poly
import CtAes.Util

namespace ct_aes.gf256

/-! ## `mul_assign` -/

theorem and_0x80_ne_zero (v : BitVec 8) : v &&& 0x80 ≠ 0 ↔ v.getLsbD 7 = true := by
  rw [BitVec.toNat_ne, BitVec.toNat_and, show (0x80 : BitVec 8).toNat = 2 ^ 7 from rfl,
    Nat.and_two_pow, BitVec.getLsbD]
  cases v.toNat.testBit 7 <;> simp

/-- `xtime` is `mulx` on the value of the byte. -/
theorem xtime_toNat (v : BitVec 8) : (xtime v).toNat = mulx v.toNat := by
  have hv := v.isLt
  have hbit : v &&& 0x80 ≠ 0 ↔ v.toNat / 128 = 1 := by
    rw [and_0x80_ne_zero, BitVec.getLsbD, Nat.testBit_to_div_mod, decide_eq_true_iff]
    omega
  have hshift : (v <<< 1).toNat = 2 * (v.toNat % 128) := by
    rw [BitVec.toNat_shiftLeft, Nat.shiftLeft_eq]
    omega
  rw [mulx_eq hv, xtime]
  split_ifs with h
  · rw [BitVec.toNat_xor, hshift, hbit.mp h]
    rfl
  · rw [hshift, show v.toNat / 128 = 0 by rw [hbit] at h; omega, zero_mul, Nat.xor_zero]

/-- The loop multiplies `lhs` by the bits of `rhs` it has left. -/
theorem mul_loop_toNat (n : Nat) (lhs rhs : BitVec 8) (h : rhs.toNat < 2 ^ n) :
    (mul_loop n 0 lhs rhs).toNat = gf_mul rhs.toNat lhs.toNat := by
  induction n generalizing lhs rhs with
  | zero =>
    rw [show rhs.toNat = 0 by omega]
    simp [mul_loop, gf_mul]
  | succ n ih =>
    have hhalf : (rhs >>> 1).toNat = rhs.toNat / 2 := by simp [Nat.shiftRight_eq_div_pow]
    have hlow : (if rhs.getLsbD 0 then lhs else 0).toNat = poly_mod (rhs.toNat % 2 * lhs.toNat) := by
      rcases Nat.mod_two_eq_zero_or_one rhs.toNat with h0 | h1
      · simp [BitVec.getLsbD, h0]
      · simp [BitVec.getLsbD, h1, poly_mod_of_lt lhs.isLt]
    rw [mul_loop_succ, BitVec.toNat_xor, ih _ _ (by rw [hhalf, Nat.pow_succ] at *; omega), hhalf,
      xtime_toNat, gf_mul_mulx, hlow]
    conv_rhs => rw [← Nat.div_add_mod rhs.toNat 2]
    unfold gf_mul
    rw [clmul_two_mul_add _ _ (Nat.mod_lt _ Nat.zero_lt_two), poly_mod_xor, poly_mod_two_mul]

/-- `mul_assign` computes the product of GF(2⁸). -/
theorem mul_val_toNat (a b : Element) : (a * b).val.toNat = gf_mul a.val.toNat b.val.toNat := by
  rw [mul_val, mul_loop_toNat 8 _ _ b.val.isLt, gf_mul_comm]

theorem mul_val_eq (a b : Element) : (a * b).val = BitVec.ofNat 8 (gf_mul a.val.toNat b.val.toNat) := by
  apply BitVec.eq_of_toNat_eq
  rw [mul_val_toNat, BitVec.toNat_ofNat, Nat.mod_eq_of_lt (gf_mul_lt _ _)]

/-! ## The entries of the table -/

theorem xorOver_filter (p f : Nat → Bool) (js : List Nat) :
    xorOver false f (js.filter p) = xorOver false (fun j => p j && f j) js := by
  unfold xorOver
  generalize false = acc
  induction js generalizing acc with
  | nil => rfl
  | cons j js ih =>
    simp only [bool_xor_eq] at ih ⊢
    cases h : p j <;> simp [List.filter_cons, h, ih]

/-- The XOR of the bits of `b` that a set lists. -/
theorem xorOver_bits (s : BitSet) (b : BitVec 8) :
    xorOver false b.getLsbD s.bits = xorOver false (fun j => s.val.getLsbD j && b.getLsbD j) (List.range 8) :=
  xorOver_filter _ _ _

theorem xorOver_bits_xor (s t : BitSet) (b : BitVec 8) :
    xorOver false b.getLsbD (s ^^^ t).bits =
      (xorOver false b.getLsbD s.bits ^^ xorOver false b.getLsbD t.bits) := by
  simp only [xorOver_bits, BitSet.xor_val, BitVec.getLsbD_xor, bool_xor_eq, Bool.and_xor_distrib_right]
  exact xorOver_bool_xor _ _ _

theorem xorOver_bits_single (i : Fin 8) (b : BitVec 8) :
    xorOver false b.getLsbD (BitSet.with_single_bit i).bits = b.getLsbD i := by
  fin_cases i <;> simp [xorOver, BitSet.bits, BitSet.with_single_bit, List.range_succ]

/-- Output bit `i` of an entry is the XOR of the input bits that coefficient `i` lists. -/
theorem Multiple.getLsbD_apply (m : Multiple) (b : BitVec 8) {i : Nat} (h : i < 8) :
    (m.apply b).getLsbD i = xorOver false b.getLsbD (m.coefficients ⟨i, h⟩).bits := by
  simp [Multiple.apply, h]

@[simp] theorem Multiple.apply_default (b : BitVec 8) : (default : Multiple).apply b = 0 := by
  ext i
  simp [Multiple.getLsbD_apply _ _ i.isLt, BitSet.bits, xorOver,
    show (default : Multiple).coefficients i = ⟨0⟩ from rfl]

theorem Multiple.apply_increment (m : Multiple) (b : BitVec 8) :
    m.increment.apply b = m.apply b ^^^ b := by
  ext i
  rw [Multiple.getLsbD_apply _ _ i.isLt, BitVec.getLsbD_xor, Multiple.getLsbD_apply _ _ i.isLt,
    Multiple.increment, xorOver_bits_xor, xorOver_bits_single]

theorem Multiple.apply_double (m : Multiple) (b : BitVec 8) :
    m.double.apply b = xtime (m.apply b) := by
  ext i
  have h7' : (0 : Fin 8) - 1 = 7 ∧ (-1 : Fin 8) = 7 := ⟨rfl, rfl⟩
  by_cases h7 : (m.apply b).getLsbD 7
  · rw [xtime, if_pos ((and_0x80_ne_zero _).mpr h7)]
    fin_cases i <;> simp_all [Multiple.double, Function.update, Multiple.getLsbD_apply, xorOver_bits_xor]
  · rw [xtime, if_neg (mt (and_0x80_ne_zero _).mp h7)]
    fin_cases i <;> simp_all [Multiple.double, Function.update, Multiple.getLsbD_apply, xorOver_bits_xor]

/-! ## The table -/

/-- The invariant of the loop of `multiplication_table`: one entry for each index so far, the
multiple by that index. -/
def TableUpTo (i : Nat) (ret : List Multiple) : Prop :=
  ret.length = i ∧ ∀ k < i, ∀ b : BitVec 8, ((ret.getD k default).apply b).toNat = gf_mul k b.toNat

/-- A turn of the loop: `increment` of entry `i - 1` for odd `i`, `double` of entry `i / 2` for
even `i`, both of which are below `i`. -/
theorem TableUpTo.push {i : Nat} (hi : 1 ≤ i) {ret : List Multiple} (h : TableUpTo i ret) :
    TableUpTo (i + 1) (ret ++ [if i % 2 = 1 then (ret.getD (i - 1) default).increment
      else (ret.getD (i / 2) default).double]) := by
  obtain ⟨hl, hv⟩ := h
  refine ⟨by simp [hl], fun k hk b => ?_⟩
  rcases Nat.lt_or_ge k i with hki | hki
  · rw [List.getD_append _ _ _ _ (by omega), hv k hki b]
  obtain rfl : k = i := by omega
  rw [List.getD_append_right _ _ _ _ (by omega), hl, Nat.sub_self, List.getD_cons_zero]
  split_ifs with hodd
  · obtain ⟨j, rfl⟩ : ∃ j, k = 2 * j + 1 := ⟨k / 2, by omega⟩
    rw [Multiple.apply_increment, BitVec.toNat_xor, Nat.add_sub_cancel, hv _ (by omega),
      gf_mul_two_mul_add_one _ b.isLt]
  · obtain ⟨j, rfl⟩ : ∃ j, k = 2 * j := ⟨k / 2, by omega⟩
    rw [Multiple.apply_double, xtime_toNat, Nat.mul_div_cancel_left _ Nat.zero_lt_two,
      hv _ (by omega), gf_mul_two_mul]

theorem multiplication_table_upTo (up_to : Nat) :
    TableUpTo (max up_to 1) (multiplication_table up_to) := by
  have h := util.foldl_range'_invariant TableUpTo _ (m := 1) (d := up_to - 1) (x := [default])
    (fun i ret hi _ h => h.push hi) ⟨rfl, fun k hk b => by
      obtain rfl : k = 0 := by omega
      simp [gf_mul]⟩
  rwa [show 1 + (up_to - 1) = max up_to 1 by omega] at h

/-- Entry `k` of `multiplication_table up_to`, for every `k < up_to`, computes on every byte
`b` the product of `b` and `k` in GF(2⁸); for `k < 256` this is `Element(k) * Element(b)`. -/
theorem multiplication_table_gf_mul (up_to k : Nat) (hk : k < up_to) (b : BitVec 8) :
    (multiplication_table up_to)[k]?.map (fun m => (m.apply b).toNat) = some (gf_mul k b.toNat) ∧
      (k < 256 → (Element.mk (BitVec.ofNat 8 k) * Element.mk b).val.toNat = gf_mul k b.toNat) := by
  obtain ⟨hl, hv⟩ := multiplication_table_upTo up_to
  refine ⟨?_, fun hk8 => ?_⟩
  · have hk' : k < (multiplication_table up_to).length := by omega
    rw [List.getElem?_eq_getElem hk', Option.map_some', ← hv k (by omega) b,
      List.getD_eq_getElem _ _ hk']
  · rw [mul_val_toNat, BitVec.toNat_ofNat, Nat.mod_eq_of_lt hk8]

theorem multiplication_table_gf_mul_fourteen : 14 < 15 ∧
    ((multiplication_table 15)[14]?.map (fun m => (m.apply 0x57).toNat) =
        some (gf_mul 14 (0x57 : BitVec 8).toNat) ∧
      (14 < 256 → (Element.mk (BitVec.ofNat 8 14) * Element.mk 0x57).val.toNat =
        gf_mul 14 (0x57 : BitVec 8).toNat)) :=
  ⟨by decide, multiplication_table_gf_mul 15 14 (by decide) 0x57⟩

end ct_aes.gf256
