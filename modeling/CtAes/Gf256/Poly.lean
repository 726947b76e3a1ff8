-- Polynomials over GF(2), coded by the bits of a natural number (bit `i` is the coefficient of
-- `x^i`): their product, and the remainder modulo x⁸ + x⁴ + x³ + x + 1. This is what the
-- multiplication of gf256/src/lib.rs and the table of symbolic.rs are meant to compute, said
-- without either: `poly_mod` is the remainder of Euclidean division (`poly_mod_eq_iff`), and
-- `gf_mul` the product of GF(2⁸).
import Mathlib.Data.Nat.Bitwise

namespace ct_aes.gf256

/-! ## Bits of a number -/

/-- Induction over the bits of a number, lowest first: `n` is `2 * q + r` with `r` its lowest bit. -/
theorem bits_induction {motive : Nat → Prop} (zero : motive 0)
    (bit : ∀ q r, r < 2 → motive q → motive (2 * q + r)) (n : Nat) : motive n := by
  induction n using Nat.strong_induction_on with
  | _ n ih =>
    rcases Nat.eq_zero_or_pos n with rfl | hn
    · exact zero
    · rw [← Nat.div_add_mod n 2]
      exact bit _ _ (Nat.mod_lt n Nat.zero_lt_two) (ih _ (by omega))

/-- XOR acts on the bits from `n` up and the bits below `n` apart. -/
theorem mul_pow_two_add_xor {n x y : Nat} (hx : x < 2 ^ n) (hy : y < 2 ^ n) (c d : Nat) :
    (2 ^ n * c + x) ^^^ (2 ^ n * d + y) = 2 ^ n * (c ^^^ d) + (x ^^^ y) := by
  apply Nat.eq_of_testBit_eq
  intro j
  simp only [Nat.testBit_xor, Nat.testBit_mul_pow_two_add _ hx, Nat.testBit_mul_pow_two_add _ hy,
    Nat.testBit_mul_pow_two_add _ (Nat.xor_lt_two_pow hx hy)]
  split <;> rfl

theorem two_mul_add_xor {q p r s : Nat} (hr : r < 2) (hs : s < 2) :
    (2 * q + r) ^^^ (2 * p + s) = 2 * (q ^^^ p) + (r ^^^ s) :=
  mul_pow_two_add_xor (n := 1) hr hs q p

theorem two_mul_xor (a b : Nat) : 2 * (a ^^^ b) = 2 * a ^^^ 2 * b := by
  simpa using (two_mul_add_xor (q := a) (p := b) Nat.zero_lt_two Nat.zero_lt_two).symm

/-- Adding the lowest bit is XORing it. -/
theorem two_mul_xor_of_lt {q r : Nat} (hr : r < 2) : 2 * q ^^^ r = 2 * q + r := by
  simpa using two_mul_add_xor (q := q) (p := 0) (s := r) Nat.zero_lt_two hr

theorem lt_two_cases {r : Nat} (hr : r < 2) : r = 0 ∨ r = 1 := by omega

/-! ## The product -/

/-- The product of two polynomials over GF(2): `b` for the constant coefficient of `a`, plus `x`
times the product of the rest of `a` by `b`. -/
def clmul (a b : Nat) : Nat :=
  if a = 0 then 0 else a % 2 * b ^^^ 2 * clmul (a / 2) b
termination_by a
decreasing_by omega

@[simp] theorem clmul_zero_left (b : Nat) : clmul 0 b = 0 := by
  rw [clmul, if_pos rfl]

theorem clmul_two_mul_add (q b : Nat) {r : Nat} (hr : r < 2) :
    clmul (2 * q + r) b = r * b ^^^ 2 * clmul q b := by
  rw [clmul]
  split_ifs with h
  · obtain ⟨rfl, rfl⟩ : q = 0 ∧ r = 0 := by omega
    simp
  · rw [show (2 * q + r) % 2 = r by omega, show (2 * q + r) / 2 = q by omega]

theorem clmul_two_mul (q b : Nat) : clmul (2 * q) b = 2 * clmul q b := by
  simpa using clmul_two_mul_add q b Nat.zero_lt_two

theorem clmul_xor_right (a b c : Nat) : clmul a (b ^^^ c) = clmul a b ^^^ clmul a c := by
  induction a using bits_induction with
  | zero => simp
  | bit q r hr ih =>
    simp only [clmul_two_mul_add q _ hr, ih, two_mul_xor]
    rcases lt_two_cases hr with rfl | rfl <;> simp only [zero_mul, one_mul, Nat.zero_xor]
    ac_rfl

theorem clmul_two_mul_right (a b : Nat) : clmul a (2 * b) = 2 * clmul a b := by
  induction a using bits_induction with
  | zero => simp
  | bit q r hr ih => rw [clmul_two_mul_add q _ hr, clmul_two_mul_add q _ hr, ih, two_mul_xor,
      Nat.mul_left_comm]

theorem clmul_lt_two (a : Nat) {r : Nat} (hr : r < 2) : clmul a r = r * a := by
  induction a using bits_induction with
  | zero => simp
  | bit q s hs ih =>
    rw [clmul_two_mul_add q _ hs, ih, Nat.mul_left_comm, Nat.xor_comm]
    rcases lt_two_cases hr with rfl | rfl
    · simp
    · simp only [one_mul, mul_one, two_mul_xor_of_lt hs]

theorem clmul_comm (a b : Nat) : clmul a b = clmul b a := by
  induction a using bits_induction generalizing b with
  | zero => simp [clmul_lt_two b Nat.zero_lt_two]
  | bit q r hr ih =>
    rw [clmul_two_mul_add q _ hr, ih, ← clmul_two_mul_right, ← two_mul_xor_of_lt hr,
      clmul_xor_right, clmul_lt_two b hr, Nat.xor_comm]

theorem clmul_xor_left (a b c : Nat) : clmul (a ^^^ b) c = clmul a c ^^^ clmul b c := by
  simp only [clmul_comm _ c, clmul_xor_right]

theorem clmul_assoc (a b c : Nat) : clmul (clmul a b) c = clmul a (clmul b c) := by
  induction a using bits_induction with
  | zero => simp
  | bit q r hr ih =>
    rw [clmul_two_mul_add q _ hr, clmul_two_mul_add q _ hr, clmul_xor_left, clmul_two_mul, ih]
    rcases lt_two_cases hr with rfl | rfl <;> simp

/-! ## The remainder -/

/-- The field polynomial `x⁸ + x⁴ + x³ + x + 1`. -/
def modulus : Nat := 0x11b

/-- `x` times a remainder: the product, less the field polynomial once its degree is 8. -/
def mulx (t : Nat) : Nat := if t < 128 then 2 * t else 2 * t ^^^ modulus

@[simp] theorem mulx_zero : mulx 0 = 0 := rfl

/-- The remainder of `a` modulo the field polynomial, by Horner's rule: `x` times the remainder
of `a` without its constant coefficient, plus that coefficient. -/
def poly_mod (a : Nat) : Nat :=
  if a = 0 then 0 else mulx (poly_mod (a / 2)) ^^^ a % 2
termination_by a
decreasing_by omega

@[simp] theorem poly_mod_zero : poly_mod 0 = 0 := by
  rw [poly_mod, if_pos rfl]

theorem poly_mod_two_mul_add (q : Nat) {r : Nat} (hr : r < 2) :
    poly_mod (2 * q + r) = mulx (poly_mod q) ^^^ r := by
  rw [poly_mod]
  split_ifs with h
  · obtain ⟨rfl, rfl⟩ : q = 0 ∧ r = 0 := by omega
    simp [mulx]
  · rw [show (2 * q + r) % 2 = r by omega, show (2 * q + r) / 2 = q by omega]

theorem poly_mod_two_mul (a : Nat) : poly_mod (2 * a) = mulx (poly_mod a) := by
  simpa using poly_mod_two_mul_add a Nat.zero_lt_two

/-- On remainders, `mulx` doubles the low seven bits and adds the rest of the field polynomial,
`x⁴ + x³ + x + 1`, when bit 7 is set. -/
theorem mulx_eq {t : Nat} (ht : t < 256) : mulx t = 2 * (t % 128) ^^^ t / 128 * 27 := by
  unfold mulx modulus
  split_ifs with h
  · rw [Nat.mod_eq_of_lt h, Nat.div_eq_of_lt h, zero_mul, Nat.xor_zero]
  · have h8 := mul_pow_two_add_xor (n := 8) (x := 2 * (t % 128)) (y := 27) (by omega) (by omega) 1 1
    rw [Nat.xor_self, mul_zero, zero_add, show 2 ^ 8 * 1 + 2 * (t % 128) = 2 * t by omega] at h8
    rw [show t / 128 = 1 by omega, one_mul, ← h8]
    rfl

theorem mulx_lt {t : Nat} (ht : t < 256) : mulx t < 256 := by
  rw [mulx_eq ht]
  exact Nat.xor_lt_two_pow (n := 8) (by omega) (by omega)

/-- On remainders, `mulx` is linear. -/
theorem mulx_xor {s t : Nat} (hs : s < 256) (ht : t < 256) : mulx (s ^^^ t) = mulx s ^^^ mulx t := by
  have hsplit (u : Nat) (hu : u < 256) : u = 2 ^ 7 * (u / 128) + u % 128 := by omega
  have hst : s ^^^ t = 2 ^ 7 * (s / 128 ^^^ t / 128) + (s % 128 ^^^ t % 128) := by
    conv_lhs => rw [hsplit s hs, hsplit t ht]
    exact mul_pow_two_add_xor (Nat.mod_lt s (by decide)) (Nat.mod_lt t (by decide)) _ _
  have hlow : s % 128 ^^^ t % 128 < 2 ^ 7 := Nat.xor_lt_two_pow (by omega) (by omega)
  have hhigh : ∀ c < 2, ∀ d < 2, (c ^^^ d) * 27 = c * 27 ^^^ d * 27 := by decide
  rw [mulx_eq (Nat.xor_lt_two_pow (n := 8) hs ht), mulx_eq hs, mulx_eq ht, hst,
    show (2 ^ 7 * (s / 128 ^^^ t / 128) + (s % 128 ^^^ t % 128)) % 128 = s % 128 ^^^ t % 128 by omega,
    show (2 ^ 7 * (s / 128 ^^^ t / 128) + (s % 128 ^^^ t % 128)) / 128 = s / 128 ^^^ t / 128 by omega,
    hhigh _ (by omega) _ (by omega), two_mul_xor]
  ac_rfl

theorem poly_mod_lt (a : Nat) : poly_mod a < 256 := by
  induction a using bits_induction with
  | zero => simp
  | bit q r hr ih =>
    rw [poly_mod_two_mul_add q hr]
    exact Nat.xor_lt_two_pow (n := 8) (mulx_lt ih) (by omega)

/-- Taking the remainder is linear. -/
theorem poly_mod_xor (a b : Nat) : poly_mod (a ^^^ b) = poly_mod a ^^^ poly_mod b := by
  induction a using bits_induction generalizing b with
  | zero => simp
  | bit q r hr ih =>
    have hs := Nat.mod_lt b Nat.zero_lt_two
    rw [← Nat.div_add_mod b 2, two_mul_add_xor hr hs,
      poly_mod_two_mul_add _ (Nat.xor_lt_two_pow (n := 1) hr hs), poly_mod_two_mul_add q hr,
      poly_mod_two_mul_add _ hs, ih, mulx_xor (poly_mod_lt q) (poly_mod_lt _)]
    ac_rfl

theorem poly_mod_of_lt {a : Nat} (ha : a < 256) : poly_mod a = a := by
  induction a using bits_induction with
  | zero => simp
  | bit q r hr ih =>
    rw [poly_mod_two_mul_add q hr, ih (by omega), mulx, if_pos (by omega), two_mul_xor_of_lt hr]

theorem poly_mod_modulus : poly_mod modulus = 0 := by
  rw [show modulus = 2 * 141 + 1 from rfl, poly_mod_two_mul_add _ (by decide),
    poly_mod_of_lt (by decide)]
  rfl

theorem poly_mod_clmul_modulus (q : Nat) : poly_mod (clmul q modulus) = 0 := by
  induction q using bits_induction with
  | zero => simp
  | bit q r hr ih =>
    rw [clmul_two_mul_add q _ hr, poly_mod_xor, poly_mod_two_mul, ih, mulx_zero, Nat.xor_zero]
    rcases lt_two_cases hr with rfl | rfl
    · rw [zero_mul, poly_mod_zero]
    · rw [one_mul, poly_mod_modulus]

/-- Doubling a remainder overflows it by a multiple of the field polynomial. -/
theorem two_mul_eq_mulx (t : Nat) : ∃ c, 2 * t = clmul c modulus ^^^ mulx t := by
  unfold mulx
  split_ifs
  · exact ⟨0, by simp⟩
  · refine ⟨2 * 0 + 1, ?_⟩
    rw [clmul_two_mul_add 0 _ (by decide), one_mul, clmul_zero_left, mul_zero, Nat.xor_zero,
      Nat.xor_comm _ modulus, Nat.xor_cancel_left]

/-- The division identity: `a` is a multiple of the field polynomial plus `poly_mod a`. -/
theorem poly_mod_div (a : Nat) : ∃ q, a = clmul q modulus ^^^ poly_mod a := by
  induction a using bits_induction with
  | zero => exact ⟨0, by simp⟩
  | bit p r hr ih =>
    obtain ⟨q, hq⟩ := ih
    obtain ⟨c, hc⟩ := two_mul_eq_mulx (poly_mod p)
    refine ⟨2 * q ^^^ c, ?_⟩
    conv_lhs => rw [hq]
    rw [poly_mod_two_mul_add p hr, ← two_mul_xor_of_lt hr, two_mul_xor, hc, clmul_xor_left,
      clmul_two_mul]
    ac_rfl

/-- `poly_mod a` is the remainder of `a` modulo the field polynomial: the one polynomial of
degree below 8 that differs from `a` by a multiple of it. -/
theorem poly_mod_eq_iff (a r : Nat) :
    poly_mod a = r ↔ r < 256 ∧ ∃ q, a = clmul q modulus ^^^ r := by
  constructor
  · rintro rfl
    exact ⟨poly_mod_lt a, poly_mod_div a⟩
  · rintro ⟨hr, q, rfl⟩
    rw [poly_mod_xor, poly_mod_clmul_modulus, poly_mod_of_lt hr, Nat.zero_xor]

/-! ## The product in GF(2⁸) -/

/-- The product of `a` and `b` in GF(2⁸): their product as polynomials, modulo the field
polynomial. -/
def gf_mul (a b : Nat) : Nat := poly_mod (clmul a b)

theorem gf_mul_comm (a b : Nat) : gf_mul a b = gf_mul b a := by
  rw [gf_mul, gf_mul, clmul_comm]

theorem gf_mul_lt (a b : Nat) : gf_mul a b < 256 := poly_mod_lt _

theorem gf_mul_xor_right (a b c : Nat) : gf_mul a (b ^^^ c) = gf_mul a b ^^^ gf_mul a c := by
  rw [gf_mul, clmul_xor_right, poly_mod_xor, gf_mul, gf_mul]

/-- The product by `2 * a` is `x` times the product by `a`. -/
theorem gf_mul_two_mul (a b : Nat) : gf_mul (2 * a) b = mulx (gf_mul a b) := by
  rw [gf_mul, clmul_two_mul, poly_mod_two_mul, gf_mul]

/-- The product by `x` times `t` is `x` times the product by `t`. -/
theorem gf_mul_mulx (a t : Nat) : gf_mul a (mulx t) = mulx (gf_mul a t) := by
  obtain ⟨c, hc⟩ := two_mul_eq_mulx t
  rw [show mulx t = clmul c modulus ^^^ 2 * t by rw [hc, Nat.xor_cancel_left], gf_mul, gf_mul,
    clmul_xor_right, poly_mod_xor, ← clmul_assoc, poly_mod_clmul_modulus, Nat.zero_xor,
    clmul_two_mul_right, poly_mod_two_mul]

/-- The product by `2 * a + 1` adds `b` to the product by `2 * a`. -/
theorem gf_mul_two_mul_add_one (a : Nat) {b : Nat} (hb : b < 256) :
    gf_mul (2 * a + 1) b = gf_mul (2 * a) b ^^^ b := by
  rw [gf_mul, clmul_two_mul_add a b (by decide), one_mul, poly_mod_xor, poly_mod_of_lt hb, gf_mul,
    clmul_two_mul, Nat.xor_comm]

end ct_aes.gf256
