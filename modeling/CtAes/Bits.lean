-- Bits of machine words. The words of the model are `BitVec`s, and the laws about them are
-- proved one bit at a time: `getLsbD` turns the word operations of the code into operations
-- on single bits, and `ofBits` builds a word from its bits. The byte order of the target is a
-- parameter of the code that reads a word's bytes in memory.
import Mathlib.Data.Fin.VecNotation
import Mathlib.Data.Fintype.Basic
import Mathlib.Tactic.FinCases

namespace ct_aes

/-- The byte order of the target. word.rs picks a machine word for little-endian targets
(`x86_64`, `powerpc64le`, `mips64el`) and for big-endian ones (`powerpc64`, `mips64`,
`sparc64`). -/
inductive Endian where
  | little
  | big
deriving DecidableEq, Repr

/-! ## Gates on single bits

The S-box circuits are written once over any type with `^^^`, `&&&` and `~~~`; on `Bool`
these are the gates themselves. -/

instance instXorBool : Xor Bool := ⟨Bool.xor⟩
instance instAndOpBool : AndOp Bool := ⟨Bool.and⟩
instance instComplementBool : Complement Bool := ⟨Bool.not⟩

@[simp] theorem bool_xor_eq (a b : Bool) : (a ^^^ b) = (a ^^ b) := rfl
@[simp] theorem bool_and_eq (a b : Bool) : (a &&& b) = (a && b) := rfl
@[simp] theorem bool_not_eq (a : Bool) : (~~~a) = !a := rfl

section planes

variable {w : Nat} {p : Nat}

/-- Bit `p` of a word of width `w > p` commutes with the three gates. -/
theorem getLsbD_gate_xor (x y : BitVec w) :
    (x ^^^ y).getLsbD p = (x.getLsbD p ^^^ y.getLsbD p) := BitVec.getLsbD_xor

theorem getLsbD_gate_and (x y : BitVec w) :
    (x &&& y).getLsbD p = (x.getLsbD p &&& y.getLsbD p) := BitVec.getLsbD_and

theorem getLsbD_gate_not (hp : p < w) (x : BitVec w) :
    (~~~x).getLsbD p = ~~~(x.getLsbD p) := by
  simp [hp]

@[simp] theorem getLsbD_ite_zero (c : Prop) [Decidable c] (a : BitVec w) (i : Nat) :
    (if c then a else 0#w).getLsbD i = (decide c && a.getLsbD i) := by
  split <;> simp [*]

theorem xor_xor_xor_cancel (a b c : BitVec w) : (a ^^^ b) ^^^ (a ^^^ c) = b ^^^ c := by
  ext i
  simp only [BitVec.getLsbD_xor]
  cases a.getLsbD i <;> simp

end planes

/-! ## Words from bits -/

/-- The word of width `w` whose bit `i` is `f i`. -/
def ofBits : (w : Nat) → (Nat → Bool) → BitVec w
  | 0, _ => 0#0
  | w + 1, f => BitVec.cons (f w) (ofBits w f)

@[simp] theorem getLsbD_ofBits (w : Nat) (f : Nat → Bool) (i : Nat) :
    (ofBits w f).getLsbD i = (decide (i < w) && f i) := by
  induction w with
  | zero => simp [ofBits]
  | succ w ih =>
    rw [ofBits, BitVec.getLsbD_cons, ih]
    by_cases h : i = w
    · subst h; simp
    · simp only [h, if_false]
      by_cases h' : i < w
      · simp [h', show i < w + 1 by omega]
      · simp [h', show ¬ i < w + 1 by omega]

/-! ## XOR over a list of indices -/

/-- `f j` XORed over the indices `js`, from `0`. -/
def xorOver {α : Type} [Xor α] (zero : α) (f : Nat → α) (js : List Nat) : α :=
  js.foldl (fun acc j => acc ^^^ f j) zero

theorem xorOver_congr {α : Type} [Xor α] {zero : α} {f g : Nat → α} {js : List Nat}
    (h : ∀ j ∈ js, f j = g j) : xorOver zero f js = xorOver zero g js := by
  unfold xorOver
  induction js generalizing zero with
  | nil => rfl
  | cons j js ih =>
    simp only [List.foldl_cons, h j (List.mem_cons_self j js)]
    exact ih fun k hk => h k (List.mem_cons_of_mem j hk)

/-- A map that commutes with `^^^` and keeps the start commutes with `xorOver`. -/
theorem xorOver_map {α β : Type} [Xor α] [Xor β] (h : α → β) (a : α) (b : β)
    (hxor : ∀ x y, h (x ^^^ y) = h x ^^^ h y) (hzero : h a = b) (f : Nat → α) (js : List Nat) :
    h (xorOver a f js) = xorOver b (h ∘ f) js := by
  unfold xorOver
  induction js generalizing a b with
  | nil => simpa using hzero
  | cons j js ih => exact ih _ _ (by rw [hxor, hzero]; rfl)

theorem getLsbD_xorOver (f : Nat → BitVec w) (js : List Nat) (p : Nat) :
    (xorOver 0 f js).getLsbD p = xorOver false (fun j => (f j).getLsbD p) js :=
  xorOver_map (·.getLsbD p) 0 false (fun _ _ => BitVec.getLsbD_xor) BitVec.getLsbD_zero f js

end ct_aes
