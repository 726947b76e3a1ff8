-- Arithmetic in GF(2⁸) (gf256/src/lib.rs and symbolic.rs): the product of `mul_assign`,
-- a shift-and-add loop, and the symbolic multiplication table that the bit-sliced
-- `MixColumns` is generated from. Both are linear over XOR, so a law about a constant
-- multiple holds for every byte once it holds for the eight one-bit bytes.
import CtAes.Bits

namespace ct_aes.gf256

/-! ## Elements -/

/-- An element of GF(2⁸)/(x⁸ + x⁴ + x³ + x + 1). -/
structure Element where
  val : BitVec 8
deriving DecidableEq, Repr

/-- `add_assign`: addition is XOR. -/
def add_assign (a b : Element) : Element := ⟨a.val ^^^ b.val⟩

instance : Add Element := ⟨add_assign⟩

/-- The loop of `mul_assign`, with `n` turns left. -/
def mul_loop : Nat → BitVec 8 → BitVec 8 → BitVec 8 → BitVec 8
  | 0, ret, _, _ => ret
  | n + 1, ret, lhs, rhs =>
    let ret := if rhs &&& 1 ≠ 0 then ret ^^^ lhs else ret
    let will_overflow := lhs &&& 0x80 ≠ 0
    let lhs := lhs <<< 1
    let lhs := if will_overflow then lhs ^^^ 0x1b else lhs
    mul_loop n ret lhs (rhs >>> 1)

/-- `mul_assign`: eight turns of the loop, from `ret = 0`. -/
def mul_assign (a b : Element) : Element := ⟨mul_loop 8 0 a.val b.val⟩

instance : Mul Element := ⟨mul_assign⟩

@[simp] theorem add_val (a b : Element) : (a + b).val = a.val ^^^ b.val := rfl
@[simp] theorem mul_val (a b : Element) : (a * b).val = mul_loop 8 0 a.val b.val := rfl

/-! ## Linearity -/

/-- A map of bytes that commutes with XOR. -/
def Additive {β : Type} [Xor β] (f : BitVec 8 → β) : Prop :=
  ∀ a b, f (a ^^^ b) = f a ^^^ f b

theorem and_one_ne_zero (x : BitVec 8) : x &&& 1 ≠ 0 ↔ x.getLsbD 0 = true := by
  constructor
  · intro h
    by_contra h0
    exact h (by ext i; rcases i with ⟨_ | i, hi⟩ <;> simp_all)
  · intro h he
    simpa [h] using congrArg (·.getLsbD 0) he

theorem mul_loop_acc (n : Nat) (ret lhs rhs : BitVec 8) :
    mul_loop n ret lhs rhs = ret ^^^ mul_loop n 0 lhs rhs := by
  induction n generalizing ret lhs rhs with
  | zero => simp [mul_loop]
  | succ n ih =>
    simp only [mul_loop]
    rw [ih, ih (if rhs &&& 1 ≠ 0 then 0 ^^^ lhs else 0)]
    split <;> simp [BitVec.xor_assoc]

/-- What one turn does to `lhs`: multiply by `x`, reducing by `0x1b` on overflow. -/
def xtime (lhs : BitVec 8) : BitVec 8 :=
  if lhs &&& 0x80 ≠ 0 then lhs <<< 1 ^^^ 0x1b else lhs <<< 1

theorem mul_loop_succ (n : Nat) (lhs rhs : BitVec 8) :
    mul_loop (n + 1) 0 lhs rhs =
      (if rhs.getLsbD 0 then lhs else 0) ^^^ mul_loop n 0 (xtime lhs) (rhs >>> 1) := by
  rw [mul_loop, mul_loop_acc, xtime]
  simp only [and_one_ne_zero]
  split <;> simp

/-- The product is linear in its second factor. -/
theorem mul_loop_xor (n : Nat) (lhs b c : BitVec 8) :
    mul_loop n 0 lhs (b ^^^ c) = mul_loop n 0 lhs b ^^^ mul_loop n 0 lhs c := by
  induction n generalizing lhs b c with
  | zero => simp [mul_loop]
  | succ n ih =>
    simp only [mul_loop_succ, BitVec.ushiftRight_xor_distrib, ih, BitVec.getLsbD_xor]
    cases b.getLsbD 0 <;> cases c.getLsbD 0 <;> simp [xor_xor_xor_cancel] <;> ac_rfl

theorem mul_additive (k : BitVec 8) : Additive fun x => mul_loop 8 0 k x :=
  mul_loop_xor 8 k

/-- The byte with only bit `j` set. -/
def single (j : Nat) : BitVec 8 := 1#8 <<< j

@[simp] theorem getLsbD_single (j i : Nat) : (single j).getLsbD i = (decide (i < 8) && decide (i = j)) := by
  simp only [single, BitVec.getLsbD_shiftLeft, BitVec.getLsbD_one]
  by_cases h : i = j <;> by_cases h' : i < j <;> simp [h, h']; omega

theorem decompose (x : BitVec 8) :
    x = xorOver 0 (fun j => if x.getLsbD j then single j else 0) (List.range 8) := by
  ext i
  rw [getLsbD_xorOver]
  fin_cases i <;> simp [xorOver, List.range_succ]

theorem Additive.map_zero {n : Nat} {f : BitVec 8 → BitVec n} (hf : Additive f) : f 0 = 0 := by
  have h := hf 0 0
  rw [BitVec.xor_self, BitVec.xor_self] at h
  exact h

/-- An additive map is fixed by its values on the eight one-bit bytes. -/
theorem Additive.eq_xorOver {n : Nat} {f : BitVec 8 → BitVec n} (hf : Additive f) (x : BitVec 8) :
    f x = xorOver 0 (fun j => if x.getLsbD j then f (single j) else 0) (List.range 8) := by
  conv_lhs => rw [decompose x]
  rw [xorOver_map f 0 0 hf hf.map_zero]
  congr 1
  funext j
  simp only [Function.comp_apply]
  split
  · rfl
  · exact hf.map_zero

theorem additive_ext {n : Nat} {f g : BitVec 8 → BitVec n} (hf : Additive f) (hg : Additive g)
    (h : ∀ j < 8, f (single j) = g (single j)) : f = g := by
  funext x
  rw [hf.eq_xorOver, hg.eq_xorOver]
  exact xorOver_congr fun j hj => by rw [h j (List.mem_range.mp hj)]


/-! ## The symbolic multiplication table -/

/-- A set which can contain any combination of the integers in `[0, 8)`. -/
structure BitSet where
  val : BitVec 8
deriving DecidableEq, Repr

instance : Xor BitSet := ⟨fun a b => ⟨a.val ^^^ b.val⟩⟩

@[simp] theorem BitSet.xor_val (a b : BitSet) : (a ^^^ b).val = a.val ^^^ b.val := rfl

def BitSet.with_single_bit (bit : Nat) : BitSet := ⟨1#8 <<< bit⟩

/-- The members of the set, smallest first. -/
def BitSet.bits (s : BitSet) : List Nat := (List.range 8).filter fun bit => s.val.getLsbD bit

/-- A constant multiple of an element: coefficient `i` of the product is the XOR of the
bits of the input that `coefficients i` holds. -/
structure Multiple where
  coefficients : Fin 8 → BitSet

instance : Inhabited Multiple := ⟨⟨fun _ => ⟨0⟩⟩⟩

/-- Add the input itself: every coefficient gains its own bit. -/
def Multiple.increment (m : Multiple) : Multiple :=
  ⟨fun i => m.coefficients i ^^^ BitSet.with_single_bit i⟩

/-- Multiply by `x`: `rotate_right(1)` moves coefficient `i` to `i + 1` and the overflow
coefficient 7 to 0, then the overflow is XORed into coefficients 1, 3 and 4 (mod `0x11b`). -/
def Multiple.double (m : Multiple) : Multiple :=
  let x : Fin 8 → BitSet := fun i => m.coefficients (i - 1)
  let x := Function.update x 1 (x 1 ^^^ x 0)
  let x := Function.update x 3 (x 3 ^^^ x 0)
  let x := Function.update x 4 (x 4 ^^^ x 0)
  ⟨x⟩

/-- `multiplication_table(up_to)`: entry `i` is `ret[i - 1].increment()` for odd `i` and
`ret[i / 2].double()` for even `i`, pushed in order from `[Multiple::default()]`. -/
def multiplication_table (up_to : Nat) : List Multiple :=
  (List.range' 1 (up_to - 1)).foldl
    (fun ret i =>
      ret ++ [if i % 2 = 1 then (ret.getD (i - 1) default).increment
        else (ret.getD (i / 2) default).double])
    [default]

/-- What a table entry computes on a byte: output bit `i` is the XOR of the input bits
that coefficient `i` lists. -/
def Multiple.apply (m : Multiple) (b : BitVec 8) : BitVec 8 :=
  ofBits 8 fun i => if h : i < 8 then xorOver false b.getLsbD (m.coefficients ⟨i, h⟩).bits else false

theorem xorOver_bool_xor (f g : Nat → Bool) (js : List Nat) :
    xorOver false (fun j => f j ^^ g j) js = (xorOver false f js ^^ xorOver false g js) := by
  unfold xorOver
  suffices ∀ a b : Bool, js.foldl (fun acc j => acc ^^^ (f j ^^ g j)) (a ^^ b) =
      (js.foldl (fun acc j => acc ^^^ f j) a ^^ js.foldl (fun acc j => acc ^^^ g j) b) by
    simpa using this false false
  induction js with
  | nil => simp
  | cons j js ih =>
    intro a b
    simp only [List.foldl_cons, ← ih]
    congr 1
    simp only [bool_xor_eq]
    cases a <;> cases b <;> cases f j <;> cases g j <;> rfl

theorem Multiple.apply_additive (m : Multiple) : Additive m.apply := by
  intro a b
  ext i
  simp only [Multiple.apply, getLsbD_ofBits, BitVec.getLsbD_xor, i.isLt, dif_pos, decide_True,
    Bool.true_and]
  rw [show (a ^^^ b).getLsbD = fun j => a.getLsbD j ^^ b.getLsbD j from
    funext fun j => BitVec.getLsbD_xor]
  exact xorOver_bool_xor _ _ _

end ct_aes.gf256
