-- The bit transposes of bitslice/primitive.rs. `to_bitslice_order` is a sequence of word
-- swaps and `swap_move` strides, and `to_byte_order` the same sequence reversed. Each step
-- moves bits without changing them, so each has a map that says, for every output bit,
-- which input bit it holds; the masks keep every `swap_move` inside the word.
import CtAes.Util

namespace ct_aes.bitslice

open util

/-- The word types that `primitive!` instantiates. -/
inductive Word
  | u16
  | u32
  | u64
deriving DecidableEq, Repr

/-- `8 * size_of::<W>()`. -/
def Word.bits : Word → Nat
  | .u16 => 16
  | .u32 => 32
  | .u64 => 64

/-! ## Masks -/

/-- `bitmask(kernel, shift)`: `kernel` repeated every `shift` bits of a `u64`. -/
def bitmask (kernel : BitVec 64) (shift : Nat) : BitVec 64 :=
  (List.range 64).foldl (fun acc mul => acc ||| kernel <<< (mul * shift % 64)) 0

def SWAP_MOVE_MASK : List (BitVec 64) :=
  [bitmask 0b01010101 8, bitmask 0b00110011 8, bitmask 0b00001111 8,
   bitmask 0x00ff00ff 32, bitmask 0x0000ffff 32, 0xffffffff]

/-! ## The steps -/

variable {w : Nat}

/-- `swap_move(lo, hi, log2_n)`: the new `(lo, hi)`. The mask is `SWAP_MOVE_MASK[log2_n]`
cut to the word (`as $T`). -/
def swap_move (lo hi : BitVec w) (log2_n : Nat) : BitVec w × BitVec w :=
  let n := 1 <<< log2_n
  let mask := (SWAP_MOVE_MASK.getD log2_n 0).setWidth w
  let tmp := ((lo >>> n) ^^^ hi) &&& mask
  (lo ^^^ (tmp <<< n), hi ^^^ tmp)

/-- One statement of the body of a `to_bitslice_order`. -/
inductive Step
  /-- `bs.swap(i, j)`. -/
  | swap (i j : Fin 8)
  /-- `apply_stride_s(bs, |a, b| swap_move(a, b, log2_n))`, for `s = 1, 2, 4`. -/
  | stride (s : Nat) (log2_n : Nat)

/-- The word pairs `(lo, hi)` that `apply_stride_1`, `_2` and `_4` hand to `f`. -/
def stride_pairs : Nat → List (Fin 8 × Fin 8)
  | 1 => [(0, 1), (2, 3), (4, 5), (6, 7)]
  | 2 => [(0, 2), (1, 3), (4, 6), (5, 7)]
  | _ => [(0, 4), (1, 5), (2, 6), (3, 7)]

/-- `swap_move` on the words `a` (as `lo`) and `b` (as `hi`). -/
def swap_move_at (log2_n : Nat) (bs : Fin 8 → BitVec w) (ab : Fin 8 × Fin 8) : Fin 8 → BitVec w :=
  let r := swap_move (bs ab.1) (bs ab.2) log2_n
  fun k => if k = ab.1 then r.1 else if k = ab.2 then r.2 else bs k

def Step.apply : Step → (Fin 8 → BitVec w) → (Fin 8 → BitVec w)
  | .swap i j, bs => bs ∘ Equiv.swap i j
  | .stride s log2_n, bs => (stride_pairs s).foldl (swap_move_at log2_n) bs

/-- The body of `to_bitslice_order` for each word type. -/
def to_bitslice_order_steps : Word → List Step
  | .u64 =>
    [.stride 1 3, .stride 1 4, .stride 1 5,
     .swap 1 4, .swap 3 6,
     .swap 1 2, .swap 5 6,
     .stride 4 2, .stride 2 1, .stride 1 0]
  | .u32 =>
    [.swap 2 4, .swap 3 5,
     .swap 1 2, .swap 5 6,
     .stride 1 0, .stride 2 1, .stride 4 2]
  | .u16 =>
    [.stride 1 3,
     .swap 1 2, .swap 5 6,
     .swap 2 4, .swap 3 5,
     .stride 4 2, .stride 2 1, .stride 1 0]

/-- `BitsliceRepr::to_bitslice_order`. -/
def to_bitslice_order (W : Word) (bs : Fin 8 → BitVec W.bits) : Fin 8 → BitVec W.bits :=
  run ((to_bitslice_order_steps W).map Step.apply) bs

/-- `BitsliceRepr::to_byte_order`, the inverse that the macro writes. -/
def to_byte_order (W : Word) (bs : Fin 8 → BitVec W.bits) : Fin 8 → BitVec W.bits :=
  run_inverse ((to_bitslice_order_steps W).map Step.apply) bs

theorem Step.apply_stride (s log2_n : Nat) (bs : Fin 8 → BitVec w) :
    (Step.stride s log2_n).apply bs =
      run ((stride_pairs s).map fun ab bs => swap_move_at log2_n bs ab) bs := by
  simp only [Step.apply, run, List.foldl_map]

/-! ## Where each bit goes -/

/-- `σ` names, for every output bit `(k, p)` of `f`, the input bit it holds. -/
def Moves (f : (Fin 8 → BitVec w) → Fin 8 → BitVec w) (σ : Fin 8 × Nat → Fin 8 × Nat) : Prop :=
  ∀ bs k p, (f bs k).getLsbD p = (bs (σ (k, p)).1).getLsbD (σ (k, p)).2

theorem Moves.comp {f g : (Fin 8 → BitVec w) → Fin 8 → BitVec w} {σ τ : Fin 8 × Nat → Fin 8 × Nat}
    (hf : Moves f σ) (hg : Moves g τ) : Moves (g ∘ f) (σ ∘ τ) := by
  intro bs k p
  exact (hg (f bs) k p).trans (hf bs _ _)

/-- Where the bits of a run of steps come from: the last step's map first. -/
def srcRun (σs : List (Fin 8 × Nat → Fin 8 × Nat)) : Fin 8 × Nat → Fin 8 × Nat :=
  σs.foldr (fun σ acc => σ ∘ acc) id

theorem Moves.run {fs : List ((Fin 8 → BitVec w) → Fin 8 → BitVec w)}
    {σs : List (Fin 8 × Nat → Fin 8 × Nat)} (h : List.Forall₂ Moves fs σs) :
    Moves (run fs) (srcRun σs) := by
  induction h with
  | nil => intro bs k p; rfl
  | cons hf _ ih =>
    intro bs k p
    exact (Moves.comp hf ih) bs k p

/-- The values of `SWAP_MOVE_MASK`. -/
def swapMoveMasks : List (BitVec 64) :=
  [0x5555555555555555, 0x3333333333333333, 0x0f0f0f0f0f0f0f0f,
   0x00ff00ff00ff00ff, 0x0000ffff0000ffff, 0x00000000ffffffff]

theorem SWAP_MOVE_MASK_eq : SWAP_MOVE_MASK = swapMoveMasks := by decide

/-- Bit `p` of the mask of `swap_move(_, _, log2_n)` on a word of width `w`. -/
def maskBit (w log2_n p : Nat) : Bool := decide (p < w) && (swapMoveMasks.getD log2_n 0).getLsbD p

theorem maskBit_eq (w log2_n p : Nat) :
    maskBit w log2_n p = ((SWAP_MOVE_MASK.getD log2_n 0).setWidth w).getLsbD p := by
  rw [maskBit, SWAP_MOVE_MASK_eq, BitVec.getLsbD_setWidth]

theorem swap_move_fst_getLsbD (lo hi : BitVec w) (log2_n p : Nat) :
    (swap_move lo hi log2_n).1.getLsbD p =
      if p < w ∧ 1 <<< log2_n ≤ p ∧ maskBit w log2_n (p - 1 <<< log2_n) = true
      then hi.getLsbD (p - 1 <<< log2_n) else lo.getLsbD p := by
  simp only [swap_move, maskBit_eq, BitVec.getLsbD_xor, BitVec.getLsbD_shiftLeft, BitVec.getLsbD_and,
    BitVec.getLsbD_ushiftRight]
  by_cases hp : p < w
  · by_cases hn : 1 <<< log2_n ≤ p
    · rw [Nat.add_sub_cancel' hn]
      cases lo.getLsbD p <;> cases hi.getLsbD (p - 1 <<< log2_n) <;>
        simp [hp, hn, show ¬ p < 1 <<< log2_n by omega]
    · simp [hp, hn, show p < 1 <<< log2_n by omega]
  · simp [hp]

theorem swap_move_snd_getLsbD (lo hi : BitVec w) (log2_n p : Nat) :
    (swap_move lo hi log2_n).2.getLsbD p =
      if maskBit w log2_n p = true then lo.getLsbD (p + 1 <<< log2_n) else hi.getLsbD p := by
  simp only [swap_move, maskBit_eq, BitVec.getLsbD_xor, BitVec.getLsbD_and, BitVec.getLsbD_ushiftRight]
  rw [Nat.add_comm (1 <<< log2_n) p]
  by_cases hm : ((SWAP_MOVE_MASK.getD log2_n 0).setWidth w).getLsbD p = true <;>
    simp only [hm, if_true, if_false, Bool.and_true, Bool.and_false, Bool.xor_false] <;>
    cases lo.getLsbD (p + 1 <<< log2_n) <;> cases hi.getLsbD p <;> simp_all

/-- Where the bits of `swap_move_at log2_n _ (a, b)` come from. -/
def swap_move_src (w log2_n : Nat) (ab : Fin 8 × Fin 8) (q : Fin 8 × Nat) : Fin 8 × Nat :=
  let n := 1 <<< log2_n
  if q.1 = ab.1 then
    (if q.2 < w ∧ n ≤ q.2 ∧ maskBit w log2_n (q.2 - n) = true then (ab.2, q.2 - n) else q)
  else if q.1 = ab.2 then
    (if maskBit w log2_n q.2 = true then (ab.1, q.2 + n) else q)
  else q

theorem swap_move_at_moves (log2_n : Nat) (ab : Fin 8 × Fin 8) :
    Moves (fun bs => swap_move_at (w := w) log2_n bs ab) (swap_move_src w log2_n ab) := by
  intro bs k p
  simp only [swap_move_at, swap_move_src]
  by_cases h1 : k = ab.1
  · simp only [h1, if_true, swap_move_fst_getLsbD]
    split <;> rfl
  · by_cases h2 : k = ab.2
    · subst h2
      simp only [h1, if_false, if_true, swap_move_snd_getLsbD]
      split <;> rfl
    · simp [h1, h2]

/-- Where the bits of a step come from. -/
def Step.src (w : Nat) : Step → Fin 8 × Nat → Fin 8 × Nat
  | .swap i j, q => (Equiv.swap i j q.1, q.2)
  | .stride s log2_n, q => srcRun ((stride_pairs s).map (swap_move_src w log2_n)) q

theorem Step.apply_moves (st : Step) : Moves (w := w) st.apply (st.src w) := by
  cases st with
  | swap i j => intro bs k p; rfl
  | stride s log2_n =>
    have h : Moves (run ((stride_pairs s).map fun ab bs => swap_move_at (w := w) log2_n bs ab))
        (srcRun ((stride_pairs s).map (swap_move_src w log2_n))) := Moves.run
      (List.forall₂_map_left_iff.mpr (List.forall₂_map_right_iff.mpr
        (List.forall₂_same.mpr fun ab _ => swap_move_at_moves log2_n ab)))
    intro bs k p
    rw [Step.apply_stride]
    exact h bs k p

/-- Where the bits of `to_bitslice_order` come from. -/
def to_bitslice_order_src (W : Word) : Fin 8 × Nat → Fin 8 × Nat :=
  srcRun ((to_bitslice_order_steps W).map (Step.src W.bits))

theorem to_bitslice_order_moves (W : Word) :
    Moves (to_bitslice_order W) (to_bitslice_order_src W) :=
  Moves.run (List.forall₂_map_left_iff.mpr (List.forall₂_map_right_iff.mpr
    (List.forall₂_same.mpr fun st _ => st.apply_moves)))

/-! ## Each step undoes itself -/

/-- The mask of `swap_move(_, _, log2_n)` on a word of width `w` keeps clear of its top
`2 ^ log2_n` bits. -/
def MaskFits (w log2_n : Nat) : Prop := ∀ p < w, maskBit w log2_n p = true → p + 1 <<< log2_n < w

instance (w log2_n : Nat) : Decidable (MaskFits w log2_n) :=
  inferInstanceAs (Decidable (∀ p < w, maskBit w log2_n p = true → p + 1 <<< log2_n < w))

/-- `swap_move` is an involution when its mask fits the word. -/
theorem swap_move_swap_move (lo hi : BitVec w) (log2_n : Nat) (h : MaskFits w log2_n) :
    swap_move (swap_move lo hi log2_n).1 (swap_move lo hi log2_n).2 log2_n = (lo, hi) := by
  refine Prod.ext (BitVec.eq_of_getLsbD_eq fun p => ?_) (BitVec.eq_of_getLsbD_eq fun p => ?_)
  · simp only [swap_move_fst_getLsbD, swap_move_snd_getLsbD]
    split_ifs with h1 <;> simp_all [Nat.sub_add_cancel]
  · simp only [swap_move_fst_getLsbD, swap_move_snd_getLsbD, Nat.add_sub_cancel]
    by_cases h1 : maskBit w log2_n p = true
    · simp [h1, h p p.isLt h1]
    · simp [h1]

theorem swap_move_at_of_eq_fst (log2_n : Nat) (bs : Fin 8 → BitVec w) {ab : Fin 8 × Fin 8}
    {k : Fin 8} (h : k = ab.1) :
    swap_move_at log2_n bs ab k = (swap_move (bs ab.1) (bs ab.2) log2_n).1 := by
  simp [swap_move_at, h]

theorem swap_move_at_of_eq_snd (log2_n : Nat) (bs : Fin 8 → BitVec w) {ab : Fin 8 × Fin 8}
    {k : Fin 8} (h1 : k ≠ ab.1) (h2 : k = ab.2) :
    swap_move_at log2_n bs ab k = (swap_move (bs ab.1) (bs ab.2) log2_n).2 := by
  simp only [swap_move_at, if_neg h1, if_pos h2]

theorem swap_move_at_of_ne (log2_n : Nat) (bs : Fin 8 → BitVec w) {ab : Fin 8 × Fin 8} {k : Fin 8}
    (h1 : k ≠ ab.1) (h2 : k ≠ ab.2) : swap_move_at log2_n bs ab k = bs k := by
  simp [swap_move_at, h1, h2]

theorem swap_move_at_swap_move_at (log2_n : Nat) (bs : Fin 8 → BitVec w) {ab : Fin 8 × Fin 8}
    (hab : ab.1 ≠ ab.2) (h : MaskFits w log2_n) :
    swap_move_at log2_n (swap_move_at log2_n bs ab) ab = bs := by
  have h1 := swap_move_at_of_eq_fst log2_n bs (show ab.1 = ab.1 from rfl)
  have h2 := swap_move_at_of_eq_snd log2_n bs hab.symm rfl
  have hs := swap_move_swap_move (bs ab.1) (bs ab.2) log2_n h
  funext k
  by_cases k1 : k = ab.1
  · rw [swap_move_at_of_eq_fst _ _ k1, h1, h2, hs, k1]
  · by_cases k2 : k = ab.2
    · rw [swap_move_at_of_eq_snd _ _ k1 k2, h1, h2, hs, k2]
    · rw [swap_move_at_of_ne _ _ k1 k2, swap_move_at_of_ne _ _ k1 k2]

/-- Two pairs of words with no word in common. -/
def Apart (ab cd : Fin 8 × Fin 8) : Prop := ab.1 ≠ cd.1 ∧ ab.1 ≠ cd.2 ∧ ab.2 ≠ cd.1 ∧ ab.2 ≠ cd.2

instance (ab cd : Fin 8 × Fin 8) : Decidable (Apart ab cd) := inferInstanceAs (Decidable (_ ∧ _))

theorem swap_move_at_comm (log2_n : Nat) (bs : Fin 8 → BitVec w) {ab cd : Fin 8 × Fin 8}
    (h : Apart ab cd) :
    swap_move_at log2_n (swap_move_at log2_n bs cd) ab =
      swap_move_at log2_n (swap_move_at log2_n bs ab) cd := by
  obtain ⟨h11, h12, h21, h22⟩ := h
  have ha1 := swap_move_at_of_ne log2_n bs h11 h12
  have ha2 := swap_move_at_of_ne log2_n bs h21 h22
  have hc1 := swap_move_at_of_ne log2_n bs (Ne.symm h11) (Ne.symm h21)
  have hc2 := swap_move_at_of_ne log2_n bs (Ne.symm h12) (Ne.symm h22)
  funext k
  by_cases k1 : k = ab.1
  · subst k1
    rw [swap_move_at_of_eq_fst _ _ rfl, ha1, ha2, swap_move_at_of_ne _ _ h11 h12,
      swap_move_at_of_eq_fst _ _ rfl]
  by_cases k2 : k = ab.2
  · subst k2
    rw [swap_move_at_of_eq_snd _ _ k1 rfl, ha1, ha2, swap_move_at_of_ne _ _ h21 h22,
      swap_move_at_of_eq_snd _ _ k1 rfl]
  rw [swap_move_at_of_ne _ _ k1 k2]
  by_cases k3 : k = cd.1
  · subst k3
    rw [swap_move_at_of_eq_fst _ _ rfl, swap_move_at_of_eq_fst _ _ rfl, hc1, hc2]
  by_cases k4 : k = cd.2
  · subst k4
    rw [swap_move_at_of_eq_snd _ _ k3 rfl, swap_move_at_of_eq_snd _ _ k3 rfl, hc1, hc2]
  rw [swap_move_at_of_ne _ _ k3 k4, swap_move_at_of_ne _ _ k3 k4, swap_move_at_of_ne _ _ k1 k2]

theorem stride_pairs_apart (s : Nat) : (stride_pairs s).Pairwise Apart := by
  unfold stride_pairs; split <;> decide

theorem stride_pairs_ne (s : Nat) : ∀ ab ∈ stride_pairs s, ab.1 ≠ ab.2 := by
  unfold stride_pairs; split <;> decide

/-- What a step needs to undo itself: a fitting mask. -/
def Step.Fits (w : Nat) : Step → Prop
  | .swap _ _ => True
  | .stride _ log2_n => MaskFits w log2_n

instance (w : Nat) : (st : Step) → Decidable (st.Fits w)
  | .swap _ _ => instDecidableTrue
  | .stride _ log2_n => inferInstanceAs (Decidable (MaskFits w log2_n))

theorem Step.apply_apply {st : Step} (h : st.Fits w) (bs : Fin 8 → BitVec w) :
    st.apply (st.apply bs) = bs := by
  cases st with
  | swap i j => funext k; simp [Step.apply]
  | stride s log2_n =>
    rw [Step.apply_stride, Step.apply_stride]
    refine run_run_of_commute ?_ ?_ bs
    · exact List.pairwise_map.mpr ((stride_pairs_apart s).imp fun hab x => swap_move_at_comm _ _ hab)
    · intro f hf x
      obtain ⟨ab, hab, rfl⟩ := List.mem_map.mp hf
      exact swap_move_at_swap_move_at _ _ (stride_pairs_ne s ab hab) h

/-! ## The inverse -/

/-- Every mask of every `to_bitslice_order` fits its word. -/
theorem steps_fit (W : Word) : ∀ st ∈ to_bitslice_order_steps W, st.Fits W.bits := by
  cases W <;> decide

theorem steps_involutive (W : Word) :
    Involutive ((to_bitslice_order_steps W).map (Step.apply (w := W.bits))) := by
  intro f hf bs
  obtain ⟨st, hst, rfl⟩ := List.mem_map.mp hf
  exact Step.apply_apply (steps_fit W st hst) bs

theorem to_byte_order_to_bitslice_order (W : Word) (bs : Fin 8 → BitVec W.bits) :
    to_byte_order W (to_bitslice_order W bs) = bs :=
  run_inverse_run (steps_involutive W) bs

theorem to_bitslice_order_to_byte_order (W : Word) (bs : Fin 8 → BitVec W.bits) :
    to_bitslice_order W (to_byte_order W bs) = bs :=
  run_run_inverse (steps_involutive W) bs

/-! ## Labels

Bit `p` of word `j` is given the label `64 * j + p + 512`, and a bit outside the word the
label `0`; `label w k` holds bit `k` of every label. What a map that moves bits does to the
ten words `label w k` says where each of its bits comes from, since a label has ten bits. -/

/-- The label of bit `q.2` of word `q.1`. -/
def labelVal (w : Nat) (q : Fin 8 × Nat) : Nat := if q.2 < w then 64 * (q.1 : Nat) + q.2 + 512 else 0

/-- The words whose bit `p` is bit `k` of `p`, for `k < 6`. -/
def bitPatterns : List Nat :=
  [0xAAAAAAAAAAAAAAAA, 0xCCCCCCCCCCCCCCCC, 0xF0F0F0F0F0F0F0F0,
   0xFF00FF00FF00FF00, 0xFFFF0000FFFF0000, 0xFFFFFFFF00000000]

theorem testBit_bitPatterns : ∀ k < 6, ∀ p < 64, (bitPatterns.getD k 0).testBit p = p.testBit k := by
  decide

/-- Bit `k` of the label of every bit of the eight words: below bit 6 it is bit `k` of `p`,
above it bit `k - 6` of `j + 8`. -/
def label (w k : Nat) : Fin 8 → BitVec w := fun j =>
  BitVec.ofNat w (if k < 6 then bitPatterns.getD k 0
    else if (j.val + 8).testBit (k - 6) then 2 ^ 64 - 1 else 0)

theorem getLsbD_label (hw : w ≤ 64) (k : Nat) (q : Fin 8 × Nat) :
    (label w k q.1).getLsbD q.2 = (labelVal w q).testBit k := by
  simp only [label, labelVal, BitVec.getLsbD_ofNat]
  by_cases h : q.2 < w
  · have hsplit : 64 * (q.1 : Nat) + q.2 + 512 = 2 ^ 6 * ((q.1 : Nat) + 8) + q.2 := by omega
    rw [if_pos h, hsplit, Nat.testBit_mul_pow_two_add _ (by omega), decide_eq_true h, Bool.true_and]
    by_cases hk : k < 6
    · simp only [hk, if_true]
      exact testBit_bitPatterns k hk q.2 (by omega)
    · simp only [hk, if_false]
      by_cases hb : ((q.1 : Nat) + 8).testBit (k - 6) = true
      · rw [if_pos hb, Nat.testBit_two_pow_sub_one, hb, decide_eq_true (by omega)]
      · simp [hb]
  · simp [h]

theorem labelVal_lt (hw : w ≤ 64) (q : Fin 8 × Nat) : labelVal w q < 2 ^ 10 := by
  have := q.1.isLt
  unfold labelVal; split <;> omega

theorem labelVal_inj (hw : w ≤ 64) {q q' : Fin 8 × Nat}
    (h : ∀ k < 10, (labelVal w q).testBit k = (labelVal w q').testBit k) :
    labelVal w q = labelVal w q' := by
  apply Nat.eq_of_testBit_eq
  intro k
  by_cases hk : k < 10
  · exact h k hk
  · have h10 : 2 ^ 10 ≤ 2 ^ k := Nat.pow_le_pow_right (by omega) (by omega)
    rw [Nat.testBit_lt_two_pow (by have := labelVal_lt hw q; omega),
      Nat.testBit_lt_two_pow (by have := labelVal_lt hw q'; omega)]

/-- A map that moves bits and sends each `label w k` to `label w (π k)` takes bit `q` from the
bit whose label is the label of `q` with its bits permuted by `π`. -/
theorem Moves.testBit_labelVal_src {f : (Fin 8 → BitVec w) → Fin 8 → BitVec w}
    {σ : Fin 8 × Nat → Fin 8 × Nat} (hw : w ≤ 64) (hf : Moves f σ) {π : Nat → Nat}
    (hπ : ∀ k < 10, f (label w k) = label w (π k)) (q : Fin 8 × Nat) {k : Nat} (hk : k < 10) :
    (labelVal w (σ q)).testBit k = (labelVal w q).testBit (π k) := by
  obtain ⟨j, p⟩ := q
  rw [← getLsbD_label hw, ← hf, hπ k hk, getLsbD_label hw (π k) (j, p)]

/-- Equal labels name the same bit, or two bits outside the words. -/
theorem getLsbD_eq_of_labelVal (hw : w ≤ 64) {q q' : Fin 8 × Nat} (h : labelVal w q = labelVal w q')
    (bs : Fin 8 → BitVec w) : (bs q.1).getLsbD q.2 = (bs q'.1).getLsbD q'.2 := by
  unfold labelVal at h
  have := q.1.isLt
  have := q'.1.isLt
  by_cases hq : q.2 < w <;> by_cases hq' : q'.2 < w <;> simp only [hq, hq', if_true, if_false] at h
  · rw [show q.1 = q'.1 from Fin.ext (by omega), show q.2 = q'.2 by omega]
  · omega
  · omega
  · rw [BitVec.getLsbD_ge _ _ (by omega), BitVec.getLsbD_ge _ _ (by omega)]

theorem Word.bits_le (W : Word) : W.bits ≤ 64 := by cases W <;> decide

end ct_aes.bitslice