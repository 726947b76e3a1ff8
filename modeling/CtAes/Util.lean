-- The macro `define_function_of_involutions_with_inverse!` of util.rs: a function written as
-- a sequence of steps that are each their own inverse, and its inverse, the same steps in
-- reverse (`reverse!`). Block `ShiftRows` and the bit-slice transposes are made this way.
-- Also the loops of the crate over a range of indices, `for i in m..m + d`, kept as folds.
import CtAes.Bits

namespace ct_aes.util

variable {α : Type}

/-- The function that the macro defines: the steps, in order. -/
def run (steps : List (α → α)) (x : α) : α := steps.foldl (fun x f => f x) x

/-- The inverse that the macro defines: `reverse!` of the same steps. -/
def run_inverse (steps : List (α → α)) (x : α) : α := run steps.reverse x

/-- Every step is its own inverse. -/
def Involutive (steps : List (α → α)) : Prop := ∀ f ∈ steps, ∀ x, f (f x) = x

@[simp] theorem run_nil (x : α) : run [] x = x := rfl

@[simp] theorem run_cons (f : α → α) (steps : List (α → α)) (x : α) :
    run (f :: steps) x = run steps (f x) := rfl

theorem run_append (s t : List (α → α)) (x : α) : run (s ++ t) x = run t (run s x) := by
  simp [run, List.foldl_append]

theorem Involutive.reverse {steps : List (α → α)} (h : Involutive steps) :
    Involutive steps.reverse := fun f hf => h f (List.mem_reverse.mp hf)

/-- Running the steps and then their reverse gives the input back. -/
theorem run_inverse_run {steps : List (α → α)} (h : Involutive steps) (x : α) :
    run_inverse steps (run steps x) = x := by
  unfold run_inverse
  induction steps generalizing x with
  | nil => rfl
  | cons f steps ih =>
    simp only [List.reverse_cons, run_append, run_cons, run_nil]
    rw [ih fun g hg => h g (List.mem_cons_of_mem f hg)]
    exact h f (List.mem_cons_self f steps) x

/-- A step that commutes with every step of a run commutes with the run. -/
theorem run_comm {f : α → α} {steps : List (α → α)} (h : ∀ g ∈ steps, ∀ x, f (g x) = g (f x))
    (x : α) : f (run steps x) = run steps (f x) := by
  induction steps generalizing x with
  | nil => rfl
  | cons g steps ih =>
    rw [run_cons, run_cons, ih (fun g' hg' => h g' (List.mem_cons_of_mem g hg')),
      h g (List.mem_cons_self g steps)]

/-- Steps that commute with one another and each undo themselves: running them twice is the
identity. -/
theorem run_run_of_commute {steps : List (α → α)}
    (hc : steps.Pairwise fun f g => ∀ x, f (g x) = g (f x)) (hi : Involutive steps) (x : α) :
    run steps (run steps x) = x := by
  induction steps generalizing x with
  | nil => rfl
  | cons f steps ih =>
    obtain ⟨hf, hc⟩ := List.pairwise_cons.mp hc
    rw [run_cons, run_cons, run_comm hf, hi f (List.mem_cons_self f steps),
      ih hc fun g hg => hi g (List.mem_cons_of_mem f hg)]

theorem run_run_inverse {steps : List (α → α)} (h : Involutive steps) (x : α) :
    run steps (run_inverse steps x) = x := by
  have := run_inverse_run h.reverse x
  rwa [run_inverse, List.reverse_reverse] at this

/-! ## Loops over a range -/

/-- What each turn of a loop over `m, m + 1, …, m + d - 1` keeps, from its index to the next,
holds when the loop ends. -/
theorem foldl_range'_invariant {β : Type} (P : Nat → β → Prop) (f : β → Nat → β) {m d : Nat}
    {x : β} (step : ∀ i x, m ≤ i → i < m + d → P i x → P (i + 1) (f x i)) (init : P m x) :
    P (m + d) ((List.range' m d).foldl f x) := by
  induction d generalizing m x with
  | zero => simpa using init
  | succ d ih =>
    rw [List.range'_succ, List.foldl_cons, show m + (d + 1) = m + 1 + d by omega]
    exact ih (fun i x h1 h2 => step i x (by omega) (by omega)) (step m x le_rfl (by omega) init)

end ct_aes.util
