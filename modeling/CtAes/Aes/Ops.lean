-- The round structure of aes/ops.rs, for any state and round key. `encrypt` adds the first
-- round key, runs `encrypt_round` over the middle keys and ends with `encrypt_round_last`;
-- `decrypt` adds the last key and walks the middle keys back. Two laws hold for every
-- backend: decryption undoes encryption once each primitive has its inverse, and a map
-- that commutes with each round commutes with the whole cipher.
import Mathlib.Data.List.Basic

namespace ct_aes.aes

/-- `trait Aes`: `AddRoundKey` and the four rounds. -/
structure Aes (S K : Type) where
  add_round_key : S → K → S
  encrypt_round : S → K → S
  encrypt_round_last : S → K → S
  decrypt_round : S → K → S
  decrypt_round_last : S → K → S

/-- The traits `SubBytes`, `ShiftRows`, `MixColumns` and `AddRoundKey` of one state type. -/
structure Primitives (S K : Type) where
  sub_bytes : S → S
  inv_sub_bytes : S → S
  shift_rows : S → S
  inv_shift_rows : S → S
  mix_columns : S → S
  inv_mix_columns : S → S
  add_round_key : S → K → S

variable {S K T L : Type}

/-- `impl<T> Aes for T where T: Copy + ShiftRows + MixColumns + SubBytes + AddRoundKey`. -/
def Primitives.aes (p : Primitives S K) : Aes S K where
  add_round_key := p.add_round_key
  encrypt_round s rk := p.add_round_key (p.mix_columns (p.shift_rows (p.sub_bytes s))) rk
  encrypt_round_last s rk := p.add_round_key (p.shift_rows (p.sub_bytes s)) rk
  decrypt_round s rk := p.inv_mix_columns (p.add_round_key (p.inv_sub_bytes (p.inv_shift_rows s)) rk)
  decrypt_round_last s rk := p.add_round_key (p.inv_sub_bytes (p.inv_shift_rows s)) rk

@[simp] theorem Primitives.aes_add_round_key (p : Primitives S K) :
    p.aes.add_round_key = p.add_round_key := rfl

theorem Primitives.aes_encrypt_round_last (p : Primitives S K) (s : S) (k : K) :
    p.aes.encrypt_round_last s k = p.add_round_key (p.shift_rows (p.sub_bytes s)) k := rfl

theorem Primitives.aes_decrypt_round_last (p : Primitives S K) (s : S) (k : K) :
    p.aes.decrypt_round_last s k = p.add_round_key (p.inv_sub_bytes (p.inv_shift_rows s)) k := rfl

/-- `Aes::encrypt`. The `assert!` on the number of round keys fails as `none`. -/
def Aes.encrypt (a : Aes S K) (s : S) (round_keys : List K) : Option S :=
  let rounds := round_keys.length
  if rounds = 11 ∨ rounds = 13 ∨ rounds = 15 then do
    let first ← round_keys.head?
    let last ← round_keys.getLast?
    let s := a.add_round_key s first
    let s := ((round_keys.drop 1).take (rounds - 2)).foldl a.encrypt_round s
    pure (a.encrypt_round_last s last)
  else none

/-- `Aes::decrypt`: the middle keys of `round_keys[1..rounds-1]` in reverse. -/
def Aes.decrypt (a : Aes S K) (s : S) (round_keys : List K) : Option S :=
  let rounds := round_keys.length
  if rounds = 11 ∨ rounds = 13 ∨ rounds = 15 then do
    let first ← round_keys.head?
    let last ← round_keys.getLast?
    let s := a.add_round_key s last
    let s := ((round_keys.drop 1).take (rounds - 2)).reverse.foldl a.decrypt_round s
    pure (a.decrypt_round_last s first)
  else none

/-! ## A key list as first, middle and last keys -/

/-- The number of round keys that the `assert!` accepts. -/
def ValidRounds (n : Nat) : Prop := n = 11 ∨ n = 13 ∨ n = 15

instance (n : Nat) : Decidable (ValidRounds n) := inferInstanceAs (Decidable (_ ∨ _))

theorem exists_first_last {ks : List K} (h : 2 ≤ ks.length) :
    ∃ k0 mid kl, ks = k0 :: (mid ++ [kl]) := by
  obtain ⟨k0, rest, rfl⟩ : ∃ k0 rest, ks = k0 :: rest := by
    cases ks with
    | nil => simp at h
    | cons k0 rest => exact ⟨k0, rest, rfl⟩
  have hne : rest ≠ [] := by rintro rfl; simp at h
  exact ⟨k0, rest.dropLast, rest.getLast hne, by rw [List.dropLast_append_getLast hne]⟩

theorem getLast?_first_last (k0 kl : K) (mid : List K) :
    (k0 :: (mid ++ [kl])).getLast? = some kl := by
  rw [← List.cons_append, List.getLast?_append]
  simp

theorem Aes.encrypt_shape (a : Aes S K) (s : S) (k0 kl : K) (mid : List K)
    (h : ValidRounds (mid.length + 2)) :
    a.encrypt s (k0 :: (mid ++ [kl])) =
      some (a.encrypt_round_last (mid.foldl a.encrypt_round (a.add_round_key s k0)) kl) := by
  have hl : (k0 :: (mid ++ [kl])).length = mid.length + 2 := by simp
  simp only [Aes.encrypt, hl, if_pos (show mid.length + 2 = 11 ∨ _ from h), getLast?_first_last]
  simp

theorem Aes.decrypt_shape (a : Aes S K) (s : S) (k0 kl : K) (mid : List K)
    (h : ValidRounds (mid.length + 2)) :
    a.decrypt s (k0 :: (mid ++ [kl])) =
      some (a.decrypt_round_last (mid.reverse.foldl a.decrypt_round (a.add_round_key s kl)) k0) := by
  have hl : (k0 :: (mid ++ [kl])).length = mid.length + 2 := by simp
  simp only [Aes.decrypt, hl, if_pos (show mid.length + 2 = 11 ∨ _ from h), getLast?_first_last]
  simp

theorem Aes.encrypt_invalid (a : Aes S K) (s : S) (ks : List K) (h : ¬ ValidRounds ks.length) :
    a.encrypt s ks = none := if_neg h

theorem Aes.decrypt_invalid (a : Aes S K) (s : S) (ks : List K) (h : ¬ ValidRounds ks.length) :
    a.decrypt s ks = none := if_neg h

/-- The `assert!` is the only way to fail: a valid key list always gives a block. -/
theorem Aes.encrypt_isSome (a : Aes S K) (s : S) {ks : List K} (hv : ValidRounds ks.length) :
    (a.encrypt s ks).isSome := by
  obtain ⟨k0, mid, kl, rfl⟩ := exists_first_last (show 2 ≤ ks.length by rcases hv with h | h | h <;> omega)
  rw [a.encrypt_shape _ _ _ _ (by simpa using hv)]
  rfl

theorem Aes.decrypt_isSome (a : Aes S K) (s : S) {ks : List K} (hv : ValidRounds ks.length) :
    (a.decrypt s ks).isSome := by
  obtain ⟨k0, mid, kl, rfl⟩ := exists_first_last (show 2 ≤ ks.length by rcases hv with h | h | h <;> omega)
  rw [a.decrypt_shape _ _ _ _ (by simpa using hv)]
  rfl

/-! ## Decryption undoes encryption -/

/-- Each inverse primitive undoes its primitive in both orders, and adding a round key
twice adds nothing. -/
structure Primitives.Inverses (p : Primitives S K) : Prop where
  inv_sub_bytes : ∀ s, p.inv_sub_bytes (p.sub_bytes s) = s
  sub_bytes_inv : ∀ s, p.sub_bytes (p.inv_sub_bytes s) = s
  inv_shift_rows : ∀ s, p.inv_shift_rows (p.shift_rows s) = s
  shift_rows_inv : ∀ s, p.shift_rows (p.inv_shift_rows s) = s
  inv_mix_columns : ∀ s, p.inv_mix_columns (p.mix_columns s) = s
  mix_columns_inv : ∀ s, p.mix_columns (p.inv_mix_columns s) = s
  add_round_key_twice : ∀ s k, p.add_round_key (p.add_round_key s k) k = s

section inverses

variable {p : Primitives S K} (h : p.Inverses)
include h

/-- One decryption round takes `ShiftRows (SubBytes t')` back to `ShiftRows (SubBytes t)`
when `t'` is the encryption round of `t`. -/
theorem Primitives.Inverses.decrypt_round_encrypt_round (t : S) (k : K) :
    p.aes.decrypt_round (p.shift_rows (p.sub_bytes (p.aes.encrypt_round t k))) k =
      p.shift_rows (p.sub_bytes t) := by
  simp only [Primitives.aes, h.inv_shift_rows, h.inv_sub_bytes, h.add_round_key_twice,
    h.inv_mix_columns]

theorem Primitives.Inverses.encrypt_round_decrypt_round (t : S) (k : K) :
    p.aes.encrypt_round (p.inv_sub_bytes (p.inv_shift_rows (p.aes.decrypt_round t k))) k =
      p.inv_sub_bytes (p.inv_shift_rows t) := by
  simp only [Primitives.aes, h.shift_rows_inv, h.sub_bytes_inv, h.mix_columns_inv,
    h.add_round_key_twice]

theorem Primitives.Inverses.decrypt_rounds (mid : List K) (t : S) :
    mid.reverse.foldl p.aes.decrypt_round
        (p.shift_rows (p.sub_bytes (mid.foldl p.aes.encrypt_round t))) =
      p.shift_rows (p.sub_bytes t) := by
  induction mid generalizing t with
  | nil => rfl
  | cons k mid ih =>
    simp only [List.reverse_cons, List.foldl_append, List.foldl_cons, List.foldl_nil]
    rw [ih, h.decrypt_round_encrypt_round]

theorem Primitives.Inverses.encrypt_rounds (mid : List K) (t : S) :
    mid.foldl p.aes.encrypt_round
        (p.inv_sub_bytes (p.inv_shift_rows (mid.reverse.foldl p.aes.decrypt_round t))) =
      p.inv_sub_bytes (p.inv_shift_rows t) := by
  induction mid generalizing t with
  | nil => rfl
  | cons k mid ih =>
    simp only [List.reverse_cons, List.foldl_append, List.foldl_cons, List.foldl_nil]
    rw [h.encrypt_round_decrypt_round, ih]

/-- Decrypting the encryption gives the block back, for every key list that the `assert!`
accepts. -/
theorem Primitives.Inverses.decrypt_encrypt (s : S) (ks : List K) (hv : ValidRounds ks.length) :
    (p.aes.encrypt s ks).bind (p.aes.decrypt · ks) = some s := by
  obtain ⟨k0, mid, kl, rfl⟩ := exists_first_last (show 2 ≤ ks.length by rcases hv with h | h | h <;> omega)
  have hm : ValidRounds (mid.length + 2) := by simpa using hv
  rw [Aes.encrypt_shape _ _ _ _ _ hm, Option.some_bind, Aes.decrypt_shape _ _ _ _ _ hm]
  rw [p.aes_encrypt_round_last, p.aes_decrypt_round_last, p.aes_add_round_key,
    h.add_round_key_twice, h.decrypt_rounds, h.inv_shift_rows, h.inv_sub_bytes, h.add_round_key_twice]

theorem Primitives.Inverses.encrypt_decrypt (s : S) (ks : List K) (hv : ValidRounds ks.length) :
    (p.aes.decrypt s ks).bind (p.aes.encrypt · ks) = some s := by
  obtain ⟨k0, mid, kl, rfl⟩ := exists_first_last (show 2 ≤ ks.length by rcases hv with h | h | h <;> omega)
  have hm : ValidRounds (mid.length + 2) := by simpa using hv
  rw [Aes.decrypt_shape _ _ _ _ _ hm, Option.some_bind, Aes.encrypt_shape _ _ _ _ _ hm]
  rw [p.aes_encrypt_round_last, p.aes_decrypt_round_last, p.aes_add_round_key,
    h.add_round_key_twice, h.encrypt_rounds, h.sub_bytes_inv, h.shift_rows_inv, h.add_round_key_twice]

theorem Primitives.Inverses.decrypt_of_encrypt {s c : S} {ks : List K} (hv : ValidRounds ks.length)
    (he : p.aes.encrypt s ks = some c) : p.aes.decrypt c ks = some s := by
  simpa [he] using h.decrypt_encrypt s ks hv

theorem Primitives.Inverses.encrypt_of_decrypt {s c : S} {ks : List K} (hv : ValidRounds ks.length)
    (hd : p.aes.decrypt s ks = some c) : p.aes.encrypt c ks = some s := by
  simpa [hd] using h.encrypt_decrypt s ks hv

end inverses

/-! ## Simulation -/

/-- A map `f` of states and `g` of round keys under which each round of `a` is the round of
`b`. -/
structure Aes.Simulates (a : Aes S K) (b : Aes T L) (f : S → T) (g : K → L) : Prop where
  add_round_key : ∀ s k, f (a.add_round_key s k) = b.add_round_key (f s) (g k)
  encrypt_round : ∀ s k, f (a.encrypt_round s k) = b.encrypt_round (f s) (g k)
  encrypt_round_last : ∀ s k, f (a.encrypt_round_last s k) = b.encrypt_round_last (f s) (g k)
  decrypt_round : ∀ s k, f (a.decrypt_round s k) = b.decrypt_round (f s) (g k)
  decrypt_round_last : ∀ s k, f (a.decrypt_round_last s k) = b.decrypt_round_last (f s) (g k)

/-- Each primitive of `p` is the primitive of `q` under `f` and `g`. -/
structure Primitives.Simulates (p : Primitives S K) (q : Primitives T L) (f : S → T) (g : K → L) :
    Prop where
  sub_bytes : ∀ s, f (p.sub_bytes s) = q.sub_bytes (f s)
  inv_sub_bytes : ∀ s, f (p.inv_sub_bytes s) = q.inv_sub_bytes (f s)
  shift_rows : ∀ s, f (p.shift_rows s) = q.shift_rows (f s)
  inv_shift_rows : ∀ s, f (p.inv_shift_rows s) = q.inv_shift_rows (f s)
  mix_columns : ∀ s, f (p.mix_columns s) = q.mix_columns (f s)
  inv_mix_columns : ∀ s, f (p.inv_mix_columns s) = q.inv_mix_columns (f s)
  add_round_key : ∀ s k, f (p.add_round_key s k) = q.add_round_key (f s) (g k)

theorem Primitives.Simulates.aes {p : Primitives S K} {q : Primitives T L} {f : S → T} {g : K → L}
    (h : p.Simulates q f g) : p.aes.Simulates q.aes f g := by
  constructor <;> intros <;>
    simp only [Primitives.aes, h.sub_bytes, h.inv_sub_bytes, h.shift_rows, h.inv_shift_rows,
      h.mix_columns, h.inv_mix_columns, h.add_round_key]

section simulation

variable {a : Aes S K} {b : Aes T L} {f : S → T} {g : K → L} (h : a.Simulates b f g)
include h

theorem Aes.Simulates.foldl_encrypt_round (ks : List K) (s : S) :
    f (ks.foldl a.encrypt_round s) = (ks.map g).foldl b.encrypt_round (f s) := by
  induction ks generalizing s with
  | nil => rfl
  | cons k ks ih => simp only [List.foldl_cons, List.map_cons, ih, h.encrypt_round]

theorem Aes.Simulates.foldl_decrypt_round (ks : List K) (s : S) :
    f (ks.foldl a.decrypt_round s) = (ks.map g).foldl b.decrypt_round (f s) := by
  induction ks generalizing s with
  | nil => rfl
  | cons k ks ih => simp only [List.foldl_cons, List.map_cons, ih, h.decrypt_round]

/-- A simulation of the rounds is a simulation of the whole encryption, for every key list. -/
theorem Aes.Simulates.encrypt (s : S) (ks : List K) :
    (a.encrypt s ks).map f = b.encrypt (f s) (ks.map g) := by
  by_cases hv : ValidRounds ks.length
  · obtain ⟨k0, mid, kl, rfl⟩ :=
      exists_first_last (show 2 ≤ ks.length by rcases hv with h | h | h <;> omega)
    have hm : ValidRounds (mid.length + 2) := by simpa using hv
    have hm' : ValidRounds ((mid.map g).length + 2) := by simpa using hm
    simp only [List.map_cons, List.map_append, List.map_nil]
    rw [a.encrypt_shape _ _ _ _ hm, b.encrypt_shape _ _ _ _ hm', Option.map_some',
      h.encrypt_round_last, h.foldl_encrypt_round, h.add_round_key]
  · rw [a.encrypt_invalid _ _ hv, b.encrypt_invalid _ _ (by simpa using hv), Option.map_none']

theorem Aes.Simulates.decrypt (s : S) (ks : List K) :
    (a.decrypt s ks).map f = b.decrypt (f s) (ks.map g) := by
  by_cases hv : ValidRounds ks.length
  · obtain ⟨k0, mid, kl, rfl⟩ :=
      exists_first_last (show 2 ≤ ks.length by rcases hv with h | h | h <;> omega)
    have hm : ValidRounds (mid.length + 2) := by simpa using hv
    have hm' : ValidRounds ((mid.map g).length + 2) := by simpa using hm
    simp only [List.map_cons, List.map_append, List.map_nil]
    rw [a.decrypt_shape _ _ _ _ hm, b.decrypt_shape _ _ _ _ hm', Option.map_some',
      h.decrypt_round_last, h.foldl_decrypt_round, List.map_reverse, h.add_round_key]
  · rw [a.decrypt_invalid _ _ hv, b.decrypt_invalid _ _ (by simpa using hv), Option.map_none']

end simulation

end ct_aes.aes
