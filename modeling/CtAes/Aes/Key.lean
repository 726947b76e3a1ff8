-- Keys and key schedules of aes/key.rs, and the `BlockCipher` entry points of lib.rs. A
-- `Key` holds 16, 24 or 32 bytes; a `Schedule` holds 11, 13 or 15 round keys. The generic
-- `BlockCipher` impl converts a prefix of the buffer to the backend's state, encrypts it and
-- writes it back; a panic of the Rust code is `none` here.
import CtAes.Aes.Block

namespace ct_aes.aes

/-- The round constants used for key expansion. -/
def ROUND_CONSTANTS : List (BitVec 8) := [0x01, 0x02, 0x04, 0x08, 0x10, 0x20, 0x40, 0x80, 0x1b, 0x36]

/-- A secret key which has not yet been expanded: 128, 192 or 256 bits. -/
inductive Key
  | Aes128 (bytes : List (BitVec 8)) (h : bytes.length = 16)
  | Aes192 (bytes : List (BitVec 8)) (h : bytes.length = 24)
  | Aes256 (bytes : List (BitVec 8)) (h : bytes.length = 32)

/-- `Key::from_bytes`: the slice must be 16, 24 or 32 bytes long. -/
def Key.from_bytes (key : List (BitVec 8)) : Option Key :=
  if h : key.length = 16 then some (.Aes128 key h)
  else if h : key.length = 24 then some (.Aes192 key h)
  else if h : key.length = 32 then some (.Aes256 key h)
  else none

/-- The number of rounds for a key of this length. -/
def Key.rounds : Key → Nat
  | .Aes128 .. => 10
  | .Aes192 .. => 12
  | .Aes256 .. => 14

/-- The number of 128-bit round keys used for encryption with a key of this length. -/
def Key.num_round_keys (key : Key) : Nat := key.rounds + 1

/-- The key material. -/
def Key.as_slice : Key → List (BitVec 8)
  | .Aes128 bytes _ => bytes
  | .Aes192 bytes _ => bytes
  | .Aes256 bytes _ => bytes

def Key.len (key : Key) : Nat := key.as_slice.length

/-- The three shapes of a key: its length, and its number of round keys. -/
theorem Key.shape (key : Key) :
    (key.len = 16 ∧ key.num_round_keys = 11) ∨ (key.len = 24 ∧ key.num_round_keys = 13) ∨
      (key.len = 32 ∧ key.num_round_keys = 15) := by
  cases key <;> simp_all [Key.len, Key.as_slice, Key.num_round_keys, Key.rounds]

theorem Key.from_bytes_as_slice {key : List (BitVec 8)} {k : Key} (h : Key.from_bytes key = some k) :
    k.as_slice = key := by
  unfold Key.from_bytes at h
  split_ifs at h <;> cases h <;> rfl

/-- The key that holds a slice is the one `from_bytes` returns for it. -/
theorem Key.from_bytes_of_as_slice (k : Key) : Key.from_bytes k.as_slice = some k := by
  cases k with
  | Aes128 b h => simp [Key.from_bytes, Key.as_slice, h]
  | Aes192 b h => simp [Key.from_bytes, Key.as_slice, h]
  | Aes256 b h => simp [Key.from_bytes, Key.as_slice, h]

/-- `Key::from_bytes` is the inverse of `as_slice`: it accepts exactly the slices of 16, 24 or
32 bytes and returns the one key that holds them, with `Nk + 6` rounds for a key of `Nk`
32-bit words, as FIPS-197 fixes. -/
theorem from_bytes_iff_as_slice (key : List (BitVec 8)) :
    ((Key.from_bytes key).isSome ↔ key.length = 16 ∨ key.length = 24 ∨ key.length = 32) ∧
      ∀ k : Key, Key.from_bytes key = some k ↔ k.as_slice = key ∧ k.rounds = key.length / 4 + 6 := by
  refine ⟨?_, fun k => ⟨fun h => ?_, fun ⟨h, _⟩ => h ▸ k.from_bytes_of_as_slice⟩⟩
  · unfold Key.from_bytes
    split_ifs <;> simp_all
  · obtain rfl := Key.from_bytes_as_slice h
    cases k <;> simp_all [Key.as_slice, Key.rounds]

/-- A generic container for round keys: 11, 13 or 15 of them. -/
structure Schedule (K : Type) where
  round_keys : List K
  valid : ValidRounds round_keys.length

/-- `Schedule::as_slice`. -/
def Schedule.as_slice {K : Type} (s : Schedule K) : List K := s.round_keys

theorem Schedule.valid_as_slice {K : Type} (s : Schedule K) : ValidRounds s.as_slice.length :=
  s.valid

/-! ## The cipher surface -/

/-- What the generic `BlockCipher` impl needs of a state `R` with round keys `K`: `Aes`,
`BlockRepr` and `TryFrom<&[u8]>`. `copy_to_slice b n` is what `b` writes into a slice of
length `n`, or `none` where it panics. -/
structure BlockImpl (R K : Type) where
  aes : Aes R K
  NUM_BLOCKS : Nat
  copy_to_slice : R → Nat → Option (List (BitVec 8))
  try_from : List (BitVec 8) → Option R

variable {R K : Type}

/-- The body that `encrypt_blocks` and `decrypt_blocks` of `impl<R> BlockCipher for
Schedule<R>` share, with `cipher` for `Aes::encrypt` or `Aes::decrypt`: the new buffer and
the number of bytes processed. -/
def BlockImpl.process_blocks (impl : BlockImpl R K) (cipher : R → List K → Option R)
    (sched : Schedule K) (bytes : List (BitVec 8)) : Option (List (BitVec 8) × Nat) := do
  let len := min bytes.length (impl.NUM_BLOCKS * BLOCK_LEN)
  let block ← impl.try_from (bytes.take len)
  let block ← cipher block sched.as_slice
  let out ← impl.copy_to_slice block len
  pure (out ++ bytes.drop len, len)

/-- `BlockCipher::encrypt_blocks`. -/
def BlockImpl.encrypt_blocks (impl : BlockImpl R K) (sched : Schedule K)
    (bytes : List (BitVec 8)) : Option (List (BitVec 8) × Nat) :=
  impl.process_blocks impl.aes.encrypt sched bytes

/-- `BlockCipher::decrypt_blocks`. -/
def BlockImpl.decrypt_blocks (impl : BlockImpl R K) (sched : Schedule K)
    (bytes : List (BitVec 8)) : Option (List (BitVec 8) × Nat) :=
  impl.process_blocks impl.aes.decrypt sched bytes

/-- The default method `ParallelBlockCipher::bytes_encrypted`. -/
def bytes_encrypted (PARALLEL_BLOCKS len : Nat) : Nat := min len PARALLEL_BLOCKS

end ct_aes.aes
