-- The backends against one another and against the standard. The AES-NI backend decrypts what
-- it encrypts, and the AES-NI and bit-sliced backends compute the FIPS-197 cipher: each refines
-- the reference backend (Hardware/X86/Cipher, Bitslice/Cipher), and the reference backend
-- refines the standard (Aes/Standard).
import CtAes.Aes.Standard
import CtAes.Bitslice.Cipher
import CtAes.Hardware.X86.Cipher

namespace ct_aes

open aes

/-! ## The AES-NI backend decrypts what it encrypts -/

namespace hardware.x86

/-- The AES-NI `decrypt_blocks` undoes `encrypt_blocks` of the same schedule, and the other way
round, for every key and every buffer that starts with a block: the block comes back, the rest
of the buffer is not touched, and both calls return 16. -/
theorem aes_ni_blocks_round_trip (key : aes.Key) (b : aes.Block) (rest : List (BitVec 8)) :
    (encrypt_blocks (Schedule.from key) (b.toList ++ rest)).bind
        (fun r => decrypt_blocks (Schedule.from key) r.1) = some (b.toList ++ rest, 16) ∧
      (decrypt_blocks (Schedule.from key) (b.toList ++ rest)).bind
        (fun r => encrypt_blocks (Schedule.from key) r.1) = some (b.toList ++ rest, 16) := by
  have hv := (aes.simple.Schedule.from .little key).valid_as_slice
  have hi := aes.Block.primitives_inverses
  rw [(schedule_from_blocks_eq key).1, (schedule_from_blocks_eq key).2]
  exact ⟨aes.simple.process_blocks_append_undo _ b rest
      (aes.Block.primitives.aes.encrypt_isSome b hv) fun _ => hi.decrypt_of_encrypt hv,
    aes.simple.process_blocks_append_undo _ b rest
      (aes.Block.primitives.aes.decrypt_isSome b hv) fun _ => hi.encrypt_of_decrypt hv⟩

end hardware.x86

/-! ## Every backend computes the standard's cipher -/

/-- Block `j` of a buffer long enough to hold it, as a reference block. -/
def block_of (buf : List (BitVec 8)) (j : Nat) : Block := ⟨fun i => buf.getD (16 * j + i) 0⟩

theorem block_of_toList (buf : List (BitVec 8)) {j : Nat} (h : 16 * j + 16 ≤ buf.length) :
    (block_of buf j).toList = (buf.drop (16 * j)).take 16 := by
  refine List.ext_getElem (by simp [Block.toList]; omega) fun i h1 h2 => ?_
  simp only [block_of, Block.toList, List.getElem_ofFn, List.getElem_take, List.getElem_drop]
  rw [List.getD_eq_getElem _ _ (by simp [Block.toList] at h1; omega)]

/-- A bit-sliced cipher that acts on each block as a reference cipher does, where the reference
`BlockCipher` body writes `std b` over every block `b`, leaves `std` of each block of the batch
in its place and returns `num_bytes`. -/
theorem bitslice_batch_standard (W : bitslice.Word) (key : Key) (buf : List (BitVec 8))
    (hbuf : bitslice.num_bytes W ≤ buf.length)
    (cipher : bitslice.Bitslice W → List (bitslice.RoundKey W) → Option (bitslice.Bitslice W))
    (ref : Block → List Block → Option Block)
    (hsome : ∀ x, (cipher x (bitslice.Schedule.from W key).as_slice).isSome)
    (hblock : ∀ x {b}, b < bitslice.num_blocks W →
      (cipher x ((simple.Schedule.from .little key).round_keys.map (bitslice.RoundKey.from_block W))).map
        (·.block b) = ref (x.block b) (simple.Schedule.from .little key).as_slice)
    (std : Block → Fin 16 → BitVec 8)
    (hstd : ∀ b, simple.process_blocks ref (simple.Schedule.from .little key) b.toList =
      some (List.ofFn (std b), 16)) :
    ∃ out, (bitslice.impl W).process_blocks cipher (bitslice.Schedule.from W key) buf =
        some (out, bitslice.num_bytes W) ∧
      ∀ j < bitslice.num_blocks W, (out.drop (16 * j)).take 16 = List.ofFn (std (block_of buf j)) := by
  obtain ⟨out, h1, -, h3⟩ := bitslice.process_blocks_refines W key buf hbuf cipher ref hsome hblock
  refine ⟨out, h1, fun j hj => ?_⟩
  have hl : 16 * j + 16 ≤ buf.length := by
    have := (bitslice.num_bytes_eq W).1
    omega
  have h := hstd (block_of buf j)
  rw [block_of_toList buf hl, h3 j hj] at h
  exact (Prod.mk.inj (Option.some.inj h)).1

/-- Every backend computes AES as FIPS-197 defines it, for every key. The AES-NI
`BlockCipher` of `hardware::x86::Schedule::from(K)` writes `Cipher` (`InvCipher` for
decryption) of the first block of the buffer over it and keeps the rest. The bit-sliced
`BlockCipher` of `bitslice::Schedule::from(K)`, for every word width, on a buffer of at least
one batch, returns `num_bytes` and leaves `Cipher` (`InvCipher`) of each block of the batch in
its place. -/
theorem backends_standard (key : Key) :
    (∀ (b : Block) (rest : List (BitVec 8)),
      hardware.x86.encrypt_blocks (hardware.x86.Schedule.from key) (b.toList ++ rest) =
          some (List.ofFn (Cipher b.bytes key.rounds (key_expansion key)) ++ rest, 16) ∧
        hardware.x86.decrypt_blocks (hardware.x86.Schedule.from key) (b.toList ++ rest) =
          some (List.ofFn (InvCipher b.bytes key.rounds (key_expansion key)) ++ rest, 16)) ∧
      ∀ (W : bitslice.Word) (buf : List (BitVec 8)), bitslice.num_bytes W ≤ buf.length →
        (∃ out, (bitslice.impl W).encrypt_blocks (bitslice.Schedule.from W key) buf =
            some (out, bitslice.num_bytes W) ∧
          ∀ j < bitslice.num_blocks W, (out.drop (16 * j)).take 16 =
            List.ofFn (Cipher (block_of buf j).bytes key.rounds (key_expansion key))) ∧
        ∃ out, (bitslice.impl W).decrypt_blocks (bitslice.Schedule.from W key) buf =
            some (out, bitslice.num_bytes W) ∧
          ∀ j < bitslice.num_blocks W, (out.drop (16 * j)).take 16 =
            List.ofFn (InvCipher (block_of buf j).bytes key.rounds (key_expansion key)) := by
  refine ⟨fun b rest => ?_, fun W buf hbuf => ⟨?_, ?_⟩⟩
  · rw [(hardware.x86.schedule_from_blocks_eq key).1, (hardware.x86.schedule_from_blocks_eq key).2]
    exact simple.blocks_standard key b rest
  · exact bitslice_batch_standard W key buf hbuf _ _
      (fun x => (bitslice.Bitslice.primitives W).aes.encrypt_isSome x
        (bitslice.Schedule.from W key).valid_as_slice)
      (fun x _ hb => bitslice.Bitslice.encrypt_block W x _ hb) _
      fun b => by simpa using (simple.blocks_standard key b []).1
  · exact bitslice_batch_standard W key buf hbuf _ _
      (fun x => (bitslice.Bitslice.primitives W).aes.decrypt_isSome x
        (bitslice.Schedule.from W key).valid_as_slice)
      (fun x _ hb => bitslice.Bitslice.decrypt_block W x _ hb) _
      fun b => by simpa using (simple.blocks_standard key b []).2

theorem backends_standard_u64_zero :
    bitslice.num_bytes .u64 ≤ (List.replicate 64 (0 : BitVec 8)).length ∧
      (∃ out, (bitslice.impl .u64).encrypt_blocks
          (bitslice.Schedule.from .u64 (.Aes128 (List.replicate 16 0) rfl)) (List.replicate 64 0) =
            some (out, bitslice.num_bytes .u64) ∧
        ∀ j < bitslice.num_blocks .u64, (out.drop (16 * j)).take 16 =
          List.ofFn (Cipher (block_of (List.replicate 64 0) j).bytes
            (Key.Aes128 (List.replicate 16 0) rfl).rounds
            (key_expansion (.Aes128 (List.replicate 16 0) rfl)))) ∧
      ∃ out, (bitslice.impl .u64).decrypt_blocks
          (bitslice.Schedule.from .u64 (.Aes128 (List.replicate 16 0) rfl)) (List.replicate 64 0) =
            some (out, bitslice.num_bytes .u64) ∧
        ∀ j < bitslice.num_blocks .u64, (out.drop (16 * j)).take 16 =
          List.ofFn (InvCipher (block_of (List.replicate 64 0) j).bytes
            (Key.Aes128 (List.replicate 16 0) rfl).rounds
            (key_expansion (.Aes128 (List.replicate 16 0) rfl))) :=
  ⟨by decide, (backends_standard _).2 .u64 _ (by decide)⟩

end ct_aes
