-- `BlockCipher for Schedule` of hardware/x86.rs against the reference schedule of aes/simple.rs:
-- a key expanded with AESKEYGENASSIST and the shuffles, and the first block of the buffer run
-- through AESENC or AESDEC, give the bytes and the count that the reference gives.
import CtAes.Hardware.X86.Key

namespace ct_aes.hardware.x86

/-- The shared body of the hardware `encrypt_blocks` and `decrypt_blocks` is the reference one
when the round keys are the reference round keys and the cipher is the reference cipher, both
read through `transmute`. -/
theorem process_blocks_refines {cipher : Block → List Block → Option Block}
    {cipher' : aes.Block → List aes.Block → Option aes.Block} {sched : aes.Schedule Block}
    {sched' : aes.Schedule aes.Block} (hs : sched.round_keys.map Block.into_block = sched'.round_keys)
    (hc : ∀ b ks, (cipher (Block.from_block b) ks).map Block.into_block =
      cipher' b (ks.map Block.into_block))
    (bytes : List (BitVec 8)) :
    process_blocks cipher sched bytes = aes.simple.process_blocks cipher' sched' bytes := by
  unfold process_blocks aes.simple.process_blocks
  split_ifs
  · have hb := fun b => hc b sched.round_keys
    rw [hs] at hb
    simp only [Block.try_from, aes.Schedule.as_slice]
    cases aes.Block.try_from (bytes.take aes.BLOCK_LEN) with
    | none => rfl
    | some b =>
      simp only [Option.map_some', Option.bind_eq_bind, Option.some_bind]
      rw [← hb b]
      cases cipher (Block.from_block b) sched.round_keys <;> rfl
  · rfl

/-- The AES-NI `encrypt_blocks` and `decrypt_blocks` of `Schedule::from(K)` are the reference
ones of the reference schedule. -/
theorem schedule_from_blocks_eq (key : aes.Key) :
    encrypt_blocks (Schedule.from key) = aes.simple.encrypt_blocks (aes.simple.Schedule.from .little key) ∧
      decrypt_blocks (Schedule.from key) = aes.simple.decrypt_blocks (aes.simple.Schedule.from .little key) := by
  have hs := (keys_to_schedule_from key).2.map_into_block key (keys_to_schedule_from key).1
  refine ⟨funext (process_blocks_refines hs fun b ks => ?_),
    funext (process_blocks_refines hs fun b ks => ?_)⟩
  · rw [Block.aes_ni_simulates.encrypt, Block.into_block_from_block]
  · rw [Block.aes_ni_simulates.decrypt, Block.into_block_from_block]

/-- `BlockCipher` of `hardware::x86::Schedule::from(K)` gives, on every buffer, the bytes and
the count of the reference `BlockCipher` of `aes::simple::Schedule::from(K)`, for every key: the
AES-NI key schedule and the AES-NI rounds together are the reference cipher. -/
theorem blocks_refine_reference (key : aes.Key) (bytes : List (BitVec 8)) :
    encrypt_blocks (Schedule.from key) bytes =
        aes.simple.encrypt_blocks (aes.simple.Schedule.from .little key) bytes ∧
      decrypt_blocks (Schedule.from key) bytes =
        aes.simple.decrypt_blocks (aes.simple.Schedule.from .little key) bytes :=
  ⟨congrFun (schedule_from_blocks_eq key).1 bytes, congrFun (schedule_from_blocks_eq key).2 bytes⟩

end ct_aes.hardware.x86
