-- The bit-sliced cipher: `AddRoundKey` of bitslice/bitslice.rs, `BlockRepr` and
-- `TryFrom<&[u8]>` of bitslice/primitive.rs, and the generic `BlockCipher` of aes/key.rs on
-- `bitslice::Schedule`. Every primitive acts on each block of a bitslice as the reference
-- primitive acts on that block, so the whole cipher does; with the schedule theorem, a batch
-- encrypted bit-sliced is each of its blocks encrypted by the reference. Two things go wrong
-- at the surface: a buffer shorter than a batch makes `try_from` fail and the `unwrap`
-- panic, and `bytes_encrypted` counts blocks where the cipher counts bytes.
import CtAes.Bitslice.Key

namespace ct_aes.bitslice

open aes

/-! ## The primitives of a bitslice -/

section primitives

variable (W : Word)

/-- `AddRoundKey for Bitslice<W>`: `*self ^= rk.0`. -/
def Bitslice.add_round_key {W : Word} (x : Bitslice W) (rk : RoundKey W) : Bitslice W := x ^^^ rk.val

/-- The primitives of `Bitslice<W>`, with `RoundKey<W>` as its round key. -/
def Bitslice.primitives : Primitives (Bitslice W) (RoundKey W) where
  sub_bytes := Bitslice.sub_bytes
  inv_sub_bytes := Bitslice.inv_sub_bytes
  shift_rows := Bitslice.shift_rows
  inv_shift_rows := Bitslice.inv_shift_rows
  mix_columns := Bitslice.mix_columns
  inv_mix_columns := Bitslice.inv_mix_columns
  add_round_key := Bitslice.add_round_key

theorem Bitslice.block_add_round_key (x : Bitslice W) (rk : RoundKey W) (b : Nat) :
    (x.add_round_key rk).block b = (x.block b).add_round_key (rk.val.block b) :=
  Block.ext_get fun row col => by
    simp only [Bitslice.add_round_key, Bitslice.block, Block.get_ofFn, Block.get_add_round_key,
      Bitslice.get_xor]

/-- Block `b` of a bitslice goes through each primitive as through the reference one. -/
theorem Bitslice.primitives_simulates {b : Nat} (hb : b < num_blocks W) :
    (Bitslice.primitives W).Simulates Block.primitives (·.block b) (·.val.block b) where
  sub_bytes x := x.block_sub_bytes W hb
  inv_sub_bytes x := x.block_inv_sub_bytes W hb
  shift_rows x := x.block_shift_rows W hb
  inv_shift_rows x := x.block_inv_shift_rows W hb
  mix_columns x := x.block_mix_columns W hb
  inv_mix_columns x := x.block_inv_mix_columns W hb
  add_round_key x rk := x.block_add_round_key W rk b

/-- An operation that acts as `f` on every block, after one that acts as `g` with `f` undoing
`g`, gives the bitslice back. -/
theorem Bitslice.undo_blockwise {op op' : Bitslice W → Bitslice W} {f f' : Block → Block}
    (h : ∀ x : Bitslice W, ∀ b < num_blocks W, (op x).block b = f (x.block b))
    (h' : ∀ x : Bitslice W, ∀ b < num_blocks W, (op' x).block b = f' (x.block b))
    (hf : ∀ blk, f' (f blk) = blk) (x : Bitslice W) : op' (op x) = x :=
  Bitslice.ext_block W fun b hb => by rw [h' _ b hb, h x b hb, hf]

theorem Bitslice.primitives_inverses : (Bitslice.primitives W).Inverses where
  inv_sub_bytes := Bitslice.undo_blockwise W (fun x _ => x.block_sub_bytes W)
    (fun x _ => x.block_inv_sub_bytes W) Block.primitives_inverses.inv_sub_bytes
  sub_bytes_inv := Bitslice.undo_blockwise W (fun x _ => x.block_inv_sub_bytes W)
    (fun x _ => x.block_sub_bytes W) Block.primitives_inverses.sub_bytes_inv
  inv_shift_rows := Bitslice.undo_blockwise W (fun x _ => x.block_shift_rows W)
    (fun x _ => x.block_inv_shift_rows W) Block.inv_shift_rows_shift_rows
  shift_rows_inv := Bitslice.undo_blockwise W (fun x _ => x.block_inv_shift_rows W)
    (fun x _ => x.block_shift_rows W) Block.shift_rows_inv_shift_rows
  inv_mix_columns := Bitslice.undo_blockwise W (fun x _ => x.block_mix_columns W)
    (fun x _ => x.block_inv_mix_columns W) Block.inv_mix_columns_mix_columns
  mix_columns_inv := Bitslice.undo_blockwise W (fun x _ => x.block_inv_mix_columns W)
    (fun x _ => x.block_mix_columns W) Block.mix_columns_inv_mix_columns
  add_round_key_twice x rk := by
    apply Bitslice.ext
    funext j
    simp only [Bitslice.primitives, Bitslice.add_round_key, Bitslice.words_xor, BitVec.xor_assoc,
      BitVec.xor_self, BitVec.xor_zero]

/-- Block `b` of a bit-sliced encryption under replicated round keys is the reference
encryption of block `b`. -/
theorem Bitslice.encrypt_block (x : Bitslice W) (ref : List Block) {b : Nat} (hb : b < num_blocks W) :
    ((Bitslice.primitives W).aes.encrypt x (ref.map (RoundKey.from_block W))).map (·.block b) =
      Block.primitives.aes.encrypt (x.block b) ref := by
  rw [((Bitslice.primitives_simulates W hb).aes).encrypt, List.map_map]
  simp only [Function.comp_def, RoundKey.block_from_block W _ hb, List.map_id']

theorem Bitslice.decrypt_block (x : Bitslice W) (ref : List Block) {b : Nat} (hb : b < num_blocks W) :
    ((Bitslice.primitives W).aes.decrypt x (ref.map (RoundKey.from_block W))).map (·.block b) =
      Block.primitives.aes.decrypt (x.block b) ref := by
  rw [((Bitslice.primitives_simulates W hb).aes).decrypt, List.map_map]
  simp only [Function.comp_def, RoundKey.block_from_block W _ hb, List.map_id']

end primitives

/-! ## The cipher surface -/

section surface

variable (W : Word)

/-- `TryFrom<&[u8]> for Bitslice<W>`: exactly `num_bytes` bytes, else `Err`. -/
def Bitslice.try_from (bytes : List (BitVec 8)) : Option (Bitslice W) :=
  if h : bytes.length = num_bytes W then
    some (Bitslice.from_bytes W fun n => bytes.get ⟨n, by omega⟩)
  else none

/-- `Bitslice::from_slice`: the first `min(s.len(), num_bytes)` bytes of the slice copied into
a zeroed buffer, then packed. -/
def Bitslice.from_slice (s : List (BitVec 8)) : Bitslice W :=
  Bitslice.from_bytes W fun n =>
    if h : n.val < min s.length (num_bytes W) then s.get ⟨n, by omega⟩ else 0

/-- Unpacked, `from_slice` gives the slice cut to one batch, padded with zeros. -/
theorem Bitslice.into_bytes_from_slice (s : List (BitVec 8)) :
    List.ofFn (Bitslice.from_slice W s).into_bytes =
      s.take (num_bytes W) ++ List.replicate (num_bytes W - s.length) 0 := by
  rw [Bitslice.from_slice, into_bytes_from_bytes]
  refine List.ext_getElem (by simp; omega) fun n h1 h2 => ?_
  simp only [List.getElem_ofFn, List.getElem_append, List.length_take, List.getElem_take,
    List.getElem_replicate, List.get_eq_getElem]
  split_ifs <;> first | rfl | omega

/-- `BlockRepr::copy_to_slice`: `out.copy_from_slice(&bytes[..out.len()])` with `bytes` the
unpacked state; a slice longer than `num_bytes` panics. -/
def Bitslice.copy_to_slice {W : Word} (x : Bitslice W) (len : Nat) : Option (List (BitVec 8)) :=
  if len ≤ num_bytes W then some ((List.ofFn x.into_bytes).take len) else none

/-- `Bitslice<W>` as the state of the generic `BlockCipher`: `NUM_BLOCKS = num_blocks()`. -/
def impl : BlockImpl (Bitslice W) (RoundKey W) where
  aes := (Bitslice.primitives W).aes
  NUM_BLOCKS := num_blocks W
  copy_to_slice := Bitslice.copy_to_slice
  try_from := Bitslice.try_from W

/-- `ParallelBlockCipher for bitslice::Schedule`: `PARALLEL_BLOCKS = num_blocks()`. -/
def PARALLEL_BLOCKS : Nat := num_blocks W

theorem batch_len (buf : List (BitVec 8)) (h : num_bytes W ≤ buf.length) :
    min buf.length ((impl W).NUM_BLOCKS * BLOCK_LEN) = num_bytes W := by
  have := (num_bytes_eq W).1
  simp only [impl, BLOCK_LEN] at this ⊢
  omega

theorem Bitslice.try_from_take (buf : List (BitVec 8)) (h : num_bytes W ≤ buf.length) :
    Bitslice.try_from W (buf.take (num_bytes W)) = some (Bitslice.from_bytes W fun n => buf.getD n 0) := by
  rw [Bitslice.try_from, dif_pos (by simp [h])]
  congr 2
  funext n
  simp [List.getD_eq_getElem?_getD, List.getElem?_eq_getElem (show n.val < buf.length by omega)]

theorem Bitslice.copy_to_slice_all (x : Bitslice W) :
    x.copy_to_slice (num_bytes W) = some (List.ofFn x.into_bytes) := by
  rw [Bitslice.copy_to_slice, if_pos le_rfl, List.take_of_length_le (by simp)]

/-- On a buffer of at least one batch, the shared body of `encrypt_blocks` and
`decrypt_blocks` packs the first `num_bytes` bytes, runs the cipher on them, writes them
back, and returns `num_bytes`. -/
theorem impl_process_blocks (cipher : Bitslice W → List (RoundKey W) → Option (Bitslice W))
    (sched : Schedule (RoundKey W)) (buf : List (BitVec 8)) (h : num_bytes W ≤ buf.length) :
    (impl W).process_blocks cipher sched buf =
      (cipher (Bitslice.from_bytes W fun n => buf.getD n 0) sched.as_slice).map
        fun y => (List.ofFn y.into_bytes ++ buf.drop (num_bytes W), num_bytes W) := by
  rw [BlockImpl.process_blocks, batch_len W buf h]
  show (do
    let block ← Bitslice.try_from W (buf.take (num_bytes W))
    let block ← cipher block sched.as_slice
    let out ← block.copy_to_slice (num_bytes W)
    pure (out ++ buf.drop (num_bytes W), num_bytes W)) = _
  rw [Bitslice.try_from_take W buf h]
  simp only [Option.bind_eq_bind, Option.some_bind, Option.pure_def, Bitslice.copy_to_slice_all,
    Option.map_eq_bind]
  rfl

/-- Bytes `16 * j` to `16 * j + 15` of a list that holds an array are block `j` of it. -/
theorem drop_take_blockOf (l : List (BitVec 8)) (s : Fin (num_bytes W) → BitVec 8)
    (hs : ∀ n : Fin (num_bytes W), l.getD n 0 = s n) (hl : num_bytes W ≤ l.length) {j : Nat}
    (hj : j < num_blocks W) : (l.drop (16 * j)).take 16 = (blockOf W s j).toList := by
  have := (num_bytes_eq W).1
  apply List.ext_getElem
  · simp [Block.toList]
    omega
  · intro i h1 h2
    have hi : i < 16 := by simpa [Block.toList] using h2
    have hn : 16 * j + i < num_bytes W := by omega
    simp only [List.getElem_take, List.getElem_drop, Block.toList, List.getElem_ofFn, blockOf,
      byteAt, dif_pos hn, ← hs ⟨_, hn⟩]
    rw [List.getD_eq_getElem _ _ (by omega)]

theorem getD_ofFn_append (s : Fin (num_bytes W) → BitVec 8) (rest : List (BitVec 8))
    (n : Fin (num_bytes W)) : (List.ofFn s ++ rest).getD n 0 = s n := by
  rw [List.getD_eq_getElem _ _ (by simp; omega), List.getElem_append_left (by simp), List.getElem_ofFn]

/-- Block `j` of an unpacked state. -/
theorem drop_take_into_bytes (y : Bitslice W) (rest : List (BitVec 8)) {j : Nat}
    (hj : j < num_blocks W) :
    ((List.ofFn y.into_bytes ++ rest).drop (16 * j)).take 16 = (y.block j).toList := by
  rw [drop_take_blockOf W _ y.into_bytes (getD_ofFn_append W _ rest) (by simp) hj,
    ← block_from_bytes W _ hj, from_bytes_into_bytes]

end surface

/-! ## The reference cipher on one block -/

section reference

theorem Block.try_from_toList (blk : Block) : Block.try_from blk.toList = some blk := by
  rw [Block.try_from, dif_pos (by simp [Block.toList, BLOCK_LEN])]
  congr 1
  ext i : 2
  simp only [Block.toList, List.get_eq_getElem, List.getElem_ofFn]

/-- On the bytes of one block, the shared body of the reference `encrypt_blocks` and
`decrypt_blocks` runs the cipher on that block and returns 16. -/
theorem simple.process_blocks_toList (cipher : Block → List Block → Option Block)
    (sched : Schedule Block) (blk : Block) :
    simple.process_blocks cipher sched blk.toList =
      (cipher blk sched.as_slice).map fun c => (c.toList, 16) := by
  have hl : blk.toList.length = BLOCK_LEN := by simp [Block.toList, BLOCK_LEN]
  rw [simple.process_blocks, if_pos hl.ge, List.take_of_length_le hl.le,
    List.drop_of_length_le hl.le, Block.try_from_toList]
  simp only [Option.bind_eq_bind, Option.some_bind, Option.pure_def, List.append_nil,
    Option.map_eq_bind]
  rfl

theorem Block.exists_toList {P : List (BitVec 8)} (hP : P.length = BLOCK_LEN) :
    ∃ blk : Block, blk.toList = P :=
  ⟨⟨fun i => P.get ⟨i, by simp only [BLOCK_LEN] at hP; omega⟩⟩,
    List.ext_get (by simpa [Block.toList] using hP.symm) fun n _ _ => by
      simp only [Block.toList, List.get_eq_getElem, List.getElem_ofFn]⟩

/-- A reference cipher whose result the other one maps back: the shared body with the first,
then with the second, gives the block back. -/
theorem simple.process_blocks_undo (sched : Schedule Block) (blk : Block)
    {cipher cipher' : Block → List Block → Option Block}
    (hsome : (cipher blk sched.as_slice).isSome)
    (hundo : ∀ c, cipher blk sched.as_slice = some c → cipher' c sched.as_slice = some blk) :
    (simple.process_blocks cipher sched blk.toList).bind
        (fun r => simple.process_blocks cipher' sched r.1) = some (blk.toList, 16) := by
  obtain ⟨c, hc⟩ := Option.isSome_iff_exists.mp hsome
  rw [simple.process_blocks_toList, hc, Option.map_some', Option.some_bind,
    simple.process_blocks_toList, hundo c hc]
  rfl

/-- The reference `decrypt_blocks` undoes `encrypt_blocks` on a block, and the other way
round, for every schedule. -/
theorem simple.blocks_round_trip (sched : Schedule Block) (blk : Block) :
    (simple.encrypt_blocks sched blk.toList).bind (fun r => simple.decrypt_blocks sched r.1) =
        some (blk.toList, 16) ∧
      (simple.decrypt_blocks sched blk.toList).bind (fun r => simple.encrypt_blocks sched r.1) =
        some (blk.toList, 16) :=
  ⟨simple.process_blocks_undo sched blk (Block.primitives.aes.encrypt_isSome blk sched.valid_as_slice)
      fun _ => Block.primitives_inverses.decrypt_of_encrypt sched.valid_as_slice,
    simple.process_blocks_undo sched blk (Block.primitives.aes.decrypt_isSome blk sched.valid_as_slice)
      fun _ => Block.primitives_inverses.encrypt_of_decrypt sched.valid_as_slice⟩

end reference

/-! ## The bit-sliced cipher refines the reference cipher -/

section refinement

variable (W : Word)

/-- Packing an unpacked state gives it back, whatever follows it in the buffer. -/
theorem from_bytes_getD_ofFn (y : Bitslice W) (rest : List (BitVec 8)) :
    Bitslice.from_bytes W (fun n => (List.ofFn y.into_bytes ++ rest).getD n 0) = y := by
  rw [funext (getD_ofFn_append W y.into_bytes rest), from_bytes_into_bytes]

/-- Unpacking a packed batch gives the batch back. -/
theorem ofFn_into_bytes_from_bytes (buf : List (BitVec 8)) (h : num_bytes W ≤ buf.length) :
    List.ofFn (Bitslice.from_bytes W fun n => buf.getD n 0).into_bytes ++ buf.drop (num_bytes W) = buf := by
  rw [into_bytes_from_bytes]
  conv_rhs => rw [← List.take_append_drop (num_bytes W) buf]
  congr 1
  apply List.ext_getElem (by simp; omega)
  intro n h1 h2
  simp only [List.getElem_ofFn, List.getElem_take]
  rw [List.getD_eq_getElem _ _ (by simp at h1; omega)]

/-- A bit-sliced cipher whose result the other one maps back: on a buffer of at least one
batch, the shared body with the first, then with the second, gives the buffer back. -/
theorem impl_process_blocks_undo (sched : Schedule (RoundKey W)) (buf : List (BitVec 8))
    (h : num_bytes W ≤ buf.length) {cipher cipher' : Bitslice W → List (RoundKey W) → Option (Bitslice W)}
    (hsome : ∀ x, (cipher x sched.as_slice).isSome)
    (hundo : ∀ x c, cipher x sched.as_slice = some c → cipher' c sched.as_slice = some x) :
    ((impl W).process_blocks cipher sched buf).bind (fun r => (impl W).process_blocks cipher' sched r.1) =
      some (buf, num_bytes W) := by
  obtain ⟨c, hc⟩ := Option.isSome_iff_exists.mp (hsome (Bitslice.from_bytes W fun n => buf.getD n 0))
  have hlen : num_bytes W ≤ (List.ofFn c.into_bytes ++ buf.drop (num_bytes W)).length := by simp
  rw [impl_process_blocks W _ sched buf h, hc, Option.map_some', Option.some_bind,
    impl_process_blocks W _ sched _ hlen, from_bytes_getD_ofFn, hundo _ _ hc, Option.map_some',
    List.drop_left' (by simp), ofFn_into_bytes_from_bytes W buf h]

/-- On a buffer of at least one batch, bit-sliced `decrypt_blocks` undoes `encrypt_blocks`
and the other way round, for every schedule. -/
theorem impl_blocks_round_trip (sched : Schedule (RoundKey W)) (buf : List (BitVec 8))
    (h : num_bytes W ≤ buf.length) :
    ((impl W).encrypt_blocks sched buf).bind (fun r => (impl W).decrypt_blocks sched r.1) =
        some (buf, num_bytes W) ∧
      ((impl W).decrypt_blocks sched buf).bind (fun r => (impl W).encrypt_blocks sched r.1) =
        some (buf, num_bytes W) :=
  ⟨impl_process_blocks_undo W sched buf h
      (fun x => (Bitslice.primitives W).aes.encrypt_isSome x sched.valid_as_slice)
      fun _ _ => (Bitslice.primitives_inverses W).decrypt_of_encrypt sched.valid_as_slice,
    impl_process_blocks_undo W sched buf h
      (fun x => (Bitslice.primitives W).aes.decrypt_isSome x sched.valid_as_slice)
      fun _ _ => (Bitslice.primitives_inverses W).encrypt_of_decrypt sched.valid_as_slice⟩

/-- The shared body, with a bit-sliced cipher that always answers and acts on each block as
a reference cipher does with the reference round keys, returns `num_bytes`, keeps the bytes
past the batch, and leaves in each block of the batch what the reference body makes of it. -/
theorem process_blocks_refines (key : Key) (buf : List (BitVec 8)) (hbuf : num_bytes W ≤ buf.length)
    (cipher : Bitslice W → List (RoundKey W) → Option (Bitslice W))
    (ref : Block → List Block → Option Block)
    (hsome : ∀ x, (cipher x (Schedule.from W key).as_slice).isSome)
    (hblock : ∀ x {b}, b < num_blocks W →
      (cipher x ((simple.Schedule.from .little key).round_keys.map (RoundKey.from_block W))).map
        (·.block b) = ref (x.block b) (simple.Schedule.from .little key).as_slice) :
    ∃ out, (impl W).process_blocks cipher (Schedule.from W key) buf = some (out, num_bytes W) ∧
      out.drop (num_bytes W) = buf.drop (num_bytes W) ∧
      ∀ j < num_blocks W,
        simple.process_blocks ref (simple.Schedule.from .little key) ((buf.drop (16 * j)).take 16) =
          some ((out.drop (16 * j)).take 16, 16) := by
  obtain ⟨y, hy⟩ := Option.isSome_iff_exists.mp (hsome (Bitslice.from_bytes W fun n => buf.getD n 0))
  refine ⟨List.ofFn y.into_bytes ++ buf.drop (num_bytes W), ?_, List.drop_left' (by simp),
    fun j hj => ?_⟩
  · rw [impl_process_blocks W _ _ _ hbuf, hy]
    rfl
  · rw [drop_take_blockOf W buf _ (fun _ => rfl) hbuf hj, ← block_from_bytes W _ hj,
      simple.process_blocks_toList, drop_take_into_bytes W y _ hj, ← hblock _ hj,
      ← Schedule.from_round_keys W key, ← Schedule.as_slice, hy]
    rfl

/-- Bit-sliced encryption of a buffer of at least one batch returns `num_bytes`, keeps the
bytes past the batch, and leaves in each block of the batch the ciphertext of that block by the
reference backend of a little-endian target, for every key. -/
theorem encrypt_blocks_refines_little (key : Key) (buf : List (BitVec 8))
    (hbuf : num_bytes W ≤ buf.length) :
    ∃ out, (impl W).encrypt_blocks (Schedule.from W key) buf = some (out, num_bytes W) ∧
      out.drop (num_bytes W) = buf.drop (num_bytes W) ∧
      ∀ j < num_blocks W,
        simple.encrypt_blocks (simple.Schedule.from .little key) ((buf.drop (16 * j)).take 16) =
          some ((out.drop (16 * j)).take 16, 16) :=
  process_blocks_refines W key buf hbuf _ _
    (fun x => (Bitslice.primitives W).aes.encrypt_isSome x (Schedule.from W key).valid_as_slice)
    fun x _ hb => Bitslice.encrypt_block W x _ hb

/-- Bit-sliced decryption of a buffer of at least one batch returns `num_bytes`, keeps the
bytes past the batch, and leaves in each block of the batch what reference decryption of a
little-endian target makes of that block, for every key. -/
theorem decrypt_blocks_refines_little (key : Key) (buf : List (BitVec 8))
    (hbuf : num_bytes W ≤ buf.length) :
    ∃ out, (impl W).decrypt_blocks (Schedule.from W key) buf = some (out, num_bytes W) ∧
      out.drop (num_bytes W) = buf.drop (num_bytes W) ∧
      ∀ j < num_blocks W,
        simple.decrypt_blocks (simple.Schedule.from .little key) ((buf.drop (16 * j)).take 16) =
          some ((out.drop (16 * j)).take 16, 16) :=
  process_blocks_refines W key buf hbuf _ _
    (fun x => (Bitslice.primitives W).aes.decrypt_isSome x (Schedule.from W key).valid_as_slice)
    fun x _ hb => Bitslice.decrypt_block W x _ hb

/-- The zero batch under the zero AES-128 key: the bit-sliced ciphertext, whose first block is
what the reference backend of a little-endian target makes of the zero block. -/
theorem encrypt_blocks_zero (W : Word) :
    ∃ out, (impl W).encrypt_blocks (Schedule.from W (.Aes128 (List.replicate 16 0) rfl))
        (List.replicate (num_bytes W) 0) = some (out, num_bytes W) ∧
      simple.encrypt_blocks (simple.Schedule.from .little (.Aes128 (List.replicate 16 0) rfl))
        (List.replicate 16 0) = some (out.take 16, 16) := by
  have hb := num_bytes_eq W
  obtain ⟨out, h, -, hj⟩ := encrypt_blocks_refines_little W _ _ (List.length_replicate _ _).ge
  refine ⟨out, h, ?_⟩
  have h0 := hj 0 hb.2.2
  rwa [Nat.mul_zero, List.drop_zero, List.drop_zero, List.take_replicate,
    Nat.min_eq_left (by omega)] at h0

/-- Bit-sliced encryption refines the reference backend on a little-endian target: on a buffer
of at least one batch it returns `num_bytes`, keeps the bytes past the batch, and leaves in each
block of the batch the reference ciphertext of that block, for every key. On a big-endian target
it does not: for the zero AES-128 key, the reference ciphertext of the zero block is not the
first block of the bit-sliced ciphertext of the zero batch. -/
theorem encrypt_blocks_refines :
    (∀ (key : Key) (buf : List (BitVec 8)), num_bytes W ≤ buf.length →
      ∃ out, (impl W).encrypt_blocks (Schedule.from W key) buf = some (out, num_bytes W) ∧
        out.drop (num_bytes W) = buf.drop (num_bytes W) ∧
        ∀ j < num_blocks W,
          simple.encrypt_blocks (simple.Schedule.from .little key) ((buf.drop (16 * j)).take 16) =
            some ((out.drop (16 * j)).take 16, 16)) ∧
      ∃ out, (impl W).encrypt_blocks (Schedule.from W (.Aes128 (List.replicate 16 0) rfl))
          (List.replicate (num_bytes W) 0) = some (out, num_bytes W) ∧
        simple.encrypt_blocks (simple.Schedule.from .big (.Aes128 (List.replicate 16 0) rfl))
          (List.replicate 16 0) ≠ some (out.take 16, 16) := by
  refine ⟨encrypt_blocks_refines_little W, ?_⟩
  obtain ⟨out, h, hle⟩ := encrypt_blocks_zero W
  exact ⟨out, h, fun hbe => simple.encrypt_blocks_zero_big_ne_little (hbe.trans hle.symm)⟩

theorem encrypt_blocks_refines_zero_key :
    num_bytes .u64 ≤ (List.replicate 64 (0 : BitVec 8)).length ∧
      ∃ out, (impl .u64).encrypt_blocks (Schedule.from .u64 (.Aes128 (List.replicate 16 0) rfl))
          (List.replicate 64 0) = some (out, num_bytes .u64) ∧
        out.drop (num_bytes .u64) = (List.replicate 64 0).drop (num_bytes .u64) ∧
        ∀ j < num_blocks .u64,
          simple.encrypt_blocks (simple.Schedule.from .little (.Aes128 (List.replicate 16 0) rfl))
              (((List.replicate 64 0).drop (16 * j)).take 16) =
            some ((out.drop (16 * j)).take 16, 16) :=
  ⟨by decide, (encrypt_blocks_refines .u64).1 _ _ (by decide)⟩

/-- Bit-sliced decryption refines the reference backend on a little-endian target: on a buffer
of at least one batch it returns `num_bytes`, keeps the bytes past the batch, and leaves in each
block of the batch what reference decryption makes of that block, for every key. On a big-endian
target it does not: under the zero AES-128 key, the bit-sliced ciphertext of the zero batch
decrypts to the zero batch, and the reference does not decrypt its first block to the zero
block. -/
theorem decrypt_blocks_refines :
    (∀ (key : Key) (buf : List (BitVec 8)), num_bytes W ≤ buf.length →
      ∃ out, (impl W).decrypt_blocks (Schedule.from W key) buf = some (out, num_bytes W) ∧
        out.drop (num_bytes W) = buf.drop (num_bytes W) ∧
        ∀ j < num_blocks W,
          simple.decrypt_blocks (simple.Schedule.from .little key) ((buf.drop (16 * j)).take 16) =
            some ((out.drop (16 * j)).take 16, 16)) ∧
      ∃ out, (impl W).encrypt_blocks (Schedule.from W (.Aes128 (List.replicate 16 0) rfl))
          (List.replicate (num_bytes W) 0) = some (out, num_bytes W) ∧
        (impl W).decrypt_blocks (Schedule.from W (.Aes128 (List.replicate 16 0) rfl)) out =
          some (List.replicate (num_bytes W) 0, num_bytes W) ∧
        simple.decrypt_blocks (simple.Schedule.from .big (.Aes128 (List.replicate 16 0) rfl))
          (out.take 16) ≠ some (List.replicate 16 0, 16) := by
  refine ⟨decrypt_blocks_refines_little W, ?_⟩
  obtain ⟨out, h, hle⟩ := encrypt_blocks_zero W
  have hrt := (impl_blocks_round_trip W (Schedule.from W (.Aes128 (List.replicate 16 0) rfl))
    (List.replicate (num_bytes W) 0) (List.length_replicate _ _).ge).1
  rw [h, Option.some_bind] at hrt
  refine ⟨out, h, hrt, fun hbe => simple.encrypt_blocks_zero_big_ne_little ?_⟩
  -- the first block of `out` is the block `c`, and the reference of the big-endian target,
  -- decrypting it to the zero block, would encrypt the zero block to it
  obtain ⟨c, -, hc⟩ := Option.map_eq_some'.mp
    ((simple.process_blocks_toList Block.primitives.aes.encrypt _ default).symm.trans hle)
  have hrt' := (simple.blocks_round_trip
    (simple.Schedule.from .big (.Aes128 (List.replicate 16 0) rfl)) c).2
  rw [(Prod.mk.inj hc).1, hbe, Option.some_bind] at hrt'
  exact hrt'.trans hle.symm

theorem decrypt_blocks_refines_zero_key :
    num_bytes .u64 ≤ (List.replicate 64 (0 : BitVec 8)).length ∧
      ∃ out, (impl .u64).decrypt_blocks (Schedule.from .u64 (.Aes128 (List.replicate 16 0) rfl))
          (List.replicate 64 0) = some (out, num_bytes .u64) ∧
        out.drop (num_bytes .u64) = (List.replicate 64 0).drop (num_bytes .u64) ∧
        ∀ j < num_blocks .u64,
          simple.decrypt_blocks (simple.Schedule.from .little (.Aes128 (List.replicate 16 0) rfl))
              (((List.replicate 64 0).drop (16 * j)).take 16) =
            some ((out.drop (16 * j)).take 16, 16) :=
  ⟨by decide, (decrypt_blocks_refines .u64).1 _ _ (by decide)⟩

/-- Decryption undoes encryption and the other way round: for the reference cipher on every
16-byte block, built for either byte order, and for the bit-sliced cipher on every buffer of at
least one batch. -/
theorem decrypt_encrypt_round_trip (e : Endian) (key : Key) :
    (∀ P : List (BitVec 8), P.length = BLOCK_LEN →
      (simple.encrypt_blocks (simple.Schedule.from e key) P).bind
          (fun r => simple.decrypt_blocks (simple.Schedule.from e key) r.1) = some (P, 16) ∧
      (simple.decrypt_blocks (simple.Schedule.from e key) P).bind
          (fun r => simple.encrypt_blocks (simple.Schedule.from e key) r.1) = some (P, 16)) ∧
    ∀ buf : List (BitVec 8), num_bytes W ≤ buf.length →
      ((impl W).encrypt_blocks (Schedule.from W key) buf).bind
          (fun r => (impl W).decrypt_blocks (Schedule.from W key) r.1) = some (buf, num_bytes W) ∧
      ((impl W).decrypt_blocks (Schedule.from W key) buf).bind
          (fun r => (impl W).encrypt_blocks (Schedule.from W key) r.1) = some (buf, num_bytes W) := by
  refine ⟨fun P hP => ?_, fun buf h => impl_blocks_round_trip W _ buf h⟩
  obtain ⟨blk, rfl⟩ := Block.exists_toList hP
  exact simple.blocks_round_trip _ blk

theorem decrypt_encrypt_round_trip_zero :
    (List.replicate 16 (0 : BitVec 8)).length = BLOCK_LEN ∧
      ((simple.encrypt_blocks (simple.Schedule.from .big (.Aes128 (List.replicate 16 0) rfl))
          (List.replicate 16 0)).bind
        (fun r => simple.decrypt_blocks (simple.Schedule.from .big (.Aes128 (List.replicate 16 0) rfl)) r.1) =
          some (List.replicate 16 0, 16)) ∧
      num_bytes .u64 ≤ (List.replicate 64 (0 : BitVec 8)).length ∧
      ((impl .u64).encrypt_blocks (Schedule.from .u64 (.Aes128 (List.replicate 16 0) rfl))
          (List.replicate 64 0)).bind
        (fun r => (impl .u64).decrypt_blocks (Schedule.from .u64 (.Aes128 (List.replicate 16 0) rfl)) r.1) =
          some (List.replicate 64 0, num_bytes .u64) :=
  ⟨rfl, ((decrypt_encrypt_round_trip .u64 .big _).1 (List.replicate 16 0) rfl).1, by decide,
    ((decrypt_encrypt_round_trip .u64 .big _).2 _ (by decide)).1⟩

end refinement

/-! ## Where the surface goes wrong -/

section faults

variable (W : Word)

/-- A buffer shorter than one batch makes `Bitslice::try_from` return `Err`, and the shared
body of `encrypt_blocks` and `decrypt_blocks` panics, whatever the cipher. -/
theorem impl_process_blocks_short (cipher : Bitslice W → List (RoundKey W) → Option (Bitslice W))
    (sched : Schedule (RoundKey W)) (buf : List (BitVec 8)) (h : buf.length < num_bytes W) :
    (impl W).process_blocks cipher sched buf = none := by
  have hlen : min buf.length ((impl W).NUM_BLOCKS * BLOCK_LEN) = buf.length := by
    have := (num_bytes_eq W).1
    simp only [impl, BLOCK_LEN] at this ⊢
    omega
  have hnone : Bitslice.try_from W buf = none := dif_neg (by omega)
  simp only [BlockImpl.process_blocks, hlen, List.take_length]
  exact congrArg (Option.bind · _) hnone

/-- A buffer shorter than one batch (16, 32 or 48 bytes for the 64-bit word) makes
`Bitslice::try_from` return `Err`, and `.ok().unwrap()` panics, in both directions. -/
theorem blocks_panic_on_partial_batch (key : Key) (buf : List (BitVec 8))
    (h : buf.length < num_bytes W) :
    (impl W).encrypt_blocks (Schedule.from W key) buf = none ∧
      (impl W).decrypt_blocks (Schedule.from W key) buf = none :=
  ⟨impl_process_blocks_short W _ _ buf h, impl_process_blocks_short W _ _ buf h⟩

theorem blocks_panic_sixteen_bytes :
    (List.replicate 16 (0 : BitVec 8)).length < num_bytes .u64 ∧
      (impl .u64).encrypt_blocks (Schedule.from .u64 (.Aes128 (List.replicate 16 0) rfl))
          (List.replicate 16 0) = none ∧
      (impl .u64).decrypt_blocks (Schedule.from .u64 (.Aes128 (List.replicate 16 0) rfl))
          (List.replicate 16 0) = none :=
  ⟨by decide, blocks_panic_on_partial_batch .u64 _ _ (by decide)⟩

/-- `bytes_encrypted` (the default method of `ParallelBlockCipher`) compares the length with
`PARALLEL_BLOCKS`, a number of blocks: past it, it returns `PARALLEL_BLOCKS`, less than the
`min(len, PARALLEL_BLOCKS * BLOCK_LEN)` bytes that `encrypt_blocks` consumes. -/
theorem bytes_encrypted_counts_blocks (len : Nat) (h : PARALLEL_BLOCKS W < len) :
    bytes_encrypted (PARALLEL_BLOCKS W) len = PARALLEL_BLOCKS W ∧
      PARALLEL_BLOCKS W < min len (PARALLEL_BLOCKS W * BLOCK_LEN) := by
  have := (num_bytes_eq W).2.2
  simp only [bytes_encrypted, PARALLEL_BLOCKS, BLOCK_LEN] at h ⊢
  omega

theorem bytes_encrypted_sixty_four :
    PARALLEL_BLOCKS .u64 < 64 ∧ bytes_encrypted (PARALLEL_BLOCKS .u64) 64 = PARALLEL_BLOCKS .u64 ∧
      PARALLEL_BLOCKS .u64 < min 64 (PARALLEL_BLOCKS .u64 * BLOCK_LEN) :=
  ⟨by decide, bytes_encrypted_counts_blocks .u64 64 (by decide)⟩

end faults

end ct_aes.bitslice
