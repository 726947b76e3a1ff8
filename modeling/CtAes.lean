import CtAes.Bits
import CtAes.Util
import CtAes.Gf256
import CtAes.Gf256.Poly
import CtAes.Gf256.Product
import CtAes.Aes.Tables
import CtAes.Aes.Ops
import CtAes.Aes.Block
import CtAes.Aes.Key
import CtAes.Aes.Simple
import CtAes.Aes.Expansion
import CtAes.Aes.Standard
import CtAes.Bitslice.SwapMove
import CtAes.Bitslice.Layout
import CtAes.Bitslice.Primitive
import CtAes.Bitslice.Sbox
import CtAes.Bitslice.Key
import CtAes.Bitslice.Cipher
import CtAes.Hardware.X86.Intrinsics
import CtAes.Hardware.X86.Block
import CtAes.Hardware.X86.Key
import CtAes.Hardware.X86.Cipher
import CtAes.Backends
