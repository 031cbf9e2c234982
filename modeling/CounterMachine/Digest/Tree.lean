import CounterMachine.Digest.Compression
set_option autoImplicit false

/-!
# The hash tree of BLAKE3

The input is divided into chunks of 1024 bytes, and a chunk into blocks of 64 bytes. The chunks are the
leaves of a binary tree; the left part of an inner node holds the largest power of two of chunks that leaves
something for the right part. The hash is the compression of the root with its own flag.
-/

namespace CounterMachine.Digest

/-- The flag of the first block of a chunk. -/
def chunkStart : UInt32 := 1

/-- The flag of the last block of a chunk. -/
def chunkEnd : UInt32 := 2

/-- The flag of an inner node. -/
def innerNode : UInt32 := 4

/-- The flag of the root, added to the other flags of the node. -/
def rootNode : UInt32 := 8

/-- The little-endian word at a place of a block; missing bytes are 0. -/
def wordAt (bytes : Array UInt8) (place : Nat) : UInt32 :=
  let byte (offset : Nat) : UInt32 := (bytes.getD (4 * place + offset) 0).toUInt32
  byte 0 ||| (byte 1 <<< 8) ||| (byte 2 <<< 16) ||| (byte 3 <<< 24)

def words (bytes : Array UInt8) : Block :=
  Vector.ofFn fun place => wordAt bytes place

/-- The node of a chunk, from the blocks that are left and the chaining value so far. -/
def chunkNode (index : UInt64) (chain : Chain) (flags : UInt32) (bytes : Array UInt8) : Node :=
  if 64 < bytes.size then
    let block : Node := ⟨chain, words (bytes.extract 0 64), index, 64, flags⟩
    chunkNode index block.compress 0 (bytes.extract 64 bytes.size)
  else
    ⟨chain, words bytes, index, bytes.size.toUInt32, flags ||| chunkEnd⟩
termination_by bytes.size

/-- How many bytes the left part of an input of more than one chunk takes. -/
def leftSize (size : Nat) : Nat :=
  1024 <<< ((size - 1) / 1024).log2

theorem leftSize_pos (size : Nat) : 0 < leftSize size := by
  rw [leftSize, Nat.shiftLeft_eq]
  exact Nat.mul_pos (by decide) (Nat.two_pow_pos _)

theorem leftSize_lt {size : Nat} (large : 1024 < size) : leftSize size < size := by
  have positive : (size - 1) / 1024 ≠ 0 := by omega
  have := Nat.log2_self_le positive
  rw [leftSize, Nat.shiftLeft_eq]
  omega

/-- The node over a part of the input that starts at the chunk with the given index. -/
def treeNode (index : UInt64) (bytes : Array UInt8) : Node :=
  if _large : 1024 < bytes.size then
    let left := leftSize bytes.size
    let first := treeNode index (bytes.extract 0 left)
    let second := treeNode (index + (left / 1024).toUInt64) (bytes.extract left bytes.size)
    ⟨initialChain, first.compress ++ second.compress, 0, 64, innerNode⟩
  else
    chunkNode index initialChain chunkStart bytes
termination_by bytes.size
decreasing_by
  · have := leftSize_lt _large
    simp only [Array.size_extract]
    omega
  · have := leftSize_pos bytes.size
    simp only [Array.size_extract]
    omega

/-- The four bytes of a word, the lowest first. -/
def wordBytes (word : UInt32) : List UInt8 :=
  [word.toUInt8, (word >>> 8).toUInt8, (word >>> 16).toUInt8, (word >>> 24).toUInt8]

/-- The 32 bytes of the hash of some bytes. -/
def hash (bytes : Array UInt8) : List UInt8 :=
  let top := treeNode 0 bytes
  let root := { top with flags := top.flags ||| rootNode }
  root.compress.toList.flatMap wordBytes

def hexadecimal (byte : UInt8) : List Char :=
  [Nat.digitChar (byte.toNat / 16), Nat.digitChar (byte.toNat % 16)]

/-- The first bytes of the hash of a text, written in hexadecimal digits. -/
def handle (count : Nat) (text : String) : String :=
  String.ofList (((hash text.toUTF8.data).take count).flatMap hexadecimal)

end CounterMachine.Digest
