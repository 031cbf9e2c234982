set_option autoImplicit false

/-!
# Block compression of BLAKE3

One compression takes a chaining value of eight words and a block of sixteen words, mixes them in seven
rounds, and folds the mixed words into eight new ones. Words are added modulo `2 ^ 32`.
-/

namespace CounterMachine.Digest

/-- The words of a chaining value. -/
abbrev Chain := Vector UInt32 8

/-- The words of a block, or of the mixing state. -/
abbrev Block := Vector UInt32 16

def initialChain : Chain :=
  #v[0x6A09E667, 0xBB67AE85, 0x3C6EF372, 0xA54FF53A, 0x510E527F, 0x9B05688C, 0x1F83D9AB, 0x5BE0CD19]

/-- Moves the low `count` bits of a word to its top. -/
def rotateRight (word count : UInt32) : UInt32 :=
  (word >>> count) ||| (word <<< (32 - count))

/-- Mixes two message words into four words of the state. -/
def mix (state : Block) (a b c d : Fin 16) (x y : UInt32) : Block :=
  let a₁ := state[a] + state[b] + x
  let d₁ := rotateRight (state[d] ^^^ a₁) 16
  let c₁ := state[c] + d₁
  let b₁ := rotateRight (state[b] ^^^ c₁) 12
  let a₂ := a₁ + b₁ + y
  let d₂ := rotateRight (d₁ ^^^ a₂) 8
  let c₂ := c₁ + d₂
  let b₂ := rotateRight (b₁ ^^^ c₂) 7
  (((state.set a a₂).set b b₂).set c c₂).set d d₂

/-- One round: the four columns of the state, then its four diagonals. -/
def round (state message : Block) : Block :=
  let state := mix state 0 4 8 12 message[0] message[1]
  let state := mix state 1 5 9 13 message[2] message[3]
  let state := mix state 2 6 10 14 message[4] message[5]
  let state := mix state 3 7 11 15 message[6] message[7]
  let state := mix state 0 5 10 15 message[8] message[9]
  let state := mix state 1 6 11 12 message[10] message[11]
  let state := mix state 2 7 8 13 message[12] message[13]
  mix state 3 4 9 14 message[14] message[15]

/-- The order in which the next round takes the message words. -/
def permute (message : Block) : Block :=
  #v[message[2], message[6], message[3], message[10], message[7], message[0], message[4], message[13],
    message[1], message[11], message[12], message[5], message[9], message[14], message[15], message[8]]

/-- The given number of rounds, with the message permuted after each. -/
def rounds : Nat → Block → Block → Block
  | 0, state, _ => state
  | count + 1, state, message => rounds count (round state message) (permute message)

/-- The arguments of one compression. A node of the hash tree is kept in this form until it is known whether
it is the root. -/
structure Node where
  chain : Chain
  message : Block
  counter : UInt64
  length : UInt32
  flags : UInt32

/-- The first eight words of the compression of a node. -/
def Node.compress (node : Node) : Chain :=
  let start : Block := node.chain ++
    #v[0x6A09E667, 0xBB67AE85, 0x3C6EF372, 0xA54FF53A,
      node.counter.toUInt32, (node.counter >>> 32).toUInt32, node.length, node.flags]
  let mixed := rounds 7 start node.message
  #v[mixed[0] ^^^ mixed[8], mixed[1] ^^^ mixed[9], mixed[2] ^^^ mixed[10], mixed[3] ^^^ mixed[11],
    mixed[4] ^^^ mixed[12], mixed[5] ^^^ mixed[13], mixed[6] ^^^ mixed[14], mixed[7] ^^^ mixed[15]]

end CounterMachine.Digest
