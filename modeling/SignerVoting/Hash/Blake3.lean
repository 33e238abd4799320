import SignerVoting.Bytes

/-!
# BLAKE3

The message is cut into chunks of 1024 bytes, and a chunk into blocks of 64 bytes, which are
compressed one after the other. The chunks are the leaves of a binary tree: neighbours are joined
level by level, a last one without a neighbour rising as it is. The hash is taken from the node at
the top, which is compressed once more under a mark of its own.
-/

namespace SignerVoting

namespace Blake3

/-- Eight words, carried from block to block. -/
abbrev Chaining := Vector UInt32 8

/-- Sixteen words, one block. -/
abbrev Block := Vector UInt32 16

/-- The words that the first block of a chunk is met with. -/
def initial : Chaining :=
  #v[0x6a09e667, 0xbb67ae85, 0x3c6ef372, 0xa54ff53a, 0x510e527f, 0x9b05688c, 0x1f83d9ab, 0x5be0cd19]

/-! ## Marks of a compression -/

/-- The first block of a chunk. -/
def chunkStart : UInt32 := 1

/-- The last block of a chunk. -/
def chunkEnd : UInt32 := 2

/-- A node that joins two others. -/
def parent : UInt32 := 4

/-- The node at the top. -/
def root : UInt32 := 8

/-! ## Compression -/

/-- A word turned right by so many bits, which are fewer than 32 and not zero. -/
def rotate (x : UInt32) (bits : UInt32) : UInt32 := (x >>> bits) ||| (x <<< (32 - bits))

/-- Stirs two words of the message into four words of the state. -/
def mix (s : Block) (a b c d : Fin 16) (x y : UInt32) : Block :=
  let va := s[a] + s[b] + x
  let vd := rotate (s[d] ^^^ va) 16
  let vc := s[c] + vd
  let vb := rotate (s[b] ^^^ vc) 12
  let va := va + vb + y
  let vd := rotate (vd ^^^ va) 8
  let vc := vc + vd
  let vb := rotate (vb ^^^ vc) 7
  (((s.set a va).set b vb).set c vc).set d vd

/-- Stirs the message into the columns of the state and then into its diagonals. -/
def round (s m : Block) : Block :=
  let s := mix s 0 4 8 12 m[0] m[1]
  let s := mix s 1 5 9 13 m[2] m[3]
  let s := mix s 2 6 10 14 m[4] m[5]
  let s := mix s 3 7 11 15 m[6] m[7]
  let s := mix s 0 5 10 15 m[8] m[9]
  let s := mix s 1 6 11 12 m[10] m[11]
  let s := mix s 2 7 8 13 m[12] m[13]
  mix s 3 4 9 14 m[14] m[15]

/-- The order in which the next round takes the message. -/
def permute (m : Block) : Block :=
  #v[m[2], m[6], m[3], m[10], m[7], m[0], m[4], m[13],
    m[1], m[11], m[12], m[5], m[9], m[14], m[15], m[8]]

/-- So many rounds, the message permuted between them. -/
def rounds : Nat → Block → Block → Block
  | 0, s, _ => s
  | k + 1, s, m => rounds k (round s m) (permute m)

/-- What a compression starts from: the words carried so far, the block, its number of bytes, the
    number of the chunk, and the marks. -/
structure Node where
  chaining : Chaining
  block : Block
  length : UInt32
  chunk : UInt64
  marks : UInt32

/-- The eight words that a node hands on. -/
def Node.compress (n : Node) : Chaining :=
  let cv := n.chaining
  let s : Block :=
    #v[cv[0], cv[1], cv[2], cv[3], cv[4], cv[5], cv[6], cv[7],
      initial[0], initial[1], initial[2], initial[3],
      n.chunk.toUInt32, (n.chunk >>> 32).toUInt32, n.length, n.marks]
  let s := rounds 7 s n.block
  #v[s[0] ^^^ s[8], s[1] ^^^ s[9], s[2] ^^^ s[10], s[3] ^^^ s[11],
    s[4] ^^^ s[12], s[5] ^^^ s[13], s[6] ^^^ s[14], s[7] ^^^ s[15]]

/-! ## Chunks -/

/-- The words of a block of at most 64 bytes, each with its lowest byte first, zeros after them. -/
def blockWords (bytes : List UInt8) : Block :=
  let words := (Bytes.groups 4 bytes).map fun b => UInt32.ofNat (Bytes.ofLittleEndian b)
  Vector.ofFn fun i => words.getD i 0

/-- The node of a chunk's last block, the blocks before it compressed. -/
def chunkFrom (chunk : UInt64) (chaining : Chaining) (marks : UInt32) :
    List (List UInt8) → Node
  | [] => ⟨chaining, blockWords [], 0, chunk, marks ||| chunkEnd⟩
  | [bytes] => ⟨chaining, blockWords bytes, UInt32.ofNat bytes.length, chunk, marks ||| chunkEnd⟩
  | bytes :: rest =>
    let n : Node := ⟨chaining, blockWords bytes, 64, chunk, marks⟩
    chunkFrom chunk n.compress 0 rest

/-- The node of the chunk of that number. -/
def chunkNode (bytes : List UInt8) (chunk : Nat) : Node :=
  chunkFrom (UInt64.ofNat chunk) initial chunkStart (Bytes.groups 64 bytes)

/-! ## Tree -/

/-- The node that joins two nodes. -/
def Node.join (left right : Node) : Node :=
  ⟨initial, left.compress ++ right.compress, 64, 0, parent⟩

/-- One level up: neighbours joined, a last one without a neighbour as it is. -/
def joinPairs : List Node → List Node
  | left :: right :: rest => left.join right :: joinPairs rest
  | rest => rest

/-- The node at the top, if so many levels reach it. -/
def top : Nat → Node → List Node → Node
  | 0, first, _ => first
  | k + 1, first, rest =>
    match joinPairs (first :: rest) with
    | [] => first
    | first :: rest => top k first rest

/-- The 32-byte hash of a message. -/
def hash (message : List UInt8) : Digest :=
  let n :=
    match (Bytes.groups 1024 message).zipIdx.map fun (bytes, i) => chunkNode bytes i with
    | [] => chunkNode [] 0
    | first :: rest => top rest.length first rest
  let words := { n with marks := n.marks ||| root }.compress
  Vector.ofFn fun (i : Fin 32) => (words[i.val / 4] >>> UInt32.ofNat (8 * (i.val % 4))).toUInt8

end Blake3

end SignerVoting
