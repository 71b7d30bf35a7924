/-
  OverlayCensus — the BLAKE3 hash.

  The input is cut into chunks of 1024 bytes and a chunk into blocks of 64.  The
  blocks of a chunk are compressed one after another, each with the chaining value
  of the one before; the chunks are the leaves of a binary tree whose left
  subtrees are complete, and a parent compresses the chaining values of its two
  children.  The hash is the output of the root, flagged as such.

  * `compress` is the compression function, `chunk` and `parent` make nodes,
    `root` pairs the nodes of a level until one is left;
  * `hash n` is the first `n ≤ 32` bytes of the hash.
-/
import OverlayCensus.CoreInstances

namespace OverlayCensus.Blake3

attribute [local instance] corePow

/-! ## Compression -/

/-- The initial chaining value. -/
def initial : Vector UInt32 8 :=
  #v[0x6A09E667, 0xBB67AE85, 0x3C6EF372, 0xA54FF53A, 0x510E527F, 0x9B05688C, 0x1F83D9AB, 0x5BE0CD19]

/-- The order in which a round reads the words of the round before. -/
def permutation : Vector (Fin 16) 16 :=
  #v[2, 6, 3, 10, 7, 0, 4, 13, 1, 11, 12, 5, 9, 14, 15, 8]

/-- The flag of the first block of a chunk. -/
def chunkStart : UInt32 := 1

/-- The flag of the last block of a chunk. -/
def chunkEnd : UInt32 := 2

/-- The flag of a node above two others. -/
def parentFlag : UInt32 := 4

/-- The flag of the node at the top. -/
def rootFlag : UInt32 := 8

/-- Rotates a word to the right. -/
def rotate (x : UInt32) (n : UInt32) : UInt32 :=
  (x >>> n) ||| (x <<< (32 - n))

/-- Mixes two words into four words of the state. -/
def mix (s : Vector UInt32 16) (a b c d : Fin 16) (x y : UInt32) : Vector UInt32 16 :=
  let va := s[a] + s[b] + x
  let vd := rotate (s[d] ^^^ va) 16
  let vc := s[c] + vd
  let vb := rotate (s[b] ^^^ vc) 12
  let va := va + vb + y
  let vd := rotate (vd ^^^ va) 8
  let vc := vc + vd
  let vb := rotate (vb ^^^ vc) 7
  (((s.set a va).set b vb).set c vc).set d vd

/-- One round: the columns of the state, then its diagonals. -/
def round (s m : Vector UInt32 16) : Vector UInt32 16 :=
  let s := mix s 0 4 8 12 m[0] m[1]
  let s := mix s 1 5 9 13 m[2] m[3]
  let s := mix s 2 6 10 14 m[4] m[5]
  let s := mix s 3 7 11 15 m[6] m[7]
  let s := mix s 0 5 10 15 m[8] m[9]
  let s := mix s 1 6 11 12 m[10] m[11]
  let s := mix s 2 7 8 13 m[12] m[13]
  mix s 3 4 9 14 m[14] m[15]

/-- The given number of rounds, the words of the block permuted between them. -/
def rounds : Nat → Vector UInt32 16 → Vector UInt32 16 → Vector UInt32 16
  | 0, s, _ => s
  | n + 1, s, m => rounds n (round s m) (permutation.map fun i => m[i])

/-- What a compression works on. -/
structure Node where
  chaining : Vector UInt32 8
  block : Vector UInt32 16
  counter : Nat
  /-- The number of bytes of the block that the input fills. -/
  length : Nat
  flags : UInt32

/-- The compression of a node: eight words. -/
def compress (n : Node) : Vector UInt32 8 :=
  let tail : Vector UInt32 8 :=
    #v[initial[0], initial[1], initial[2], initial[3], n.counter.toUInt32,
      (n.counter / 2 ^ (32 : Nat)).toUInt32, n.length.toUInt32, n.flags]
  let s := rounds 7 (n.chaining ++ tail) n.block
  Vector.ofFn fun i : Fin 8 => s[i.val] ^^^ s[i.val + 8]

/-! ## Chunks -/

/-- The word of four bytes, the least significant first; missing bytes are 0. -/
def wordAt (block : Array UInt8) (i : Nat) : UInt32 :=
  let byte := fun k => (block.getD (4 * i + k) 0).toUInt32
  byte 0 ||| (byte 1 <<< 8) ||| (byte 2 <<< 16) ||| (byte 3 <<< 24)

/-- The node of one block of a chunk. -/
def blockNode (chaining : Vector UInt32 8) (block : List UInt8) (counter : Nat) (flags : UInt32) :
    Node :=
  let bytes := block.toArray
  ⟨chaining, Vector.ofFn fun i : Fin 16 => wordAt bytes i.val, counter, bytes.size, flags⟩

/-- The node of the last block of a chunk, `left` bounding the number of blocks
    before it. -/
def chunkFrom (counter : Nat) :
    Nat → Vector UInt32 8 → UInt32 → List UInt8 → Node
  | 0, chaining, flags, bytes => blockNode chaining bytes counter (flags ||| chunkEnd)
  | left + 1, chaining, flags, bytes =>
    if bytes.length ≤ 64 then blockNode chaining bytes counter (flags ||| chunkEnd)
    else
      let first := blockNode chaining (bytes.take 64) counter flags
      chunkFrom counter left (compress first) 0 (bytes.drop 64)

/-- The node of a chunk of at most 1024 bytes. -/
def chunk (counter : Nat) (bytes : List UInt8) : Node :=
  chunkFrom counter 15 initial chunkStart bytes

/-- The nodes of the chunks of an input, the first of which has the given number.
    An empty input has one empty chunk. -/
def chunks (counter : Nat) (bytes : List UInt8) : List Node :=
  if 1024 < bytes.length then
    chunk counter (bytes.take 1024) :: chunks (counter + 1) (bytes.drop 1024)
  else [chunk counter bytes]
termination_by bytes.length
decreasing_by simp only [List.length_drop]; omega

/-! ## The tree -/

/-- The node above two nodes. -/
def parent (a b : Node) : Node :=
  ⟨initial, compress a ++ compress b, 0, 64, parentFlag⟩

/-- The nodes above a level; a last node without a partner rises unchanged. -/
def pairUp : List Node → List Node
  | a :: b :: rest => parent a b :: pairUp rest
  | nodes => nodes

theorem length_pairUp_le : ∀ nodes : List Node, (pairUp nodes).length ≤ nodes.length
  | [] | [_] => Nat.le_refl _
  | _ :: _ :: rest => by
    have := length_pairUp_le rest
    simp only [pairUp, List.length_cons]
    omega

/-- The node at the top of a level. -/
def root : List Node → Node
  | [] => chunk 0 []
  | [n] => n
  | a :: b :: rest => root (parent a b :: pairUp rest)
termination_by nodes => nodes.length
decreasing_by
  have := length_pairUp_le rest
  simp only [List.length_cons]
  omega

/-- The four bytes of a word, the least significant first. -/
def wordBytes (w : UInt32) : List UInt8 :=
  [w.toUInt8, (w >>> 8).toUInt8, (w >>> 16).toUInt8, (w >>> 24).toUInt8]

/-- The first `n` bytes, at most 32, of the hash of an input. -/
def hash (n : Nat) (bytes : List UInt8) : List UInt8 :=
  let top := root (chunks 0 bytes)
  let words := compress { top with flags := top.flags ||| rootFlag }
  (words.toList.flatMap wordBytes).take n

end OverlayCensus.Blake3
