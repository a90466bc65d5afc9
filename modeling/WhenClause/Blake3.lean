import WhenClause.Utf8

/-!
# The BLAKE3 hash

The input is cut into chunks of 1024 bytes and each chunk into blocks of 64. A compression mixes a
block of sixteen words into a chaining value of eight. The blocks of a chunk are compressed one
after the other; the chaining values of neighbouring chunks are then joined in pairs, level by
level, a last one without a partner rising unchanged, until one compression is left. That last one
is marked as the root, and its outcome is the hash.
-/

namespace WhenClause.Blake3

abbrev Chain := Vector UInt32 8

abbrev Block := Vector UInt32 16

def initialChain : Chain :=
  #v[0x6A09E667, 0xBB67AE85, 0x3C6EF372, 0xA54FF53A, 0x510E527F, 0x9B05688C, 0x1F83D9AB, 0x5BE0CD19]

def permutation : Vector (Fin 16) 16 := #v[2, 6, 3, 10, 7, 0, 4, 13, 1, 11, 12, 5, 9, 14, 15, 8]

def permute (block : Block) : Block := permutation.map fun i => block[i]

def chunkStart : Nat := 1

def chunkEnd : Nat := 2

def parentNode : Nat := 4

def rootNode : Nat := 8

structure Node where
  chain : Chain
  block : Block
  counter : Nat
  length : Nat
  flags : Nat

def rotateRight (x : UInt32) (n : UInt32) : UInt32 := x >>> n ||| x <<< (32 - n)

def mix (s : Block) (a b c d : Fin 16) (x y : UInt32) : Block :=
  let va := s[a] + s[b] + x
  let vd := rotateRight (s[d] ^^^ va) 16
  let vc := s[c] + vd
  let vb := rotateRight (s[b] ^^^ vc) 12
  let va := va + vb + y
  let vd := rotateRight (vd ^^^ va) 8
  let vc := vc + vd
  let vb := rotateRight (vb ^^^ vc) 7
  (((s.set a va).set b vb).set c vc).set d vd

def round (s m : Block) : Block :=
  let s := mix s 0 4 8 12 m[0] m[1]
  let s := mix s 1 5 9 13 m[2] m[3]
  let s := mix s 2 6 10 14 m[4] m[5]
  let s := mix s 3 7 11 15 m[6] m[7]
  let s := mix s 0 5 10 15 m[8] m[9]
  let s := mix s 1 6 11 12 m[10] m[11]
  let s := mix s 2 7 8 13 m[12] m[13]
  mix s 3 4 9 14 m[14] m[15]

def rounds : Nat → Block → Block → Block
  | 0, s, _ => s
  | n + 1, s, m => rounds n (round s m) (permute m)

namespace Node

def start (n : Node) : Block :=
  let tail : Vector UInt32 4 :=
    #v[UInt32.ofNat n.counter, UInt32.ofNat (n.counter >>> 32), UInt32.ofNat n.length,
      UInt32.ofNat n.flags]
  n.chain ++ initialChain.take 4 ++ tail

def compress (n : Node) : Chain :=
  let s := rounds 7 n.start n.block
  Vector.ofFn fun i : Fin 8 => s[i.val] ^^^ s[i.val + 8]

def asRoot (n : Node) : Node := { n with flags := n.flags + rootNode }

end Node

/-- Cuts bytes into pieces of a given size, the last of which may be shorter. There is always at
least one piece. -/
def pieces (size : Nat) (hsize : 0 < size) (bytes : Bytes) : List Bytes :=
  match _h : bytes.drop size with
  | [] => [bytes]
  | b :: rest => bytes.take size :: pieces size hsize (b :: rest)
termination_by bytes.length
decreasing_by
  have := congrArg List.length ‹bytes.drop size = _›
  simp only [List.length_drop, List.length_cons] at this
  simp only [List.length_cons]
  omega

def blockOfBytes (bytes : Bytes) : Block :=
  let bytes := bytes.toArray
  let byte := fun i => (bytes.getD i 0).toUInt32
  Vector.ofFn fun i : Fin 16 =>
    byte (4 * i) ||| byte (4 * i + 1) <<< 8 ||| byte (4 * i + 2) <<< 16 ||| byte (4 * i + 3) <<< 24

def chunkNodeFrom (counter : Nat) (chain : Chain) (flags : Nat) : List Bytes → Node
  | [] => ⟨chain, blockOfBytes [], counter, 0, flags + chunkEnd⟩
  | [last] => ⟨chain, blockOfBytes last, counter, last.length, flags + chunkEnd⟩
  | block :: rest =>
    let done : Node := ⟨chain, blockOfBytes block, counter, block.length, flags⟩
    chunkNodeFrom counter done.compress 0 rest

def chunkNode (counter : Nat) (chunk : Bytes) : Node :=
  chunkNodeFrom counter initialChain chunkStart (pieces 64 (by decide) chunk)

def parent (left right : Node) : Node :=
  ⟨initialChain, left.compress ++ right.compress, 0, 64, parentNode⟩

def joinPairs : List Node → List Node
  | a :: b :: rest => parent a b :: joinPairs rest
  | rest => rest

theorem length_joinPairs_le (ns : List Node) : (joinPairs ns).length ≤ ns.length := by
  fun_induction joinPairs ns with
  | case1 a b rest ih =>
    simp only [List.length_cons]
    omega
  | case2 rest => exact Nat.le_refl _

def join (n : Node) (ns : List Node) : Node :=
  match ns with
  | [] => n
  | m :: rest => join (parent n m) (joinPairs rest)
termination_by ns.length
decreasing_by
  exact Nat.lt_succ_of_le (length_joinPairs_le rest)

def root (bytes : Bytes) : Node :=
  match pieces 1024 (by decide) bytes with
  | [] => (chunkNode 0 []).asRoot
  | chunk :: rest =>
    (join (chunkNode 0 chunk) (rest.mapIdx fun i chunk => chunkNode (i + 1) chunk)).asRoot

def hash (bytes : Bytes) : Vector UInt8 32 :=
  let chain := (root bytes).compress
  Vector.ofFn fun i : Fin 32 =>
    (chain[i.val / 4] >>> (8 * UInt32.ofNat (i.val % 4))).toUInt8

def digest (bytes : Bytes) : Vector UInt8 16 :=
  let h := hash bytes
  Vector.ofFn fun i : Fin 16 => h[i.val]

end WhenClause.Blake3
