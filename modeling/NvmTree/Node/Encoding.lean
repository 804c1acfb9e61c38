/-
  NvmTree.Node.Encoding — the bytes `serialize` writes and `deserialize` reads.

  A node object has arrays of CAPACITY elements, of which the first `size_` are
  valid; what lies behind them is whatever the object held before.  `deserialize`
  fills an object that may have held another node, and `specific_deserialize` a new
  one.  The references `self_ref_` and `child_` are not encoded and are left out.

  Main results:
    * `NodeObject.serialize_eq` — `serialize` is one copy of the encoding.
    * `loadByType_serialize` — a node comes back by its type word, whatever the
      buffer and the object filled held before, and nothing is written past its end.
    * `loadByType_node` — what comes back is what `Block.deserialize` gives.
-/
import NvmTree.Lib.Bytes
import NvmTree.Node.Inner

namespace NvmTree

open Bytes

/-! ## §1. Node objects. -/

def INNER_NODE : UInt32 := 0

def LEAF_NODE : UInt32 := 1

/-- A `LeafNode` object. -/
structure LeafObject (K V : Type*) (capacity : Nat) where
  size : Nat
  selfRep : Int64
  rightSibling : Int64
  entries : Vector (K × V) capacity

/-- An `InnerNode` object. -/
structure InnerObject (K : Type*) (capacity : Nat) where
  size : Nat
  selfRep : Int64
  keys : Vector K capacity
  childRep : Vector Int64 capacity

inductive NodeObject (K V : Type*) (capacity : Nat) where
  | leaf (n : LeafObject K V capacity)
  | inner (n : InnerObject K capacity)

variable {K V α : Type*} {capacity : Nat}

/-- `LeafNode(blk_accessor, false)`; the entries are not initialised. -/
def LeafObject.new (entries : Vector (K × V) capacity) : LeafObject K V capacity :=
  ⟨0, -1, -1, entries⟩

/-- `InnerNode(blk_accessor, false)`; the keys are not initialised. -/
def InnerObject.new (keys : Vector K capacity) : InnerObject K capacity :=
  ⟨0, -1, keys, Vector.replicate capacity (-1)⟩

/-- The first `n` elements of an array. -/
def valid (a : Vector α capacity) (n : Nat) : List α := a.toList.take n

/-- `memcpy` to the start of an array.  (Elements past the end of the array are
dropped here; the source would write them behind it.) -/
def overwrite (a : Vector α capacity) (l : List α) : Vector α capacity :=
  Vector.ofFn (fun i => l.getD i a[i])

theorem valid_overwrite (a : Vector α capacity) {l : List α} (hl : l.length ≤ capacity) :
    valid (overwrite a l) l.length = l := by
  apply List.ext_getElem
  · simp [valid, hl]
  · intro i h h'
    simp [valid, overwrite, h']

theorem length_valid (a : Vector α capacity) {n : Nat} (hn : n ≤ capacity) :
    (valid a n).length = n := by
  simp [valid, hn]

/-! ## §2. `serialize` and `deserialize`. -/

section Encoding

variable (e : Codec (K × V)) (k : Codec K)

/-- `LeafNode::serialize`. -/
def LeafObject.serialize (n : LeafObject K V capacity) (buffer : Buffer) : Writer :=
  let w : Writer := ⟨buffer, 0⟩
  let w := w.put (uint32.toBytes LEAF_NODE)
  let w := w.put (uint32.toBytes (UInt32.ofNat n.size))
  let w := w.put (int64.toBytes n.selfRep)
  let w := w.put (int64.toBytes n.rightSibling)
  w.put (e.arrayBytes (valid n.entries n.size))

/-- `LeafNode::deserialize`. -/
def LeafObject.deserialize (n : LeafObject K V capacity) (buffer : Buffer) :
    LeafObject K V capacity :=
  -- skip type
  let readOffset := uint32.size
  let size := (uint32.load buffer readOffset).toNat
  let readOffset := readOffset + uint32.size
  let selfRep := int64.load buffer readOffset
  let readOffset := readOffset + int64.size
  let rightSibling := int64.load buffer readOffset
  let readOffset := readOffset + int64.size
  { n with
    size, selfRep, rightSibling
    entries := overwrite n.entries (e.loadArray buffer readOffset size) }

/-- `InnerNode::serialize`. -/
def InnerObject.serialize (n : InnerObject K capacity) (buffer : Buffer) : Writer :=
  let w : Writer := ⟨buffer, 0⟩
  let w := w.put (uint32.toBytes INNER_NODE)
  let w := w.put (uint32.toBytes (UInt32.ofNat n.size))
  let w := w.put (int64.toBytes n.selfRep)
  let w := w.put (k.arrayBytes (valid n.keys n.size))
  w.put (int64.arrayBytes (valid n.childRep n.size))

/-- `InnerNode::deserialize`. -/
def InnerObject.deserialize (n : InnerObject K capacity) (buffer : Buffer) :
    InnerObject K capacity :=
  -- skip type
  let readOffset := uint32.size
  let size := (uint32.load buffer readOffset).toNat
  let readOffset := readOffset + uint32.size
  let selfRep := int64.load buffer readOffset
  let readOffset := readOffset + int64.size
  let keys := overwrite n.keys (k.loadArray buffer readOffset size)
  let readOffset := readOffset + size * k.size
  { n with
    size, selfRep, keys
    childRep := overwrite n.childRep (int64.loadArray buffer readOffset size) }

namespace NodeObject

def size : NodeObject K V capacity → Nat
  | leaf n => n.size
  | inner n => n.size

def serialize : NodeObject K V capacity → Buffer → Writer
  | leaf n, buffer => n.serialize e buffer
  | inner n, buffer => n.serialize k buffer

end NodeObject

/-- The switch on the type word: a leaf is read into `leaf`, an inner node into
`inner`, and anything else is an assertion failure.  A search context passes its
`leaf_node_` and `inner_node_`, with what they held before. -/
def loadByType (leaf : LeafObject K V capacity) (inner : InnerObject K capacity)
    (buffer : Buffer) : Option (NodeObject K V capacity) :=
  let nodeType := uint32.load buffer 0
  if nodeType = LEAF_NODE then some (.leaf (leaf.deserialize e buffer))
  else if nodeType = INNER_NODE then some (.inner (inner.deserialize k buffer))
  else none

/-- `specific_deserialize`, and the switch of an insert context: into new objects. -/
def specificDeserialize (entries : Vector (K × V) capacity) (keys : Vector K capacity)
    (buffer : Buffer) : Option (NodeObject K V capacity) :=
  loadByType e k (LeafObject.new entries) (InnerObject.new keys) buffer

/-! ## §3. The encoding. -/

namespace NodeObject

/-- The bytes of a node. -/
def encoding : NodeObject K V capacity → List UInt8
  | leaf n => uint32.toBytes LEAF_NODE ++ (uint32.toBytes (UInt32.ofNat n.size)
      ++ (int64.toBytes n.selfRep ++ (int64.toBytes n.rightSibling
        ++ e.arrayBytes (valid n.entries n.size))))
  | inner n => uint32.toBytes INNER_NODE ++ (uint32.toBytes (UInt32.ofNat n.size)
      ++ (int64.toBytes n.selfRep ++ (k.arrayBytes (valid n.keys n.size)
        ++ int64.arrayBytes (valid n.childRep n.size))))

/-- How many bytes a node takes. -/
def encodedSize : NodeObject K V capacity → Nat
  | leaf n => 24 + n.size * e.size
  | inner n => 16 + n.size * (k.size + 8)

/-- **`serialize`** is one copy of the encoding to the start of the buffer. -/
theorem serialize_eq (n : NodeObject K V capacity) (buffer : Buffer) :
    n.serialize e k buffer = (⟨buffer, 0⟩ : Writer).put (n.encoding e k) := by
  cases n with
  | leaf n =>
      simp only [serialize, LeafObject.serialize, encoding, Writer.put_put, List.append_assoc]
  | inner n =>
      simp only [serialize, InnerObject.serialize, encoding, Writer.put_put, List.append_assoc]

theorem length_encoding (n : NodeObject K V capacity) (hn : n.size ≤ capacity) :
    (n.encoding e k).length = n.encodedSize e k := by
  cases n with
  | leaf n =>
      have hn : n.size ≤ capacity := hn
      simp only [encoding, encodedSize, List.length_append, Codec.length_toBytes,
        Codec.length_arrayBytes, length_valid _ hn, uint32_size, int64_size]
      omega
  | inner n =>
      have hn : n.size ≤ capacity := hn
      simp only [encoding, encodedSize, List.length_append, Codec.length_toBytes,
        Codec.length_arrayBytes, length_valid _ hn, uint32_size, int64_size, Nat.mul_add]
      omega

end NodeObject

/-! ## §4. Reading a node back. -/

/-- The same node: of the same kind, with the same `size_`, addresses and valid
elements. -/
def NodeObject.Same : NodeObject K V capacity → NodeObject K V capacity → Prop
  | leaf m, leaf n => m.size = n.size ∧ m.selfRep = n.selfRep ∧ m.rightSibling = n.rightSibling
      ∧ valid m.entries m.size = valid n.entries n.size
  | inner m, inner n => m.size = n.size ∧ m.selfRep = n.selfRep
      ∧ valid m.keys m.size = valid n.keys n.size
      ∧ valid m.childRep m.size = valid n.childRep n.size
  | _, _ => False

/-- The size word holds any `size_` that an `int` does. -/
theorem toNat_size {size : Nat} (hsize : size ≤ capacity) (hcap : capacity < 2 ^ 31) :
    (UInt32.ofNat size).toNat = size := by
  rw [UInt32.toNat_ofNat']
  exact Nat.mod_eq_of_lt (by omega)

/-- The first two words of either kind of node. -/
theorem load_header {type : UInt32} {size : Nat} {rest : List UInt8} {buffer : Buffer}
    (hsize : size ≤ capacity) (hcap : capacity < 2 ^ 31)
    (h : buffer.Holds 0 (uint32.toBytes type ++ (uint32.toBytes (UInt32.ofNat size) ++ rest))) :
    uint32.load buffer 0 = type ∧ (uint32.load buffer uint32.size).toNat = size
      ∧ buffer.Holds (uint32.size + uint32.size) rest := by
  simp only [Buffer.holds_append, Codec.length_toBytes, Nat.zero_add] at h
  obtain ⟨htype, hword, hrest⟩ := h
  refine ⟨uint32.load_of_holds htype, ?_, hrest⟩
  rw [uint32.load_of_holds hword, toNat_size hsize hcap]

/-- The valid elements of an array that the elements of another one were read into. -/
theorem valid_loadArray {c : Codec α} {buffer : Buffer} {offset n : Nat} {a : Vector α capacity}
    (a' : Vector α capacity) (hn : n ≤ capacity)
    (h : buffer.Holds offset (c.arrayBytes (valid a n))) :
    valid (overwrite a' (c.loadArray buffer offset n)) n = valid a n := by
  have hload := c.loadArray_of_holds h
  have hlen := length_valid a hn
  rw [hlen] at hload
  rw [hload]
  have hvalid := valid_overwrite a' (l := valid a n) (by omega)
  rwa [hlen] at hvalid

theorem LeafObject.deserialize_same (m : LeafObject K V capacity) {n : LeafObject K V capacity}
    {buffer : Buffer} (hcap : capacity < 2 ^ 31) (hn : n.size ≤ capacity)
    (h : buffer.Holds 0 ((NodeObject.leaf n).encoding e k)) :
    (NodeObject.leaf (m.deserialize e buffer)).Same (.leaf n) := by
  obtain ⟨-, hsize, hrest⟩ := load_header hn hcap h
  simp only [Buffer.holds_append, Codec.length_toBytes] at hrest
  obtain ⟨hself, hright, hentries⟩ := hrest
  refine ⟨hsize, int64.load_of_holds hself, int64.load_of_holds hright, ?_⟩
  show valid (overwrite m.entries (e.loadArray buffer _ (uint32.load buffer uint32.size).toNat))
    (uint32.load buffer uint32.size).toNat = _
  rw [hsize]
  exact valid_loadArray m.entries hn hentries

theorem InnerObject.deserialize_same (m : InnerObject K capacity) {n : InnerObject K capacity}
    {buffer : Buffer} (hcap : capacity < 2 ^ 31) (hn : n.size ≤ capacity)
    (h : buffer.Holds 0 ((NodeObject.inner n).encoding e k)) :
    (NodeObject.inner (m.deserialize k buffer)).Same ((.inner n : NodeObject K V capacity)) := by
  obtain ⟨-, hsize, hrest⟩ := load_header hn hcap h
  simp only [Buffer.holds_append, Codec.length_toBytes, Codec.length_arrayBytes,
    length_valid _ hn] at hrest
  obtain ⟨hself, hkeys, hchildren⟩ := hrest
  refine ⟨hsize, int64.load_of_holds hself, ?_, ?_⟩
  · show valid (overwrite m.keys (k.loadArray buffer _ (uint32.load buffer uint32.size).toNat))
      (uint32.load buffer uint32.size).toNat = _
    rw [hsize]
    exact valid_loadArray m.keys hn hkeys
  · show valid (overwrite m.childRep (int64.loadArray buffer
      (_ + (uint32.load buffer uint32.size).toNat * k.size)
      (uint32.load buffer uint32.size).toNat)) (uint32.load buffer uint32.size).toNat = _
    rw [hsize]
    exact valid_loadArray m.childRep hn hchildren

/-- A buffer that starts with the encoding of a node gives the node. -/
theorem loadByType_of_holds {n : NodeObject K V capacity} {buffer : Buffer}
    (hcap : capacity < 2 ^ 31) (hn : n.size ≤ capacity) (h : buffer.Holds 0 (n.encoding e k))
    (leaf : LeafObject K V capacity) (inner : InnerObject K capacity) :
    ∃ m, loadByType e k leaf inner buffer = some m ∧ m.Same n := by
  cases n with
  | leaf n =>
      obtain ⟨htype, -, -⟩ := load_header hn hcap h
      refine ⟨.leaf (leaf.deserialize e buffer), ?_, leaf.deserialize_same e k hcap hn h⟩
      simp [loadByType, htype]
  | inner n =>
      obtain ⟨htype, -, -⟩ := load_header hn hcap h
      refine ⟨.inner (inner.deserialize k buffer), ?_, inner.deserialize_same e k hcap hn h⟩
      simp [loadByType, htype, INNER_NODE, LEAF_NODE]

theorem NodeObject.holds_serialize (n : NodeObject K V capacity) (buffer : Buffer) :
    (n.serialize e k buffer).buffer.Holds 0 (n.encoding e k) := by
  rw [NodeObject.serialize_eq]
  exact Writer.holds_put ⟨buffer, 0⟩ (n.encoding e k)

/-- **Nodes round-trip.**  A node that fits the block is written within it, with no
byte changed past its end, and the buffer is read back by its type word as the same
node, whatever the buffer and the objects read into held before. -/
theorem loadByType_serialize (blockSize : Nat) (hcap : capacity < 2 ^ 31)
    (n : NodeObject K V capacity) (hn : n.size ≤ capacity)
    (hfits : n.encodedSize e k ≤ blockSize) (buffer : Buffer) :
    (n.serialize e k buffer).offset ≤ blockSize
      ∧ (∀ i, n.encodedSize e k ≤ i → (n.serialize e k buffer).buffer i = buffer i)
      ∧ (∀ leaf inner, ∃ m,
        loadByType e k leaf inner (n.serialize e k buffer).buffer = some m ∧ m.Same n)
      ∧ ∀ entries keys, ∃ m,
        specificDeserialize e k entries keys (n.serialize e k buffer).buffer = some m
          ∧ m.Same n := by
  have hlen := n.length_encoding e k hn
  have hload := loadByType_of_holds e k hcap hn (n.holds_serialize e k buffer)
  refine ⟨?_, ?_, hload, fun entries keys => hload _ _⟩
  · rw [NodeObject.serialize_eq, Writer.put_offset, hlen]
    show 0 + n.encodedSize e k ≤ blockSize
    omega
  · intro i hi
    rw [NodeObject.serialize_eq, Writer.put_of_le]
    show 0 + (n.encoding e k).length ≤ i
    omega

/-- A leaf with one entry and a null sibling, a struct with four bytes of padding. -/
theorem loadByType_serialize_leaf :
    (NodeObject.leaf ⟨1, 3, -1, #v[(5, 7), (0, 0)]⟩ : NodeObject UInt32 Int64 2).encodedSize
        (uint32.pair int64 4 0) uint32 = 40
      ∧ ∃ m, loadByType (uint32.pair int64 4 0) uint32
          ⟨2, 9, 4, #v[(1, 1), (2, 2)]⟩ (InnerObject.new #v[0, 0])
          ((NodeObject.leaf ⟨1, 3, -1, #v[(5, 7), (0, 0)]⟩).serialize
            (uint32.pair int64 4 0) uint32 (fun _ => 255)).buffer = some m
        ∧ m.Same (.leaf ⟨1, 3, -1, #v[(5, 7), (0, 0)]⟩) :=
  ⟨rfl, (loadByType_serialize (uint32.pair int64 4 0) uint32 512 (by decide)
    (NodeObject.leaf ⟨1, 3, -1, #v[(5, 7), (0, 0)]⟩) (by decide) (by decide)
    (fun _ => 255)).2.2.1 _ _⟩

/-! ## §5. The nodes of the trees. -/

/-- `-1` is the null sibling. -/
def siblingOf (a : Int64) : Option BlkAddress := if a = -1 then none else some a.toNatClampNeg

/-- The node an object holds. -/
def NodeObject.node (modified : Bool) : NodeObject K V capacity → Node K V
  | leaf n => .leaf
      ⟨n.selfRep.toNatClampNeg, siblingOf n.rightSibling, valid n.entries n.size, modified⟩
  | inner n => .inner ⟨n.selfRep.toNatClampNeg,
      (valid n.keys n.size).zip ((valid n.childRep n.size).map Int64.toNatClampNeg), modified⟩

theorem NodeObject.Same.node {m n : NodeObject K V capacity} (h : m.Same n) (modified : Bool) :
    m.node modified = n.node modified := by
  cases m with
  | leaf m =>
      cases n with
      | leaf n =>
          obtain ⟨-, hself, hright, hentries⟩ := h
          simp only [NodeObject.node, hself, hright, hentries]
      | inner n => exact h.elim
  | inner m =>
      cases n with
      | leaf n => exact h.elim
      | inner n =>
          obtain ⟨-, hself, hkeys, hchildren⟩ := h
          simp only [NodeObject.node, hself, hkeys, hchildren]

/-- **The bytes carry the blocks of the trees**: what is loaded from the bytes of a
node is what `Block.deserialize` gives. -/
theorem loadByType_node (hcap : capacity < 2 ^ 31) (n : NodeObject K V capacity)
    (hn : n.size ≤ capacity) (modified : Bool) (buffer : Buffer)
    (leaf : LeafObject K V capacity) (inner : InnerObject K capacity) :
    ∃ m, loadByType e k leaf inner (n.serialize e k buffer).buffer = some m
      ∧ m.node false = (n.node modified).serialize.deserialize := by
  obtain ⟨m, hm, hsame⟩ := loadByType_of_holds e k hcap hn (n.holds_serialize e k buffer) leaf inner
  refine ⟨m, hm, ?_⟩
  rw [hsame.node]
  cases n <;> rfl

end Encoding

end NvmTree
