/-
  NvmTree.Lib.Bytes — values laid out as bytes in a buffer.

  A `Codec` is an injective representation of a type by a fixed number of bytes,
  with its inverse.  A `Writer` copies bytes to a buffer and moves its offset past
  them; what a buffer holds at an offset is then read back field by field.

  Main results:
    * `Writer.put_put` — two copies in a row are one copy of both.
    * `Holds.append` — what a buffer holds at an offset, piece by piece.
    * `Codec.load_of_holds`, `Codec.loadArray_of_holds` — a value, or an array of
      values, is read back as it was written.
-/
import Mathlib.Algebra.Group.Nat.Defs
import Mathlib.Data.List.GetD

namespace Bytes

/-! ## §1. Buffers. -/

/-- The memory from the start of a buffer on. -/
abbrev Buffer := Nat → UInt8

/-- The `n` bytes from `offset` on. -/
def Buffer.slice (b : Buffer) (offset : Nat) : Nat → List UInt8
  | 0 => []
  | n + 1 => b offset :: b.slice (offset + 1) n

/-- The buffer holds `bytes` from `offset` on. -/
def Buffer.Holds (b : Buffer) (offset : Nat) (bytes : List UInt8) : Prop :=
  b.slice offset bytes.length = bytes

/-- A buffer with the offset where the next bytes go. -/
structure Writer where
  buffer : Buffer
  offset : Nat

/-- Copies `bytes` to the offset and moves it past them. -/
def Writer.put (w : Writer) (bytes : List UInt8) : Writer where
  buffer i :=
    if w.offset ≤ i ∧ i < w.offset + bytes.length then bytes.getD (i - w.offset) 0
    else w.buffer i
  offset := w.offset + bytes.length

@[simp]
theorem Writer.put_offset (w : Writer) (bytes : List UInt8) :
    (w.put bytes).offset = w.offset + bytes.length := rfl

theorem Writer.put_of_le (w : Writer) (bytes : List UInt8) {i : Nat}
    (h : w.offset + bytes.length ≤ i) : (w.put bytes).buffer i = w.buffer i := by
  unfold Writer.put
  simp only [show ¬ (w.offset ≤ i ∧ i < w.offset + bytes.length) by omega, if_false]

/-- **Two copies in a row** are one copy of both. -/
theorem Writer.put_put (w : Writer) (l l' : List UInt8) : (w.put l).put l' = w.put (l ++ l') := by
  have hbuffer : ((w.put l).put l').buffer = (w.put (l ++ l')).buffer := by
    funext i
    simp only [Writer.put, List.length_append]
    by_cases hlow : i < w.offset + l.length
    · simp only [show ¬ (w.offset + l.length ≤ i) by omega, false_and, if_false]
      by_cases hi : w.offset ≤ i
      · simp only [hi, hlow, true_and, if_true, show i < w.offset + (l.length + l'.length) by omega]
        rw [List.getD_append _ _ _ _ (by omega)]
      · simp only [hi, false_and, if_false]
    · simp only [show w.offset + l.length ≤ i by omega, show w.offset ≤ i by omega, true_and,
        show ¬ (i < w.offset + l.length) by omega, if_false, ← Nat.add_assoc]
      rw [List.getD_append_right _ _ _ _ (by omega), Nat.sub_sub]
  have hoffset : ((w.put l).put l').offset = (w.put (l ++ l')).offset := by
    simp only [Writer.put_offset, List.length_append, Nat.add_assoc]
  show Writer.mk ((w.put l).put l').buffer ((w.put l).put l').offset = _
  rw [hbuffer, hoffset]

/-- **The bytes copied** are at the offset they were copied to. -/
theorem Writer.holds_put (w : Writer) (bytes : List UInt8) :
    (w.put bytes).buffer.Holds w.offset bytes := by
  induction bytes generalizing w with
  | nil => rfl
  | cons x bytes ih =>
      have hput : w.put (x :: bytes) = (w.put [x]).put bytes := (w.put_put [x] bytes).symm
      have hrest : (w.put (x :: bytes)).buffer.slice (w.offset + 1) bytes.length = bytes := by
        rw [hput]
        exact ih (w.put [x])
      show (w.put (x :: bytes)).buffer w.offset
        :: (w.put (x :: bytes)).buffer.slice (w.offset + 1) bytes.length = _
      rw [hrest]
      simp [Writer.put]

theorem Buffer.slice_add (b : Buffer) (offset m n : Nat) :
    b.slice offset (m + n) = b.slice offset m ++ b.slice (offset + m) n := by
  induction m generalizing offset with
  | zero => simp [Buffer.slice]
  | succ m ih =>
      rw [Nat.add_right_comm]
      show b offset :: b.slice (offset + 1) (m + n)
        = b offset :: (b.slice (offset + 1) m ++ b.slice (offset + (m + 1)) n)
      rw [ih, Nat.add_assoc, Nat.add_comm 1]

theorem Buffer.length_slice (b : Buffer) (offset n : Nat) : (b.slice offset n).length = n := by
  induction n generalizing offset with
  | zero => rfl
  | succ n ih =>
      show (b.slice (offset + 1) n).length + 1 = n + 1
      rw [ih]

/-- **What a buffer holds**, piece by piece. -/
theorem Buffer.holds_append {b : Buffer} {offset : Nat} {l l' : List UInt8} :
    b.Holds offset (l ++ l') ↔ b.Holds offset l ∧ b.Holds (offset + l.length) l' := by
  unfold Buffer.Holds
  rw [List.length_append, Buffer.slice_add]
  constructor
  · intro h
    exact List.append_inj h (Buffer.length_slice _ _ _)
  · rintro ⟨h, h'⟩
    rw [h, h']

/-! ## §2. Codecs. -/

/-- A representation of the values of `α` by `size` bytes: injective, since
`ofBytes` inverts it.  What `ofBytes` makes of other bytes is not fixed. -/
structure Codec (α : Type*) where
  size : Nat
  toBytes : α → List UInt8
  ofBytes : List UInt8 → α
  length_toBytes : ∀ a, (toBytes a).length = size
  ofBytes_toBytes : ∀ a, ofBytes (toBytes a) = a

/-- The representation of `β` by that of its image in `α`. -/
def Codec.comap {α β : Type*} (c : Codec α) (f : β → α) (g : α → β) (h : ∀ b, g (f b) = b) :
    Codec β where
  size := c.size
  toBytes b := c.toBytes (f b)
  ofBytes bytes := g (c.ofBytes bytes)
  length_toBytes b := c.length_toBytes (f b)
  ofBytes_toBytes b := by rw [c.ofBytes_toBytes, h]

/-- A pair as a C++ compiler lays out two members: `gap` bytes of padding between
them and `tail` bytes after them. -/
def Codec.pair {α β : Type*} (c : Codec α) (d : Codec β) (gap tail : Nat) : Codec (α × β) where
  size := c.size + gap + d.size + tail
  toBytes p := c.toBytes p.1 ++ List.replicate gap 0 ++ d.toBytes p.2 ++ List.replicate tail 0
  ofBytes bytes :=
    (c.ofBytes (bytes.take c.size), d.ofBytes ((bytes.drop (c.size + gap)).take d.size))
  length_toBytes p := by simp [c.length_toBytes, d.length_toBytes, Nat.add_assoc]
  ofBytes_toBytes p := by
    have hc := c.length_toBytes p.1
    have hd := d.length_toBytes p.2
    have hgap : (c.toBytes p.1 ++ List.replicate gap 0).length = c.size + gap := by simp [hc]
    rw [List.append_assoc, List.drop_left' hgap, List.take_left' hd, List.append_assoc,
      List.take_left' hc, c.ofBytes_toBytes, d.ofBytes_toBytes]

namespace Codec

variable {α : Type*} (c : Codec α) {b : Buffer} {offset : Nat}

/-- The value at `offset`. -/
def load (b : Buffer) (offset : Nat) : α := c.ofBytes (b.slice offset c.size)

/-- The bytes of an array. -/
def arrayBytes (l : List α) : List UInt8 := l.flatMap c.toBytes

/-- The array of `n` values at `offset`. -/
def loadArray (b : Buffer) (offset : Nat) : Nat → List α
  | 0 => []
  | n + 1 => c.load b offset :: loadArray b (offset + c.size) n

theorem length_arrayBytes (l : List α) : (c.arrayBytes l).length = l.length * c.size := by
  induction l with
  | nil => simp [arrayBytes]
  | cons a l ih =>
      have hcons : c.arrayBytes (a :: l) = c.toBytes a ++ c.arrayBytes l := rfl
      rw [hcons, List.length_append, c.length_toBytes, ih, List.length_cons, Nat.succ_mul,
        Nat.add_comm]

/-- **A value is read back** as it was written. -/
theorem load_of_holds {a : α} (h : b.Holds offset (c.toBytes a)) : c.load b offset = a := by
  unfold load
  rw [← c.length_toBytes a, h, c.ofBytes_toBytes]

/-- **An array is read back** as it was written. -/
theorem loadArray_of_holds {l : List α} (h : b.Holds offset (c.arrayBytes l)) :
    c.loadArray b offset l.length = l := by
  induction l generalizing offset with
  | nil => rfl
  | cons a l ih =>
      obtain ⟨hhead, htail⟩ := Buffer.holds_append.1 h
      rw [c.length_toBytes] at htail
      show c.load b offset :: c.loadArray b (offset + c.size) l.length = a :: l
      rw [c.load_of_holds hhead, ih htail]

end Codec

/-! ## §3. Machine integers. -/

/-- The `width` low bytes of a number, the lowest first. -/
def leBytes : Nat → Nat → List UInt8
  | 0, _ => []
  | width + 1, n => UInt8.ofNat n :: leBytes width (n / 256)

def ofLeBytes : List UInt8 → Nat
  | [] => 0
  | x :: bytes => x.toNat + 256 * ofLeBytes bytes

theorem length_leBytes (width n : Nat) : (leBytes width n).length = width := by
  induction width generalizing n with
  | zero => rfl
  | succ width ih => simp [leBytes, ih]

theorem ofLeBytes_leBytes (width n : Nat) : ofLeBytes (leBytes width n) = n % 256 ^ width := by
  induction width generalizing n with
  | zero => simp [leBytes, ofLeBytes, Nat.mod_one]
  | succ width ih =>
      show (UInt8.ofNat n).toNat + 256 * ofLeBytes (leBytes width (n / 256)) = _
      rw [ih, Nat.pow_succ', Nat.mod_mul]
      rfl

/-- A word of `width` bytes, little-endian. -/
def word (width : Nat) : Codec (BitVec (8 * width)) where
  size := width
  toBytes v := leBytes width v.toNat
  ofBytes bytes := BitVec.ofNat _ (ofLeBytes bytes)
  length_toBytes v := length_leBytes width v.toNat
  ofBytes_toBytes v := by
    have hpow : 256 ^ width = 2 ^ (8 * width) := by rw [Nat.pow_mul]
    have hlt : v.toNat % 2 ^ (8 * width) = v.toNat := Nat.mod_eq_of_lt v.isLt
    rw [ofLeBytes_leBytes, hpow, hlt, BitVec.ofNat_toNat, BitVec.setWidth_eq]

/-- `uint32_t`. -/
def uint32 : Codec UInt32 := (word 4).comap UInt32.toBitVec UInt32.ofBitVec (fun _ => rfl)

/-- `int64_t`. -/
def int64 : Codec Int64 := (word 8).comap Int64.toBitVec Int64.ofBitVec (fun _ => rfl)

@[simp]
theorem uint32_size : uint32.size = 4 := rfl

@[simp]
theorem int64_size : int64.size = 8 := rfl

/-- `-1` is eight bytes `0xff`. -/
example : int64.toBytes (-1) = List.replicate 8 255 := by decide

end Bytes
