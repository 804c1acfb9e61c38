/-
  NvmTree.OnDisk.Rename — node operations do not depend on addresses.

  `image ρ b` is a node with its addresses renamed by `ρ` and marked modified or
  not.  Every operation on a node commutes with it: what a node does depends on its
  keys and entries alone, and an operation that changes the node marks it modified.

  Main results:
    * `Node.deserialize_image` — what is loaded from the block of an image.
    * `LeafNode.insertWithSplitSupport_image`, `LeafNode.deleteKey_image`,
      `InnerNode.splitInsert_image`, `Disk.balance_image`, … — the operations.
-/
import Mathlib.Data.List.InsertIdx
import NvmTree.OnDisk.Tree

namespace NvmTree

variable {K V : Type*}

/-! ## §1. Images. -/

section Images

variable (ρ : BlkAddress → BlkAddress) (b : Bool)

def LeafNode.image (n : LeafNode K V) : LeafNode K V :=
  ⟨ρ n.selfRep, n.rightSibling.map ρ, n.entries, b⟩

def InnerNode.image (n : InnerNode K) : InnerNode K :=
  ⟨ρ n.selfRep, n.slots.map (Prod.map id ρ), b⟩

def Node.image : Node K V → Node K V
  | .leaf n => .leaf (n.image ρ b)
  | .inner n => .inner (n.image ρ b)

end Images

/-- The addresses a node refers to, other than its own. -/
def Node.refs : Node K V → List BlkAddress
  | .leaf n => n.rightSibling.toList
  | .inner n => n.slots.map Prod.snd

variable {ρ ρ' : BlkAddress → BlkAddress} {b b' : Bool}

@[simp]
theorem Node.image_selfRep (n : Node K V) : (n.image ρ b).selfRep = ρ n.selfRep := by
  cases n <;> rfl

@[simp]
theorem Node.image_modified (n : Node K V) : (n.image ρ b).modified = b := by
  cases n <;> rfl

@[simp]
theorem Node.image_leftmostKey (n : Node K V) :
    (n.image ρ b).getLeftmostKey = n.getLeftmostKey := by
  cases n with
  | leaf n => rfl
  | inner n => simp [Node.image, InnerNode.image, Node.getLeftmostKey, Function.comp_def]

/-- The block of a node does not depend on the mark. -/
theorem Node.serialize_image (n : Node K V) :
    (n.image ρ b).serialize = (n.image ρ b').serialize := by
  cases n <;> rfl

/-- A node just loaded is not modified. -/
theorem Node.deserialize_image (n : Node K V) :
    ((n.image ρ b).serialize).deserialize = n.image ρ false := by
  cases n <;> rfl

/-- Only the addresses a node mentions matter. -/
theorem Node.image_congr {n : Node K V} (hself : ρ' n.selfRep = ρ n.selfRep)
    (h : ∀ r ∈ n.refs, ρ' r = ρ r) : n.image ρ' b = n.image ρ b := by
  cases n with
  | leaf n =>
      have hsib : n.rightSibling.map ρ' = n.rightSibling.map ρ := by
        cases hs : n.rightSibling with
        | none => rfl
        | some r => simp only [Option.map_some, h r (by simp [Node.refs, hs])]
      simp only [Node.image, LeafNode.image, hsib]
      rw [show ρ' n.selfRep = ρ n.selfRep from hself]
  | inner n =>
      have hslots : n.slots.map (Prod.map id ρ') = n.slots.map (Prod.map id ρ) := by
        refine List.map_congr_left (fun s hs => ?_)
        simp only [Prod.map, id, h s.2 (List.mem_map_of_mem hs)]
      simp only [Node.image, InnerNode.image, hslots]
      rw [show ρ' n.selfRep = ρ n.selfRep from hself]

/-! ## §2. Leaves. -/

namespace LeafNode

variable [LinearOrder K] (n : LeafNode K V) (k : K)

theorem insert_image (capacity : Nat) (v : V) :
    ((n.image ρ b).insert capacity k v).1 = (n.insert capacity k v).1.image ρ true := by
  obtain ⟨rep, sib, es, md⟩ := n
  -- the place of the key depends on the entries alone
  obtain ⟨p, hp⟩ : ∃ p, (⟨rep, sib, es, true⟩ : LeafNode K V).searchKeyPosition k = p := ⟨_, rfl⟩
  have hp' : (⟨ρ rep, sib.map ρ, es, true⟩ : LeafNode K V).searchKeyPosition k = p := hp
  obtain ⟨_ | _, position⟩ := p
  · by_cases hroom : capacity ≤ es.length
    · simp only [insert, image, hp, hp', size, hroom, if_true]
    · simp only [insert, image, hp, hp', size, hroom, if_false]
  · simp only [insert, image, hp, hp']

/-- `insert_with_split_support`. -/
theorem insertWithSplitSupport_image (capacity : Nat) (v : V) (r : BlkAddress) :
    (n.image ρ b).insertWithSplitSupport capacity k v (ρ r)
      = ((n.insertWithSplitSupport capacity k v r).1.image ρ true,
        (n.insertWithSplitSupport capacity k v r).2.map (fun p => (p.1.image ρ true, p.2))) := by
  obtain ⟨rep, sib, es, md⟩ := n
  obtain ⟨p, hp⟩ : ∃ p, (⟨rep, sib, es, true⟩ : LeafNode K V).searchKeyPosition k = p := ⟨_, rfl⟩
  have hp' : (⟨ρ rep, sib.map ρ, es, true⟩ : LeafNode K V).searchKeyPosition k = p := hp
  obtain ⟨_ | _, position⟩ := p
  · by_cases hroom : es.length < capacity
    · simp only [insertWithSplitSupport, image, hp, hp', size, hroom, if_true, Option.map_none]
    · have hleft := insert_image (ρ := ρ) (b := true) ⟨rep, some r, es.take (es.length
        - (capacity - capacity / 2)), true⟩ k capacity v
      have hright := insert_image (ρ := ρ) (b := true) ⟨r, sib, (es.drop (capacity / 2)).take
        (capacity - capacity / 2), true⟩ k capacity v
      simp only [image, Option.map_some] at hleft hright
      by_cases hfirst : position < capacity / 2
      · simp only [insertWithSplitSupport, image, hp, hp', size, hroom, hfirst, if_true, if_false,
          Option.map_some, hleft]
      · simp only [insertWithSplitSupport, image, hp, hp', size, hroom, hfirst, if_false,
          Option.map_some, hright]
  · simp only [insertWithSplitSupport, image, hp, hp', Option.map_none]

theorem deleteKey_image (capacity : Nat) (u : Bool) :
    (n.image ρ b).deleteKey capacity k u
      = ((n.deleteKey capacity k u).1.image ρ (b || (n.deleteKey capacity k u).2.1),
        (n.deleteKey capacity k u).2) := by
  obtain ⟨rep, sib, es, md⟩ := n
  obtain ⟨p, hp⟩ : ∃ p, (⟨rep, sib, es, md⟩ : LeafNode K V).searchKeyPosition k = p := ⟨_, rfl⟩
  have hp' : (⟨ρ rep, sib.map ρ, es, b⟩ : LeafNode K V).searchKeyPosition k = p := hp
  obtain ⟨_ | _, position⟩ := p
  · simp only [deleteKey, image, hp, hp', Bool.or_false]
  · simp only [deleteKey, image, hp, hp', Bool.or_true, size]
    rfl

end LeafNode

/-! ## §3. Inner nodes. -/

theorem bsearch_map {α β : Type*} (cmp : β → Ordering) (f : α → β) (xs : List α) :
    ∀ (fuel : Nat) (l r : Int), BinarySearch.bsearch cmp (xs.map f) fuel l r
      = BinarySearch.bsearch (fun x => cmp (f x)) xs fuel l r := by
  intro fuel
  induction fuel with
  | zero => intro l r; rfl
  | succ fuel ih =>
      intro l r
      unfold BinarySearch.bsearch
      simp only [List.getElem?_map, ih]
      cases xs[((l + r) / 2).toNat]? <;> rfl

namespace InnerNode

variable (n : InnerNode K)

@[simp]
theorem image_size : (n.image ρ b).size = n.size := by
  simp [image, size]

theorem image_getElem? (i : Nat) :
    (n.image ρ b).slots[i]? = (n.slots[i]?).map (Prod.map id ρ) := by
  simp [image]

theorem setBoundary_image (i : Nat) (k : K) :
    (n.image ρ b).setBoundary i k = (n.setBoundary i k).image ρ true := by
  simp only [image, setBoundary, InnerNode.mk.injEq, true_and, and_true]
  refine List.ext_getElem? (fun j => ?_)
  simp only [List.getElem?_modify, List.getElem?_map]
  cases n.slots[j]? with
  | none => rfl
  | some s => split <;> rfl

theorem removeChild_image (i : Nat) :
    (n.image ρ b).removeChild i = (n.removeChild i).image ρ true := by
  simp only [image, removeChild, InnerNode.mk.injEq, true_and, and_true]
  exact List.eraseIdx_map ..

theorem insertInnerNode_image (c : BlkAddress) (k : K) (i : Nat) :
    (n.image ρ b).insertInnerNode (ρ c) k i = (n.insertInnerNode c k i).image ρ true := by
  simp only [image, insertInnerNode, InnerNode.mk.injEq, true_and, and_true]
  exact (List.map_insertIdx (Prod.map id ρ) n.slots i (k, c)).symm

theorem setFirstKey_image (k : K) :
    (n.image ρ b).setFirstKey k = (n.setFirstKey k).image ρ true :=
  setBoundary_image n 0 k

variable [LinearOrder K] (k : K)

@[simp]
theorem locateChildIndex_image : (n.image ρ b).locateChildIndex k = n.locateChildIndex k := by
  unfold locateChildIndex
  rw [image_size]
  simp only [image, bsearch_map]
  rfl

/-- The split of a full node. -/
theorem splitInsert_image (capacity position : Nat) (c r : BlkAddress) :
    (n.image ρ b).splitInsert capacity position (ρ c) k (ρ r)
      = ((n.splitInsert capacity position c k r).1.image ρ true,
        (n.splitInsert capacity position c k r).2.image ρ true) := by
  have hleft : ({ n.image ρ b with
        slots := (n.image ρ b).slots.take (n.size - (n.size - capacity / 2)),
        modified := true } : InnerNode K)
      = (⟨n.selfRep, n.slots.take (n.size - (n.size - capacity / 2)), true⟩
        : InnerNode K).image ρ true := by
    simp only [image, List.map_take]
  have hright : (⟨ρ r, (n.image ρ b).slots.drop (capacity / 2), true⟩ : InnerNode K)
      = (⟨r, n.slots.drop (capacity / 2), true⟩ : InnerNode K).image ρ true := by
    simp only [image, List.map_drop]
  unfold splitInsert
  simp only [image_size, hleft, hright, locateChildIndex_image, insertInnerNode_image]
  split <;> rfl

end InnerNode

/-! ## §4. Balancing. -/

theorem balanceEntries_map {β γ : Type*} (capacity : Nat) (f : β → γ) (l r : List (K × β)) :
    balanceEntries capacity (l.map (Prod.map id f)) (r.map (Prod.map id f))
      = ((balanceEntries capacity l r).1.map (Prod.map id f),
        (balanceEntries capacity l r).2.1.map (Prod.map id f), (balanceEntries capacity l r).2.2) := by
  unfold balanceEntries
  simp only [List.length_map, List.getLast?_map]
  -- whether an entry is borrowed from the left or the contents are joined
  cases decide (r.length < underflowBound capacity ∧ underflowBound capacity < l.length)
  all_goals
    cases l.getLast?
    all_goals
      cases decide (l.length < underflowBound capacity ∧ underflowBound capacity < r.length)
      all_goals
        rcases r with _ | ⟨e, _ | ⟨e', rest⟩⟩
        all_goals simp [List.map_dropLast]

theorem Disk.balance_image (capacity : Nat) (l r : Node K V) :
    Disk.balance capacity (l.image ρ b) (r.image ρ b')
      = (Disk.balance capacity l r).map
        (fun p => (p.1.image ρ true, p.2.1.image ρ true, p.2.2)) := by
  match l, r with
  | .leaf l, .leaf r =>
      simp only [Node.image, Disk.balance, LeafNode.balance, LeafNode.image, Option.map_some]
      split <;> simp
  | .inner l, .inner r =>
      simp only [Node.image, Disk.balance, InnerNode.balance, InnerNode.image, Option.map_some,
        balanceEntries_map]
  | .leaf _, .inner _ => rfl
  | .inner _, .leaf _ => rfl

end NvmTree
