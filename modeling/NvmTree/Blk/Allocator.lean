/-
  NvmTree.Blk.Allocator — block addresses, handed out and taken back.

  `allocate` gives a freed address if there is one and the next new one
  otherwise; which freed address comes first is left to the order of the list.
  The 32-bit cursor of `file_blk_accessor`, and what happens when it wraps around,
  is in `NvmTree.Blk.FileAccessor`; here addresses do not run out.
-/
import NvmTree.Node.Leaf

namespace NvmTree

structure Allocator where
  freed : List BlkAddress
  cursor : BlkAddress
  deriving Repr, DecidableEq

namespace Allocator

/-- The address that `allocate` returns. -/
def next (a : Allocator) : BlkAddress := a.freed.headD a.cursor

/-- `allocate`. -/
def allocate (a : Allocator) : Allocator :=
  match a.freed with
  | [] => { a with cursor := a.cursor + 1 }
  | _ :: rest => { a with freed := rest }

/-- `deallocate`.  The first branch would need an address behind the cursor. -/
def deallocate (a : Allocator) (address : BlkAddress) : Allocator :=
  if a.cursor + 1 = address then { a with cursor := a.cursor - 1 }
  else { a with freed := address :: a.freed }

/-- `x` is an address that has not been handed out. -/
def Free (a : Allocator) (x : BlkAddress) : Prop := x ∈ a.freed ∨ a.cursor ≤ x

/-- No address is free twice. -/
structure Ok (a : Allocator) : Prop where
  nodup : a.freed.Nodup
  below : ∀ x ∈ a.freed, x < a.cursor

variable {a : Allocator} {x : BlkAddress}

theorem free_next (a : Allocator) : a.Free a.next := by
  unfold Free next
  cases a.freed with
  | nil => exact Or.inr le_rfl
  | cons y rest => exact Or.inl (by simp)

/-- Allocation takes one address away. -/
theorem Ok.free_allocate (h : a.Ok) : a.allocate.Free x ↔ a.Free x ∧ x ≠ a.next := by
  obtain ⟨freed, cursor⟩ := a
  cases freed with
  | nil =>
      simp only [Free, allocate, next, List.headD_nil, List.not_mem_nil, false_or]
      exact ⟨fun h => ⟨Nat.le_of_succ_le h, Nat.ne_of_gt h⟩,
        fun h => Nat.lt_of_le_of_ne h.1 h.2.symm⟩
  | cons y rest =>
      have hnd := List.nodup_cons.1 h.nodup
      have hy := h.below y (by simp)
      simp only [Free, allocate, next, List.headD_cons, List.mem_cons]
      constructor
      · rintro (hx | hx)
        · exact ⟨Or.inl (Or.inr hx), fun he => hnd.1 (he ▸ hx)⟩
        · exact ⟨Or.inr hx, Nat.ne_of_gt (Nat.lt_of_lt_of_le hy hx)⟩
      · rintro ⟨(rfl | hx) | hx, hne⟩
        · exact absurd rfl hne
        · exact Or.inl hx
        · exact Or.inr hx

theorem Ok.allocate (h : a.Ok) : a.allocate.Ok := by
  obtain ⟨freed, cursor⟩ := a
  cases freed with
  | nil => exact ⟨List.nodup_nil, fun x hx => nomatch hx⟩
  | cons y rest =>
      exact ⟨(List.nodup_cons.1 h.nodup).2, fun x hx => h.below x (List.mem_cons_of_mem _ hx)⟩

/-- The order of the freed addresses does not matter. -/
theorem Ok.perm (h : a.Ok) {l : List BlkAddress} (hl : l.Perm a.freed) :
    ({ a with freed := l } : Allocator).Ok :=
  ⟨hl.nodup_iff.2 h.nodup, fun x hx => h.below x (hl.mem_iff.1 hx)⟩

theorem free_perm {l : List BlkAddress} (hl : l.Perm a.freed) (x : BlkAddress) :
    ({ a with freed := l } : Allocator).Free x ↔ a.Free x :=
  or_congr_left hl.mem_iff

/-- An address in use is added to the freed ones. -/
theorem deallocate_eq (hx : ¬ a.Free x) :
    a.deallocate x = { a with freed := x :: a.freed } := by
  simp only [Free, not_or, not_le] at hx
  have hne : a.cursor + 1 ≠ x := Nat.ne_of_gt (Nat.lt_succ_of_lt hx.2)
  exact if_neg hne

theorem Ok.deallocate (h : a.Ok) (hx : ¬ a.Free x) : (a.deallocate x).Ok := by
  rw [deallocate_eq hx]
  simp only [Free, not_or, not_le] at hx
  refine ⟨List.nodup_cons.2 ⟨hx.1, h.nodup⟩, fun y hy => ?_⟩
  rcases List.mem_cons.1 hy with rfl | hy
  · exact hx.2
  · exact h.below y hy

theorem free_deallocate (hx : ¬ a.Free x) (y : BlkAddress) :
    (a.deallocate x).Free y ↔ y = x ∨ a.Free y := by
  rw [deallocate_eq hx]
  simp only [Free, List.mem_cons, or_assoc]

end Allocator

end NvmTree
