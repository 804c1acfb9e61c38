/-
  NvmTree.Vanilla.Structure — the shape of the sequential tree.

  `StructureOk` collects what holds of the tree after every sequence of calls,
  in terms of the heap alone: paths from the root, the keys of subtrees, the
  `right_sibling_` pointers.

  Main result:
    * `run_structureOk` — every sequence of calls on an initialised tree returns,
      in such a state.
-/
import NvmTree.RangeTree.Walk
import NvmTree.Vanilla.Map

namespace NvmTree

open RangeTree

namespace VanillaBPlusTree

variable {K V : Type*} [LinearOrder K] {capacity : Nat} {t : VanillaBPlusTree K V}

/-- The structural invariant.  `wellFormed` has the paths, the order of the keys
in a node and the chain of siblings. -/
structure StructureOk (capacity : Nat) (t : VanillaBPlusTree K V) : Prop where
  wellFormed : WellFormed t.heap.store t.root t.depth
  size_le : ∀ {n a node}, Reach t.heap.store t.root n a → t.heap.cells a = some node →
    node.size ≤ capacity
  /-- All keys below child `i`, of entries and of inner nodes, are at least
  `key_[i]` and below the keys after it. -/
  subtree : ∀ {n p xs ki c ys k}, Reach t.heap.store t.root n p →
    t.heap.store p = some (.inner (xs ++ (ki, c) :: ys)) → KeyIn t.heap.store k c →
    ki ≤ k ∧ ∀ s ∈ ys, k < s.1
  /-- An inner child's `key_[0]` is its slot's key. -/
  first_key : ∀ {n p slots ki c k₀ c₀ rest}, Reach t.heap.store t.root n p →
    t.heap.store p = some (.inner slots) → (ki, c) ∈ slots →
    t.heap.store c = some (.inner ((k₀, c₀) :: rest)) → k₀ = ki
  root_wide : ∀ {slots}, t.heap.store t.root = some (.inner slots) → 2 ≤ slots.length

variable {m : K → Option V} {G : Plan K BlkAddress} {κ : K}

/-- The first slot of a cell on the left edge, and where a slot's child starts. -/
theorem Inv.first_key (h : t.Inv capacity m G κ) {p c : BlkAddress} {sp : Span K}
    {slots rest : List (K × BlkAddress)} {ki k₀ : K} {c₀ : BlkAddress} (hG : G p = some sp)
    (hE : t.heap.store p = some (.inner slots)) (hm : (ki, c) ∈ slots)
    (hEc : t.heap.store c = some (.inner ((k₀, c₀) :: rest))) : k₀ = ki := by
  have hin := h.tree.innerOk hG hE
  obtain ⟨xs, ys, hslots⟩ := List.append_of_mem hm
  subst hslots
  obtain ⟨sc, hc, -⟩ := h.tree.child hG hE hm
  have hinc := h.tree.innerOk hc hEc
  -- where the child starts: at its slot's key, or at the row's lower end
  have hlo : sc.lo = (if xs = [] then sp.lo else key ki) := by
    cases xs with
    | nil =>
        obtain ⟨hi', hc'⟩ := hin.covers.head_lo
        rw [hc] at hc'
        cases hc'
        simp
    | cons x xs =>
        have hcov := (covers_append (by simp)).1 hin.covers
        obtain ⟨hi', hc'⟩ := hcov.2.head_lo
        rw [hc] at hc'
        cases hc'
        simp
  rcases hinc.head with hbot | ⟨k', c', rest', heq, hlo'⟩
  · -- the left edge: all first keys are `κ`
    rw [hbot] at hlo
    by_cases hxs : xs = []
    · rw [if_pos hxs] at hlo
      subst hxs
      rw [h.edge _ _ _ _ _ hc hbot hEc]
      exact (h.edge _ _ _ _ _ hG hlo.symm hE).symm
    · rw [if_neg hxs] at hlo
      exact absurd hlo.symm (key_ne_bot ki)
  · have heq' := (List.cons.inj heq).1
    cases heq'
    rw [hlo'] at hlo
    by_cases hxs : xs = []
    · rw [if_pos hxs] at hlo
      subst hxs
      rcases hin.head with hbot | ⟨k', c', rest', heq, hlo''⟩
      · rw [hbot] at hlo
        exact absurd hlo (key_ne_bot k₀)
      · have heq' := (List.cons.inj heq).1
        cases heq'
        rw [hlo''] at hlo
        exact key_inj.1 hlo
    · rw [if_neg hxs] at hlo
      exact key_inj.1 hlo

/-- The invariant gives the structure. -/
theorem Inv.structureOk (h : t.Inv capacity m G κ) : t.StructureOk capacity := by
  refine ⟨h.tree.wellFormed, ?_, ?_, ?_, ?_⟩
  · intro n a node _ hn
    exact h.ok.size_le hn
  · intro n p xs ki c ys k hr hE hk
    obtain ⟨sp, hG, -⟩ := h.tree.reach_plan hr
    have hin := h.tree.innerOk hG hE
    have hm : (ki, c) ∈ xs ++ (ki, c) :: ys := by simp
    obtain ⟨sc, hc, -, hlo, -⟩ := h.tree.child hG hE hm
    refine ⟨h.tree.keyIn_ge hk hc (hin.low (ki, c) hm), fun s hs => ?_⟩
    refine key_lt_key.1 (h.edge.keyIn_lt h.tree hk hc (h.tree.hi_le_slots hG hE hc s hs) ?_)
    intro hbot
    -- the key of the left edge is the row's first key, and `s` comes after it
    rw [hbot] at hlo
    have hsort := sortedKeys_append.1 hin.sorted
    cases xs with
    | nil =>
        rw [← h.edge _ _ _ _ _ hG (le_bot_iff.1 hlo) hE]
        exact key_lt_key.2 ((sortedKeys_cons.1 hsort.2.1).1 s hs)
    | cons x xs =>
        obtain ⟨kx, cx⟩ := x
        rw [← h.edge _ _ _ _ _ hG (le_bot_iff.1 hlo) hE]
        exact key_lt_key.2 (hsort.2.2 (kx, cx) (by simp) s (List.mem_cons_of_mem _ hs))
  · intro n p slots ki c k₀ c₀ rest hr hE hm hEc
    obtain ⟨sp, hG, -⟩ := h.tree.reach_plan hr
    exact h.first_key hG hE hm hEc
  · intro slots hE
    obtain ⟨n, hn, rfl⟩ := Heap.store_inner hE
    exact h.root_wide hn

/-- The initial tree, one empty leaf. -/
theorem init_structureOk : (init : VanillaBPlusTree K V).StructureOk capacity := by
  have hE : (init : VanillaBPlusTree K V).heap.store 0 = some (.leaf [] none) := rfl
  refine ⟨wellFormed_single hE, ?_, ?_, ?_, ?_⟩
  · intro n a node hr hn
    rw [(hr.of_leaf hE).2] at hn
    cases hn
    exact Nat.zero_le _
  · intro n p xs ki c ys k hr h
    rw [(hr.of_leaf hE).2] at h
    cases hE.symm.trans h
  · intro n p slots ki c k₀ c₀ rest hr h
    rw [(hr.of_leaf hE).2] at h
    cases hE.symm.trans h
  · intro slots h
    cases hE.symm.trans h

/-- **The structure of the tree after every sequence of calls.** -/
theorem run_structureOk (hcap : 3 ≤ capacity) (cs : List (Call K V)) :
    ∃ t answers, (init : VanillaBPlusTree K V).run capacity cs = some (t, answers)
      ∧ t.StructureOk capacity := by
  cases isEmpty_or_nonempty K with
  | inl hK =>
      cases cs with
      | nil => exact ⟨init, [], rfl, init_structureOk⟩
      | cons c cs => cases c <;> exact hK.elim ‹K›
  | inr hK =>
      obtain ⟨κ⟩ := hK
      obtain ⟨t, answers, G, κ', hrun, hinv, -⟩ := run_inv hcap cs (init_inv κ)
      exact ⟨t, answers, hrun, hinv.structureOk⟩

/-- Four insertions and a deletion at the smallest capacity: the root is inner. -/
theorem run_structureOk_three :
    3 ≤ 3 ∧ ∃ t answers, (init : VanillaBPlusTree Nat Nat).run 3
        [.insert 1 10, .insert 2 20, .insert 3 30, .insert 4 40, .deleteKey 1] = some (t, answers)
      ∧ t.StructureOk 3 :=
  ⟨le_rfl, run_structureOk (show 3 ≤ 3 from le_rfl) _⟩

end VanillaBPlusTree

end NvmTree
