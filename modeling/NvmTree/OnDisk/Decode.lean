/-
  NvmTree.OnDisk.Decode — the tree that is decoded from the root.

  `decode` follows the child addresses from the root and forgets them.  It gives the
  same tree in memory and over the block store.

  Main results:
    * `decode_of_plan` — a tree can be decoded.
    * `decode_mirror` — the store decodes to what the heap decodes to.
    * `DiskTree.run_refines` — both trees after every sequence of calls.
-/
import NvmTree.OnDisk.Refine

namespace NvmTree

open RangeTree

/-- A B+-tree without addresses. -/
inductive DecodedTree (K V : Type*) where
  | leaf (entries : List (K × V))
  | inner (children : List (K × DecodedTree K V))

variable {K V : Type*}

/-- The tree below `a`, where `read` gives the node at an address. -/
def decode (read : BlkAddress → Option (Node K V)) : Nat → BlkAddress → Option (DecodedTree K V)
  | 0, _ => none
  | fuel + 1, a =>
      match read a with
      | none => none
      | some (.leaf n) => some (.leaf n.entries)
      | some (.inner n) =>
          (n.slots.mapM (fun s => (decode read fuel s.2).map (fun t => (s.1, t)))).map .inner

/-- The tree decoded from the root, in memory. -/
def VanillaBPlusTree.decode (t : VanillaBPlusTree K V) : Option (DecodedTree K V) :=
  NvmTree.decode t.heap.cells t.depth t.root

/-- The tree decoded from the root, from the blocks. -/
def DiskTree.decode (t : DiskTree K V) : Option (DecodedTree K V) :=
  NvmTree.decode t.disk.get t.depth t.root

/-! ## §1. Decoding. -/

/-- `mapM` succeeds where the function does. -/
theorem mapM_isSome {α β : Type*} {f : α → Option β} :
    ∀ {l : List α}, (∀ x ∈ l, ∃ y, f x = some y) → ∃ ys, l.mapM f = some ys
  | [], _ => ⟨[], rfl⟩
  | x :: l, h => by
      obtain ⟨y, hy⟩ := h x List.mem_cons_self
      obtain ⟨ys, hys⟩ := mapM_isSome (fun x hx => h x (List.mem_cons_of_mem _ hx))
      exact ⟨y :: ys, by simp [hy, hys]⟩

/-- `mapM` over renamed elements. -/
theorem mapM_rename {α α' β : Type*} {f : α → Option β} {f' : α' → Option β} {r : α → α'} :
    ∀ {l : List α} {ys : List β}, (∀ x ∈ l, ∀ y, f x = some y → f' (r x) = some y) →
      l.mapM f = some ys → (l.map r).mapM f' = some ys
  | [], ys, _, h => h
  | x :: l, ys, hr, h => by
      simp only [List.mapM_cons, Option.bind_eq_bind, Option.bind_eq_some_iff, Option.pure_def,
        Option.some.injEq] at h
      obtain ⟨y, hy, ys', hys', rfl⟩ := h
      have htail := mapM_rename (fun x hx => hr x (List.mem_cons_of_mem _ hx)) hys'
      simp [hr x List.mem_cons_self y hy, htail]

variable [LinearOrder K] {capacity : Nat} {pick : List BlkAddress → List BlkAddress}
  {ρ : BlkAddress → BlkAddress} {h : Heap K V} {d : Disk K V} {G : Plan K BlkAddress}
  {row : List (K × BlkAddress)} {depth : Nat}

/-- **A tree can be decoded** from any of its nodes. -/
theorem decode_of_plan (ht : Tree h.store G row depth) :
    ∀ (fuel : Nat) {a : BlkAddress} {sp : Span K}, sp.level ≤ fuel → G a = some sp →
      ∃ T, decode h.cells fuel a = some T := by
  intro fuel
  induction fuel with
  | zero =>
      intro a sp hfuel hG
      have := ht.level_pos hG
      omega
  | succ fuel ih =>
      intro a sp hfuel hG
      obtain ⟨n, hn, hE⟩ := Heap.cell_of_plan ht hG
      cases n with
      | leaf n => exact ⟨.leaf n.entries, by simp only [decode, hn]⟩
      | inner n =>
          have hchildren : ∀ s ∈ n.slots, ∃ y,
              (decode h.cells fuel s.2).map (fun t => (s.1, t)) = some y := by
            intro s hs
            obtain ⟨sc, hc, hlc, -, -⟩ := ht.child hG hE hs
            obtain ⟨T, hT⟩ := ih (by omega) hc
            exact ⟨(s.1, T), by rw [hT]; rfl⟩
          obtain ⟨ys, hys⟩ := mapM_isSome hchildren
          exact ⟨.inner ys, by simp only [decode, hn, hys, Option.map_some]⟩

omit [LinearOrder K] in
/-- **The store decodes to what the heap decodes to.** -/
theorem decode_mirror (hm : Mirror capacity ρ h d []) :
    ∀ (fuel : Nat) {a : BlkAddress} {T : DecodedTree K V}, decode h.cells fuel a = some T →
      decode d.get fuel (ρ a) = some T := by
  intro fuel
  induction fuel with
  | zero => intro a T heq; cases heq
  | succ fuel ih =>
      intro a T heq
      rw [decode] at heq
      match hn : h.cells a with
      | none => simp [hn] at heq
      | some (.leaf n) =>
          simp only [hn] at heq
          rw [decode, (hm.get hn List.not_mem_nil).1]
          exact heq
      | some (.inner n) =>
          simp only [hn, Option.map_eq_some_iff] at heq
          obtain ⟨ys, hys, rfl⟩ := heq
          rw [decode, (hm.get hn List.not_mem_nil).1]
          simp only [Node.image, InnerNode.image, Option.map_eq_some_iff]
          refine ⟨ys, mapM_rename (fun s _ y hy => ?_) hys, rfl⟩
          obtain ⟨T, hT, rfl⟩ := Option.map_eq_some_iff.1 hy
          rw [Prod.map, ih hT]
          rfl

/-! ## §2. Both trees. -/

/-- **The tree over the store refines the tree in memory.**  After every sequence of
calls the answers are the same and so is the tree decoded from the root; and every
instance that was closed fitted a block, and was the content of the block at its
own address when it was dropped. -/
theorem DiskTree.run_refines (hcap : 3 ≤ capacity) (hpick : ∀ l, (pick l).Perm l)
    (cs : List (Call K V)) :
    ∃ t dt answers T,
      (VanillaBPlusTree.init : VanillaBPlusTree K V).run capacity cs = some (t, answers)
      ∧ (DiskTree.init pick : DiskTree K V).run pick capacity cs = some (dt, answers)
      ∧ t.decode = some T ∧ dt.decode = some T
      ∧ ∀ c ∈ dt.disk.closed, c.Faithful capacity := by
  obtain ⟨ρ₀, hM₀⟩ : ∃ ρ₀, Mirrors capacity ρ₀ (VanillaBPlusTree.init : VanillaBPlusTree K V)
      (init pick) := init_mirrors hpick
  have hboth : ∀ {ρ t T} {dt : DiskTree K V}, Mirrors capacity ρ t dt → t.decode = some T →
      dt.decode = some T := by
    intro ρ t T dt hM hT
    unfold DiskTree.decode
    rw [hM.root, hM.depth]
    exact decode_mirror hM.mirror t.depth hT
  cases isEmpty_or_nonempty K with
  | inl hK =>
      cases cs with
      | cons c cs => cases c <;> exact hK.elim ‹K›
      | nil =>
          have hT : (VanillaBPlusTree.init : VanillaBPlusTree K V).decode = some (.leaf []) := rfl
          exact ⟨_, _, [], .leaf [], rfl, rfl, hT, hboth hM₀ hT, hM₀.mirror.faithful⟩
  | inr hK =>
      obtain ⟨κ⟩ := hK
      obtain ⟨ρ, t, dt, answers, G, κ', hrun, hrund, hM, hinv, -⟩ := run_mirrors hcap hpick cs hM₀
        (VanillaBPlusTree.init_inv κ) init_planned
      obtain ⟨T, hT⟩ := decode_of_plan hinv.tree t.depth le_rfl hinv.plan_root
      exact ⟨t, dt, answers, T, hrun, hrund, hT, hboth hM hT, hM.mirror.faithful⟩

/-- A run that splits the root and merges the leaves again, so that an address is
given back and used anew. -/
theorem DiskTree.run_refines_three :
    3 ≤ 3 ∧ (∀ l : List BlkAddress, (id l).Perm l) ∧
    ∃ t dt answers T,
      (VanillaBPlusTree.init : VanillaBPlusTree Nat Nat).run 3
        [.insert 1 10, .insert 2 20, .insert 3 30, .insert 4 40, .deleteKey 4, .deleteKey 3,
          .insert 5 50, .insert 6 60, .search 5] = some (t, answers)
      ∧ (DiskTree.init id : DiskTree Nat Nat).run id 3
        [.insert 1 10, .insert 2 20, .insert 3 30, .insert 4 40, .deleteKey 4, .deleteKey 3,
          .insert 5 50, .insert 6 60, .search 5] = some (dt, answers)
      ∧ t.decode = some T ∧ dt.decode = some T
      ∧ ∀ c ∈ dt.disk.closed, c.Faithful 3 :=
  ⟨le_rfl, List.Perm.refl, DiskTree.run_refines le_rfl List.Perm.refl _⟩

end NvmTree
