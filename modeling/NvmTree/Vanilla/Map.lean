/-
  NvmTree.Vanilla.Map — the sequential tree is a map.

  `binding cs k` is what a sequence of calls leaves bound to `k`, read off the
  calls alone: the value of the last `insert` of `k`, unless a `delete_key` of
  `k` came after it.

  Main results:
    * `search_spec` — a search returns what the tree holds.
    * `run_inv` — every sequence of calls returns, with the answers of a map.
    * `run_is_map` — the answers are those of `binding`.
-/
import Mathlib.Data.List.Induction
import NvmTree.Vanilla.Delete

namespace NvmTree

open RangeTree

namespace VanillaBPlusTree

variable {K V : Type*} [LinearOrder K] {capacity : Nat} {t : VanillaBPlusTree K V}
  {m : K → Option V} {G : Plan K BlkAddress} {κ : K}

/-! ## §1. Search. -/

/-- **`search` from any node of a tree**, by induction over the levels. -/
theorem search_spec {h : Heap K V} {row : List (K × BlkAddress)} {depth : Nat} {k : K}
    (ht : Tree h.store G row depth) (hm : Represents h.store G m) :
    ∀ (fuel : Nat) {a : BlkAddress} {sp : Span K}, sp.level ≤ fuel → G a = some sp → sp.Has k →
      Node.search fuel h a k = some (m k) := by
  intro fuel
  induction fuel with
  | zero =>
      intro a sp hfuel hG
      have := ht.level_pos hG
      omega
  | succ fuel ih =>
      intro a sp hfuel hG hk
      obtain ⟨n, hn, hE⟩ := Heap.cell_of_plan ht hG
      cases n with
      | leaf n =>
          have hleaf := ht.leafOk hG hE
          simp only [Node.search, hn, Option.some.injEq]
          refine Option.ext (fun v => ?_)
          rw [LeafNode.search_eq_some hleaf.sorted, hm k v]
          exact (ht.holds_iff hG hE hk).symm
      | inner n =>
          have hin := ht.innerOk hG hE
          rcases InnerNode.locateChildIndex_cases k hin.sorted with ⟨hidx, hbelow⟩ | ⟨xs, ki, c, ys,
            hslots, hidx, hki, hys⟩
          · -- below every slot: nowhere in the tree
            have hnone : m k = none := by
              cases hmk : m k with
              | none => rfl
              | some v =>
                  refine (ht.not_holds_of_below sp.level rfl hG hE hk ?_ ((hm k v).1 hmk)).elim
                  intro x hx
                  obtain ⟨s, hs, rfl⟩ := List.mem_map.1 hx
                  exact hbelow s hs
            simp only [Node.search, hn, hidx, hnone]
            rfl
          · have hE' : h.store a = some (.inner (xs ++ (ki, c) :: ys)) := by
              rw [hE, Node.shape, hslots]
            obtain ⟨sc, hc, hlc, hkc⟩ := ht.locate hG hE' hk (fun _ => hki) hys
            have hneg : ¬ n.locateChildIndex k < 0 := by rw [hidx]; omega
            have hpos : n.slots[(n.locateChildIndex k).toNat]? = some (ki, c) := by
              rw [hidx, hslots]; exact ListSplit.getElem?_at
            simp only [Node.search, hn, hneg, if_false, hpos]
            exact ih (by omega) hc hkc

theorem Inv.search_eq (h : t.Inv capacity m G κ) (k : K) : t.search k = some (m k) :=
  search_spec h.tree h.map t.depth le_rfl h.plan_root ⟨bot_le, key_lt_top k⟩

/-! ## §2. Sequences of calls, against a map. -/

/-- What a call does to a map. -/
def applyCall (m : K → Option V) : Call K V → K → Option V
  | .insert k v => Function.update m k (some v)
  | .deleteKey k => Function.update m k none
  | .search _ => m

/-- What a map answers. -/
def mapAnswer (m : K → Option V) : Call K V → Answer V
  | .insert _ _ => .inserted
  | .deleteKey k => .deleted (m k).isSome
  | .search k => .searched (m k)

theorem two_le_underflowBound (hcap : 3 ≤ capacity) : 2 ≤ underflowBound capacity := by
  unfold underflowBound
  omega

/-- One call keeps the invariant, answers as the map does and leaks no object. -/
theorem call_planned (hcap : 3 ≤ capacity) (h : t.Inv capacity m G κ) (c : Call K V) :
    ∃ t' G' κ', t.call capacity c = some (t', mapAnswer m c)
      ∧ t'.Inv capacity (applyCall m c) G' κ' ∧ (t.heap.Planned G → t'.heap.Planned G') := by
  cases c with
  | insert k v =>
      obtain ⟨t', G', κ', heq, hinv, hplan⟩ := insert_planned (by omega) h k v
      exact ⟨t', G', κ', by simp [call, heq, mapAnswer], hinv, hplan⟩
  | deleteKey k =>
      obtain ⟨t', G', κ', heq, hinv, hplan⟩ := deleteKey_planned (two_le_underflowBound hcap) h k
      exact ⟨t', G', κ', by simp [call, heq, mapAnswer], hinv, hplan⟩
  | search k => exact ⟨t, G, κ, by simp [call, h.search_eq k, mapAnswer], h, id⟩

theorem call_inv (hcap : 3 ≤ capacity) (h : t.Inv capacity m G κ) (c : Call K V) :
    ∃ t' G' κ', t.call capacity c = some (t', mapAnswer m c)
      ∧ t'.Inv capacity (applyCall m c) G' κ' := by
  obtain ⟨t', G', κ', heq, hinv, -⟩ := call_planned hcap h c
  exact ⟨t', G', κ', heq, hinv⟩

/-- **Every sequence of calls returns**, and its answers are those of the map
that the calls build up. -/
theorem run_inv (hcap : 3 ≤ capacity) (cs : List (Call K V)) :
    ∀ {t : VanillaBPlusTree K V} {m : K → Option V} {G : Plan K BlkAddress} {κ : K},
      t.Inv capacity m G κ →
      ∃ t' answers G' κ', t.run capacity cs = some (t', answers)
        ∧ t'.Inv capacity (cs.foldl applyCall m) G' κ' ∧ answers.length = cs.length
        ∧ ∀ i c, cs[i]? = some c →
            answers[i]? = some (mapAnswer ((cs.take i).foldl applyCall m) c) := by
  induction cs with
  | nil =>
      intro t m G κ h
      exact ⟨t, [], G, κ, rfl, h, rfl, fun i c hc => by simp at hc⟩
  | cons c cs ih =>
      intro t m G κ h
      obtain ⟨t₁, G₁, κ₁, heq, h₁⟩ := call_inv hcap h c
      obtain ⟨t', answers, G', κ', hrun, hinv, hlen, hans⟩ := ih h₁
      refine ⟨t', mapAnswer m c :: answers, G', κ', by simp [run, heq, hrun], hinv,
        by simp [hlen], ?_⟩
      intro i c' hc'
      cases i with
      | zero =>
          have : c = c' := by simpa using hc'
          subst this
          simp
      | succ i =>
          have hi := hans i c' (by simpa using hc')
          simpa using hi

omit [LinearOrder K] in
/-- The one object of a new tree. -/
theorem cells_init {a : BlkAddress} {n : Node K V}
    (hn : (init : VanillaBPlusTree K V).heap.cells a = some n) :
    a = 0 ∧ n = .leaf { LeafNode.new 0 with modified := true } := by
  by_cases ha : a = 0
  · subst ha
    exact ⟨rfl, (Option.some.inj hn).symm⟩
  · simp [init, Heap.alloc, Heap.empty, ha] at hn

omit [LinearOrder K] in
theorem init_ok : (init : VanillaBPlusTree K V).heap.Ok capacity := by
  refine ⟨?_, ?_, ?_⟩
  · intro a n hn
    obtain ⟨rfl, rfl⟩ := cells_init hn
    rfl
  · intro a n hn
    obtain ⟨rfl, rfl⟩ := cells_init hn
    exact Nat.one_pos
  · intro a n hn
    obtain ⟨rfl, rfl⟩ := cells_init hn
    exact Nat.zero_le _

/-- `init` builds the tree of one empty leaf. -/
theorem init_inv (κ : K) :
    (init : VanillaBPlusTree K V).Inv capacity (fun _ => none) (singlePlan 0) κ := by
  have hE : (init : VanillaBPlusTree K V).heap.store 0 = some (.leaf [] none) := rfl
  refine ⟨Tree.single hE κ, init_ok, ?_, represents_single hE, ?_⟩
  · intro x sx k c rest hx hlo hEx
    obtain ⟨rfl, -⟩ := singlePlan_eq.1 hx
    rw [hE] at hEx
    cases hEx
  · intro n hn
    obtain ⟨-, hn'⟩ := cells_init hn
    cases hn'

/-! ## §3. The map, read off the calls. -/

/-- The call changes the binding of `k`. -/
def touches (k : K) : Call K V → Bool
  | .insert k' _ => k' = k
  | .deleteKey k' => k' = k
  | .search _ => false

/-- The value a call binds its key to. -/
def bound : Call K V → Option V
  | .insert _ v => some v
  | _ => none

/-- What the calls leave bound to `k`: the last call that inserts or deletes `k`
decides. -/
def binding (cs : List (Call K V)) (k : K) : Option V :=
  (cs.reverse.find? (touches k)).bind bound

/-- The answer to a call after the calls `before`. -/
def expected (before : List (Call K V)) : Call K V → Answer V := mapAnswer (binding before)

/-- The map the calls build up is the one read off them. -/
theorem foldl_eq_binding (cs : List (Call K V)) :
    cs.foldl applyCall (fun _ => none) = binding cs := by
  induction cs using List.reverseRecOn with
  | nil => rfl
  | append_singleton cs c ih =>
      rw [List.foldl_append, ih]
      funext k
      have hstep : binding (cs ++ [c]) k
          = if touches k c then bound c else binding cs k := by
        unfold binding
        rw [List.reverse_append, List.reverse_singleton, List.singleton_append, List.find?_cons]
        cases touches k c <;> rfl
      rw [hstep]
      cases c with
      | insert k' v =>
          by_cases hk : k' = k
          · subst hk; simp [applyCall, touches, bound]
          · simp [applyCall, touches, hk, Function.update_of_ne (Ne.symm hk)]
      | deleteKey k' =>
          by_cases hk : k' = k
          · subst hk; simp [applyCall, touches, bound]
          · simp [applyCall, touches, hk, Function.update_of_ne (Ne.symm hk)]
      | search k' => simp [applyCall, touches]

/-- A call that does not touch `k` leaves its binding alone. -/
theorem applyCall_untouched {c : Call K V} {k : K} (h : touches k c = false) :
    applyCall m c k = m k := by
  cases c with
  | insert k' v =>
      have hk : k' ≠ k := by simpa [touches] using h
      exact Function.update_of_ne hk.symm _ _
  | deleteKey k' =>
      have hk : k' ≠ k := by simpa [touches] using h
      exact Function.update_of_ne hk.symm _ _
  | search k' => rfl

/-- **The sequential tree is a map.**  From `init`, every sequence of calls
returns; each answer is the one the calls before it determine, a search of any
key then finds what the calls left bound to it, and a further call changes the
binding of no other key. -/
theorem run_is_map (hcap : 3 ≤ capacity) (cs : List (Call K V)) :
    ∃ t answers, (init : VanillaBPlusTree K V).run capacity cs = some (t, answers)
      ∧ answers.length = cs.length
      ∧ (∀ i c, cs[i]? = some c → answers[i]? = some (expected (cs.take i) c))
      ∧ (∀ k, t.search k = some (binding cs k))
      ∧ ∀ c, ∃ t' answer, t.call capacity c = some (t', answer)
          ∧ ∀ k, touches k c = false → t'.search k = t.search k := by
  cases isEmpty_or_nonempty K with
  | inl hK =>
      -- without keys there is no call
      have hnone : ∀ c : Call K V, False := by
        intro c
        cases c <;> exact hK.elim ‹K›
      cases cs with
      | nil =>
          exact ⟨init, [], rfl, rfl, fun i c hc => by simp at hc, fun k => hK.elim k,
            fun c => (hnone c).elim⟩
      | cons c cs => exact (hnone c).elim
  | inr hK =>
      obtain ⟨κ⟩ := hK
      obtain ⟨t, answers, G, κ', hrun, hinv, hlen, hans⟩ := run_inv hcap cs (init_inv κ)
      refine ⟨t, answers, hrun, hlen, ?_, ?_, ?_⟩
      · intro i c hc
        rw [hans i c hc, foldl_eq_binding]
        rfl
      · intro k
        rw [hinv.search_eq k, foldl_eq_binding]
      · intro c
        obtain ⟨t', G', κ'', hcall, hinv'⟩ := call_inv hcap hinv c
        refine ⟨t', _, hcall, fun k hk => ?_⟩
        rw [hinv'.search_eq k, hinv.search_eq k, applyCall_untouched hk]

/-- A run at the smallest capacity: four insertions split the root, and the
search after a deletion finds its key. -/
theorem run_is_map_three :
    3 ≤ 3 ∧ ∃ t answers, (init : VanillaBPlusTree Nat Nat).run 3
        [.insert 1 10, .insert 2 20, .insert 3 30, .insert 4 40, .deleteKey 1, .search 2]
        = some (t, answers) ∧ answers[5]? = some (.searched (some 20)) := by
  refine ⟨le_rfl, ?_⟩
  obtain ⟨t, answers, h, -, hans, -⟩ := run_is_map (show 3 ≤ 3 from le_rfl)
    ([.insert 1 10, .insert 2 20, .insert 3 30, .insert 4 40, .deleteKey 1, .search 2] :
      List (Call Nat Nat))
  exact ⟨t, answers, h, hans 5 (.search 2) rfl⟩

end VanillaBPlusTree

end NvmTree
