/-
  NvmTree.Vanilla.Occupancy — how full the nodes of the sequential tree are.

  A split cuts a full node at `CAPACITY / 2` and puts the new item into one of the
  halves; deletion keeps nodes at `UNDERFLOW_BOUND` = `(CAPACITY + 1) / 2` or above.
  For an even `CAPACITY` the two agree.  For an odd one the left half of a split is
  below the bound whenever the new item goes to the right.

  Main results:
    * `Node.insert_occupied`, `Node.delete_occupied` — insertion and deletion from
      any node of a tree.
    * `run_minimum` — for an even `CAPACITY` every node but the root is at or above
      the bound after every sequence of calls.
    * `run_short` — four insertions at `CAPACITY` 3.
-/
import NvmTree.Vanilla.Balance
import NvmTree.Vanilla.Structure

namespace NvmTree

open RangeTree

variable {K V : Type*} [LinearOrder K] {capacity : Nat}

/-- Every node is at or above the bound, except the `exempt` ones. -/
def Heap.Occupied (capacity : Nat) (h : Heap K V) (exempt : BlkAddress → Prop) : Prop :=
  ∀ {x n}, h.cells x = some n → ¬ exempt x → underflowBound capacity ≤ n.size

/-! ## §1. Splits. -/

theorem LeafNode.size_insert (n : LeafNode K V) (k : K) (v : V) :
    n.size ≤ (n.insert capacity k v).1.size := by
  unfold LeafNode.insert LeafNode.size
  simp only
  split
  · simp
  · split
    · exact le_rfl
    · exact List.length_le_length_insertIdx

/-- Half of an even capacity is the bound. -/
theorem underflowBound_even (heven : capacity % 2 = 0) : underflowBound capacity = capacity / 2 := by
  unfold underflowBound
  omega

/-- **A leaf** loses no entry when it is not split, and both halves of a split are at
or above the bound. -/
theorem LeafNode.insertWithSplit_occupied (heven : capacity % 2 = 0) (n : LeafNode K V)
    (hn : n.size ≤ capacity) (k : K) (v : V) (rep : BlkAddress) :
    (∀ l, n.insertWithSplitSupport capacity k v rep = (l, none) → n.size ≤ l.size)
      ∧ ∀ l r b, n.insertWithSplitSupport capacity k v rep = (l, some (r, b)) →
        underflowBound capacity ≤ l.size ∧ underflowBound capacity ≤ r.size := by
  unfold LeafNode.insertWithSplitSupport
  simp only
  split
  · refine ⟨fun l hl => ?_, fun l r b hl => by cases hl⟩
    cases hl
    simp [LeafNode.size]
  · rename_i position _
    split
    · refine ⟨fun l hl => ?_, fun l r b hl => by cases hl⟩
      cases hl
      exact List.length_le_length_insertIdx
    · rename_i hroom
      refine ⟨fun l hl => (by cases hl), fun l r b hl => ?_⟩
      have hfull : n.entries.length = capacity :=
        Nat.le_antisymm hn (Nat.not_lt.1 hroom)
      have hhalf := underflowBound_even heven
      -- both halves are at the bound before the new entry is added
      have hleft : (n.entries.take (n.entries.length - (capacity - capacity / 2))).length
          = underflowBound capacity := by
        rw [List.length_take, hhalf]
        omega
      have hright : ((n.entries.drop (capacity / 2)).take (capacity - capacity / 2)).length
          = underflowBound capacity := by
        rw [List.length_take, List.length_drop, hhalf]
        omega
      by_cases hfirst : position < capacity / 2
      · simp only [hfirst, if_true] at hl
        cases hl
        exact ⟨hleft.ge.trans (LeafNode.size_insert ⟨_, _, _, _⟩ k v), hright.ge⟩
      · simp only [hfirst, if_false] at hl
        cases hl
        exact ⟨hleft.ge, hright.ge.trans (LeafNode.size_insert ⟨_, _, _, _⟩ k v)⟩

/-- For an odd capacity the left half is below the bound whenever the new entry goes
to the right half. -/
theorem LeafNode.insertWithSplit_short (hodd : capacity % 2 = 1) (n : LeafNode K V)
    (hfull : n.size = capacity) {k : K} {position : Nat} (v : V) (rep : BlkAddress)
    (hnew : n.searchKeyPosition k = (false, position)) (hright : capacity / 2 ≤ position) :
    ∃ l r b, n.insertWithSplitSupport capacity k v rep = (l, some (r, b))
      ∧ l.size < underflowBound capacity := by
  have hpos : ({ n with modified := true } : LeafNode K V).searchKeyPosition k
      = (false, position) := hnew
  have hroom : ¬ ({ n with modified := true } : LeafNode K V).size < capacity := by
    have : ({ n with modified := true } : LeafNode K V).size = capacity := hfull
    omega
  have hsecond : ¬ position < capacity / 2 := by omega
  unfold LeafNode.insertWithSplitSupport
  simp only [hpos, hroom, hsecond, if_false]
  refine ⟨_, _, _, rfl, ?_⟩
  have hlen : n.entries.length = capacity := hfull
  simp only [LeafNode.size, List.length_take, underflowBound]
  omega

/-- **An inner node**: both halves of a split are at or above the bound. -/
theorem InnerNode.splitInsert_occupied (heven : capacity % 2 = 0) (n : InnerNode K)
    (hfull : n.size = capacity) (position : Nat) (c : BlkAddress) (b : K) (rep : BlkAddress) :
    underflowBound capacity ≤ (n.splitInsert capacity position c b rep).1.size
      ∧ underflowBound capacity ≤ (n.splitInsert capacity position c b rep).2.size := by
  have hhalf := underflowBound_even heven
  have hlen : n.slots.length = capacity := hfull
  have hleft : (n.slots.take (n.slots.length - (n.slots.length - capacity / 2))).length
      = underflowBound capacity := by
    rw [List.length_take, hhalf]
    omega
  have hright : (n.slots.drop (capacity / 2)).length = underflowBound capacity := by
    rw [List.length_drop, hhalf]
    omega
  unfold InnerNode.splitInsert
  simp only
  split
  · exact ⟨hleft.ge.trans List.length_le_length_insertIdx, hright.ge⟩
  · exact ⟨hleft.ge, hright.ge.trans List.length_le_length_insertIdx⟩

/-! ## §2. Insertion. -/

namespace Node

omit [LinearOrder K] in
theorem occupied_set {h : Heap K V} {exempt : BlkAddress → Prop} (ho : h.Occupied capacity exempt)
    {a : BlkAddress} {n : Node K V} (hn : ¬ exempt a → underflowBound capacity ≤ n.size) :
    (h.set a n).Occupied capacity exempt := by
  intro x n' hn' hx
  by_cases hxa : x = a
  · subst hxa
    have : n = n' := by simpa [Heap.set] using hn'
    exact this ▸ hn hx
  · exact ho (by simpa [Heap.set, hxa] using hn') hx

omit [LinearOrder K] in
theorem occupied_alloc {h : Heap K V} {exempt : BlkAddress → Prop}
    (ho : h.Occupied capacity exempt) {n : Node K V} (hn : underflowBound capacity ≤ n.size) :
    (h.alloc n).Occupied capacity exempt := by
  intro x n' hn' hx
  by_cases hxa : x = h.next
  · subst hxa
    have : n = n' := by simpa [Heap.alloc] using hn'
    exact this ▸ hn
  · exact ho (by simpa [Heap.alloc, hxa] using hn') hx

/-- What an insertion at `a` leaves: if the node was split, both halves are at or
above the bound, the left one at `a` also where `a` is exempt. -/
def InsertOccupied (capacity : Nat) (h : Heap K V) (exempt : BlkAddress → Prop) (a : BlkAddress)
    (split : Option (BlkAddress × K)) : Prop :=
  h.Occupied capacity exempt
    ∧ (split.isSome → ∀ n, h.cells a = some n → underflowBound capacity ≤ n.size)

variable {h h' : Heap K V} {exempt : BlkAddress → Prop} {a : BlkAddress}

omit [LinearOrder K] in
/-- Both halves of a split are put in place. -/
theorem occupied_halves (ho : h.Occupied capacity exempt) {l r : Node K V}
    (hl : underflowBound capacity ≤ l.size) (hr : underflowBound capacity ≤ r.size)
    (s : Option (BlkAddress × K)) :
    InsertOccupied capacity ((h.set a l).alloc r) exempt a s := by
  refine ⟨occupied_alloc (occupied_set ho (fun _ => hl)) hr, fun _ n hn => ?_⟩
  by_cases ha : a = h.next
  · have : r = n := by simpa [Heap.alloc, Heap.set, ha] using hn
    exact this ▸ hr
  · have : l = n := by simpa [Heap.alloc, Heap.set, ha] using hn
    exact this ▸ hl

theorem addSplitChild_occupied (heven : capacity % 2 = 0) {n : InnerNode K} {position : Nat}
    {c : BlkAddress} {b : K} {s : Option (BlkAddress × K)} (ho : h.Occupied capacity exempt)
    (hn : n.size ≤ capacity) (hocc : ¬ exempt a → underflowBound capacity ≤ n.size)
    (heq : addSplitChild capacity h a n position c b = some (h', s)) :
    InsertOccupied capacity h' exempt a s := by
  unfold addSplitChild at heq
  by_cases hroom : n.size < capacity
  · rw [if_pos hroom] at heq
    cases heq
    refine ⟨occupied_set ho (fun hx => ?_), fun hs => by simp at hs⟩
    exact (hocc hx).trans List.length_le_length_insertIdx
  · rw [if_neg hroom] at heq
    have hsizes := InnerNode.splitInsert_occupied heven n (by omega) position c b h.next
    simp only at heq
    split at heq
    · cases heq
    · cases heq
      exact occupied_halves (l := .inner _) (r := .inner _) ho hsizes.1 hsizes.2 _

/-- **`insert_with_split_support` keeps the nodes occupied.** -/
theorem insert_occupied (heven : capacity % 2 = 0) (k : K) (v : V) :
    ∀ (fuel : Nat) {h h' : Heap K V} {a : BlkAddress} {s : Option (BlkAddress × K)},
      (∀ {x n}, h.cells x = some n → n.size ≤ capacity) → h.Occupied capacity exempt →
      insertWithSplitSupport capacity fuel h a k v = some (h', s) →
      InsertOccupied capacity h' exempt a s := by
  intro fuel
  induction fuel with
  | zero => intro h h' a s _ _ heq; cases heq
  | succ fuel ih =>
      intro h h' a s hsize ho heq
      unfold insertWithSplitSupport at heq
      cases hcell : h.cells a with
      | none => simp only [hcell] at heq; cases heq
      | some node =>
          cases node with
          | leaf n =>
              have hn : n.size ≤ capacity := hsize hcell
              obtain ⟨hstay, hsplit⟩ := n.insertWithSplit_occupied heven hn k v h.next
              simp only [hcell] at heq
              split at heq
              · rename_i l hl
                cases heq
                refine ⟨occupied_set ho (fun hx => ?_), fun hs => by simp at hs⟩
                exact (ho hcell hx).trans (hstay l hl)
              · rename_i l r b hl
                cases heq
                obtain ⟨hleft, hright⟩ := hsplit l r b hl
                exact occupied_halves (l := .leaf _) (r := .leaf _) ho hleft hright _
          | inner n =>
              simp only [hcell] at heq
              -- `key_[0]` may be lowered first, which leaves the size
              set n' := if n.locateChildIndex k < 0 then n.setFirstKey k else n with hn'
              have hsame : n'.size = n.size := by
                rw [hn']
                split
                · simp [InnerNode.setFirstKey, InnerNode.size]
                · rfl
              have hn : n'.size ≤ capacity := hsame ▸ hsize hcell
              have hocc : ¬ exempt a → underflowBound capacity ≤ n'.size :=
                fun hx => hsame ▸ ho hcell hx
              have hsize' : ∀ {x m}, (h.set a (.inner n')).cells x = some m → m.size ≤ capacity := by
                intro x m hm
                by_cases hx : x = a
                · subst hx
                  have : Node.inner n' = m := by simpa [Heap.set] using hm
                  exact this ▸ hn
                · exact hsize (x := x) (by simpa [Heap.set, hx] using hm)
              split at heq
              · cases heq
              · rename_i slot c hslot
                have hrec : ∀ {h₁ s₁}, insertWithSplitSupport capacity fuel (h.set a (.inner n')) c k v
                    = some (h₁, s₁) → h₁.Occupied capacity exempt :=
                  fun hres => (ih hsize' (occupied_set ho (n := .inner n') hocc) hres).1
                split at heq
                · cases heq
                · rename_i h₁ hres
                  cases heq
                  exact ⟨hrec hres, fun hs => by simp at hs⟩
                · rename_i h₁ r b hres
                  exact addSplitChild_occupied heven (hrec hres) hn hocc heq

/-! ## §3. Deletion. -/

omit [LinearOrder K] in
/-- **Balancing** a node one below the bound with one at or above it. -/
theorem length_balanceEntries_ge {β : Type*} (hb : 2 ≤ underflowBound capacity)
    {l r : List (K × β)}
    (h : l.length + 1 = underflowBound capacity ∧ underflowBound capacity ≤ r.length
      ∨ r.length + 1 = underflowBound capacity ∧ underflowBound capacity ≤ l.length) :
    underflowBound capacity ≤ (balanceEntries capacity l r).1.length
      ∧ ((balanceEntries capacity l r).2.2.isSome →
        underflowBound capacity ≤ (balanceEntries capacity l r).2.1.length) := by
  rcases balanceEntries_cases (Nat.zero_lt_of_lt hb) l r with
    ⟨e, e', rest, rfl, -, hB, heq⟩ | ⟨init, e, rfl, -, -, hB, heq⟩ | ⟨-, heq⟩ <;>
    rw [heq] <;> simp only [List.length_append, List.length_cons, List.length_nil] at *
  · omega
  · omega
  · refine ⟨by omega, fun hs => by simp at hs⟩

omit [LinearOrder K] in
/-- `balance` on such nodes, in the heap. -/
theorem balance_occupied (hb : 2 ≤ underflowBound capacity) {lc rc : BlkAddress} {nl nr : Node K V}
    {boundary : Option K} (hl : h.cells lc = some nl) (hr : h.cells rc = some nr)
    (hsize : nl.size + 1 = underflowBound capacity ∧ underflowBound capacity ≤ nr.size
      ∨ nr.size + 1 = underflowBound capacity ∧ underflowBound capacity ≤ nl.size)
    (heq : balance capacity h lc rc = some (h', boundary)) :
    ∃ l r, h' = (h.set lc l).set rc r ∧ underflowBound capacity ≤ l.size
      ∧ (boundary.isSome → underflowBound capacity ≤ r.size) := by
  refine ⟨_, _, balance_heap hl hr heq, ?_⟩
  unfold balance at heq
  rw [hl, hr] at heq
  match nl, nr, heq with
  | .leaf l, .leaf r, heq =>
      cases heq
      exact length_balanceEntries_ge hb hsize
  | .inner l, .inner r, heq =>
      cases heq
      exact length_balanceEntries_ge hb hsize

omit [LinearOrder K] in
/-- The end of `InnerNode::delete_key`: the children are at or above the bound again,
and the node itself has at most one child less, of which the flag tells. -/
theorem rebalance_occupied (hb : 2 ≤ underflowBound capacity) {n : InnerNode K} {index : Nat}
    {c lc rc : BlkAddress} {nl nr : Node K V} {d u : Bool}
    (hbal : Balancing capacity h n index c lc rc nl nr)
    (ho : h.Occupied capacity (fun x => exempt x ∨ x = c)) (hlx : ¬ exempt lc) (hrx : ¬ exempt rc)
    (hchild : ∀ nc, h.cells c = some nc → underflowBound capacity ≤ nc.size + 1)
    (heq : rebalance capacity h a n index = some (h', d, u)) :
    h'.Occupied capacity (fun x => exempt x ∨ x = a)
      ∧ ∃ n', h'.cells a = some n' ∧ (n'.size = n.size
        ∨ n'.size + 1 = n.size ∧ d = true ∧ u = decide (n'.size < underflowBound capacity)) := by
  have hsizes : nl.size + 1 = underflowBound capacity ∧ underflowBound capacity ≤ nr.size
      ∨ nr.size + 1 = underflowBound capacity ∧ underflowBound capacity ≤ nl.size := by
    rcases hbal.child with ⟨rfl, hlt⟩ | ⟨rfl, hlt⟩
    · refine Or.inl ⟨?_, ho hbal.right (fun hx => hx.elim hrx hbal.ne.symm)⟩
      have := hchild nl hbal.left
      omega
    · refine Or.inr ⟨?_, ho hbal.left (fun hx => hx.elim hlx hbal.ne)⟩
      have := hchild nr hbal.right
      omega
  -- everything but the two children and the node is as it was
  have hrest : ∀ {x m}, h.cells x = some m → ¬ exempt x → x ≠ lc → x ≠ rc →
      underflowBound capacity ≤ m.size := by
    intro x m hm hx hxl hxr
    refine ho hm (fun hx' => hx'.elim hx ?_)
    rcases hbal.child with ⟨rfl, -⟩ | ⟨rfl, -⟩
    · exact hxl
    · exact hxr
  obtain ⟨kl, b, hleft, hright⟩ := hbal.getElem?
  unfold rebalance at heq
  simp only [hleft, hright] at heq
  split at heq
  · cases heq
  · rename_i h₂ boundary hres
    obtain ⟨l, r, rfl, hl, hr⟩ := balance_occupied hb hbal.left hbal.right hsizes hres
    cases heq
    refine ⟨?_, _, Function.update_self .., Or.inl ?_⟩
    · intro x m hm hx
      obtain ⟨hx, hxa⟩ := not_or.1 hx
      simp only [Heap.set, Function.update_of_ne hxa] at hm
      by_cases hxr : x = rc
      · subst hxr
        rw [Function.update_self] at hm
        cases hm
        exact hr rfl
      · rw [Function.update_of_ne hxr] at hm
        by_cases hxl : x = lc
        · subst hxl
          rw [Function.update_self] at hm
          cases hm
          exact hl
        · rw [Function.update_of_ne hxl] at hm
          exact hrest hm hx hxl hxr
    · simp [Node.size, InnerNode.setBoundary, InnerNode.size]
  · rename_i h₂ hres
    obtain ⟨l, r, rfl, hl, -⟩ := balance_occupied hb hbal.left hbal.right hsizes hres
    cases heq
    refine ⟨?_, _, Function.update_self .., Or.inr ⟨?_, rfl, rfl⟩⟩
    · intro x m hm hx
      obtain ⟨hx, hxa⟩ := not_or.1 hx
      simp only [Heap.set, Heap.free, Function.update_of_ne hxa] at hm
      by_cases hxr : x = rc
      · subst hxr
        rw [Function.update_self] at hm
        cases hm
      · rw [Function.update_of_ne hxr, Function.update_of_ne hxr] at hm
        by_cases hxl : x = lc
        · subst hxl
          rw [Function.update_self] at hm
          cases hm
          exact hl
        · rw [Function.update_of_ne hxl] at hm
          exact hrest hm hx hxl hxr
    · have hlt : index + 1 < n.slots.length := (List.getElem?_eq_some_iff.1 hright).1
      simp only [Node.size, InnerNode.removeChild, InnerNode.size, List.length_eraseIdx, hlt, if_true]
      omega

variable {G : Plan K BlkAddress} {row : List (K × BlkAddress)} {depth : Nat} {κ k : K}
  {m : K → Option V}

/-- What a deletion at `a` leaves: the nodes are occupied, `a` perhaps one below the
bound, and then the flag says so. -/
def DeleteOccupied (capacity : Nat) (h : Heap K V) (r a : BlkAddress) (deleted u : Bool) : Prop :=
  h.Occupied capacity (fun x => x = r ∨ x = a)
    ∧ (a ≠ r → ∀ n, h.cells a = some n → underflowBound capacity ≤ n.size
      ∨ deleted = true ∧ u = true ∧ underflowBound capacity ≤ n.size + 1)

/-- **`delete_key` keeps the nodes occupied**, from any node of a tree with two
children or more; `r` is exempt, on this level or above it. -/
theorem delete_occupied (hb : 2 ≤ underflowBound capacity)
    (hT : IsTree capacity h G row depth κ m) {r : BlkAddress} {sr : Span K} (hr : G r = some sr)
    (ho : h.Occupied capacity (· = r)) :
    ∀ (fuel : Nat) {a : BlkAddress} {sp : Span K} {u d u' : Bool} {h' : Heap K V},
      sp.level ≤ fuel → G a = some sp → sp.Has k → sp.level ≤ sr.level →
      (∀ {n}, h.cells a = some (.inner n) → 2 ≤ n.slots.length) →
      deleteKey capacity fuel h a k u = some (h', d, u') →
      DeleteOccupied capacity h' r a d u' := by
  intro fuel
  induction fuel with
  | zero => intro a sp u d u' h' _ _ _ _ _ heq; cases heq
  | succ fuel ih =>
      intro a sp u d u' h' hfuel hG hk hlevel hwide heq
      obtain ⟨h₂, d₂, u₂, heq₂, hdel⟩ := delete_spec hb hT (fuel + 1) u hfuel hG hk
      rw [heq] at heq₂
      cases heq₂
      cases d with
      | false =>
          obtain ⟨rfl, rfl⟩ := hdel.same rfl
          exact ⟨fun hn hx => ho hn (not_or.1 hx).1, fun ha n hn => Or.inl (ho hn ha)⟩
      | true =>
          obtain ⟨node, hnode, hE⟩ := Heap.cell_of_plan hT.tree hG
          unfold deleteKey at heq
          cases node with
          | leaf n =>
              simp only [hnode] at heq
              rcases LeafNode.deleteKey_cases k capacity (hT.tree.leafOk hG hE).sorted u with
                ⟨v, -, hlen, hdk⟩ | ⟨-, hdk⟩
              · rw [hdk] at heq
                cases heq
                have ho' : h.Occupied capacity (fun x => x = r ∨ x = a) :=
                  fun hn hx => ho hn (not_or.1 hx).1
                refine ⟨occupied_set ho' (fun hx => absurd (Or.inr rfl) hx), fun ha n' hn' => ?_⟩
                have hn₀ : underflowBound capacity ≤ n.size := ho hnode ha
                simp only [Heap.set, Function.update_self, Option.some.injEq] at hn'
                subst hn'
                by_cases hlt : (eraseEntry k n.entries).length < underflowBound capacity
                · refine Or.inr ⟨rfl, decide_eq_true hlt, ?_⟩
                  show underflowBound capacity ≤ (eraseEntry k n.entries).length + 1
                  omega
                · exact Or.inl (Nat.not_lt.1 hlt)
              · rw [hdk] at heq
                cases heq
          | inner n =>
              simp only [hnode] at heq
              rcases InnerNode.locateChildIndex_cases k (hT.tree.innerOk hG hE).sorted with
                ⟨hidx, -⟩ | ⟨xs, ki, c, ys, hslots, hidx, hki, hys⟩
              · rw [if_pos (by rw [hidx]; decide)] at heq
                cases heq
              have hneg : ¬ n.locateChildIndex k < 0 := by rw [hidx]; omega
              have hpos : n.slots[(n.locateChildIndex k).toNat]? = some (ki, c) := by
                rw [hidx, hslots]; exact ListSplit.getElem?_at
              have hE' : h.store a = some (.inner (xs ++ (ki, c) :: ys)) := by
                rw [hE, Node.shape, hslots]
              obtain ⟨sc, hc, hlc, hkc⟩ := hT.tree.locate hG hE' hk (fun _ => hki) hys
              obtain ⟨h₁, d₁, u₁, heq₁, hdel₁⟩ := delete_spec hb hT fuel u (by omega) hc hkc
              have hcr : c ≠ r := by
                rintro rfl
                rw [hr] at hc
                cases hc
                omega
              have hcwide : ∀ {n'}, h.cells c = some (.inner n') → 2 ≤ n'.slots.length :=
                fun hn' => hb.trans (ho hn' hcr)
              obtain ⟨ho₁, hc₁⟩ := ih (by omega) hc hkc (by omega) hcwide heq₁
              have hcell : h₁.cells a = some (.inner n) := (hdel₁.frame hG (by omega)).trans hnode
              have hn₀ : a ≠ r → underflowBound capacity ≤ n.slots.length := fun ha => ho hnode ha
              simp only [hneg, if_false, hpos, heq₁] at heq
              cases d₁ with
              | false => simp at heq
              | true =>
                  have hstay : ¬ n.size < 2 := Nat.not_lt.2 (hwide hnode)
                  cases u₁ with
                  | false =>
                      -- the child is at or above the bound, and nothing is balanced
                      simp only [Bool.not_true, Bool.not_false, Bool.true_or, if_true,
                        Bool.false_eq_true, if_false] at heq
                      cases heq
                      refine ⟨?_, fun ha n' hn' => Or.inl ?_⟩
                      · intro x n' hn' hx
                        by_cases hxc : x = c
                        · subst hxc
                          exact (hc₁ hcr n' hn').resolve_right (by simp)
                        · exact ho₁ hn' (not_or.2 ⟨(not_or.1 hx).1, hxc⟩)
                      · rw [hcell] at hn'
                        cases hn'
                        exact hn₀ ha
                  | true =>
                      simp only [Bool.not_true, Bool.false_or, hstay, decide_false,
                        Bool.false_eq_true, if_false] at heq
                      obtain ⟨lc, rc, nl, nr, hbal, hapart⟩ :=
                        balancing hG hnode hslots hidx hlc hdel₁ (hwide hnode)
                      obtain ⟨hlr, hrr⟩ := hapart hr hlevel
                      obtain ⟨ho', n', hn', hsize⟩ := rebalance_occupied hb hbal ho₁ hlr hrr
                        (fun nc hnc => (hc₁ hcr nc hnc).elim (fun h => by omega) (fun h => h.2.2)) heq
                      refine ⟨ho', fun ha n'' hn'' => ?_⟩
                      rw [hn'] at hn''
                      cases hn''
                      have hn₁ : underflowBound capacity ≤ n.size := hn₀ ha
                      rcases hsize with hsize | ⟨hsize, -, hu⟩
                      · exact Or.inl (hsize ▸ hn₁)
                      · by_cases hlt : n'.size < underflowBound capacity
                        · exact Or.inr ⟨rfl, by rw [hu]; exact decide_eq_true hlt, by omega⟩
                        · exact Or.inl (Nat.not_lt.1 hlt)

end Node

/-! ## §4. Calls and runs. -/

namespace VanillaBPlusTree

/-- Every node but the root is at or above the bound. -/
def Occupied (capacity : Nat) (t : VanillaBPlusTree K V) : Prop :=
  t.heap.Occupied capacity (· = t.root)

variable {t t' : VanillaBPlusTree K V} {m : K → Option V} {G : Plan K BlkAddress} {κ : K}

theorem Inv.insert_occupied (heven : capacity % 2 = 0) (h : t.Inv capacity m G κ)
    (ho : t.Occupied capacity) {k : K} {v : V} (heq : t.insert capacity k v = some t') :
    t'.Occupied capacity := by
  unfold VanillaBPlusTree.insert at heq
  split at heq
  · cases heq
  · rename_i h' hres
    cases heq
    exact (Node.insert_occupied heven k v t.depth h.ok.size_le ho hres).1
  · rename_i h' right b hres
    obtain ⟨ho', hroot⟩ := Node.insert_occupied heven k v t.depth h.ok.size_le ho hres
    split at heq
    · split at heq
      · cases heq
        -- the old root is the left half of a split; the new one is exempt
        intro x n hn hx
        simp only [Heap.alloc, Function.update_of_ne hx] at hn
        by_cases hxr : x = t.root
        · subst hxr
          exact hroot rfl n hn
        · exact ho' hn hxr
      · cases heq
    · cases heq

theorem Inv.deleteKey_occupied (hb : 2 ≤ underflowBound capacity) (h : t.Inv capacity m G κ)
    (ho : t.Occupied capacity) {k : K} {found : Bool}
    (heq : t.deleteKey capacity k = some (t', found)) : t'.Occupied capacity := by
  have hT : IsTree capacity t.heap G [(κ, t.root)] t.depth κ m := ⟨h.tree, h.ok, h.edge, h.map⟩
  unfold VanillaBPlusTree.deleteKey at heq
  split at heq
  · cases heq
  · rename_i h' ret u hres
    obtain ⟨ho', -⟩ := Node.delete_occupied hb hT h.plan_root ho t.depth le_rfl h.plan_root
      ⟨bot_le, key_lt_top k⟩ le_rfl h.root_wide hres
    have hocc : h'.Occupied capacity (· = t.root) := fun hn hx => ho' hn (fun h => h.elim hx hx)
    split at heq
    · cases heq
      intro x n hn hx
      by_cases hxr : x = t.root
      · simp [Heap.free, hxr] at hn
      · exact hocc (by simpa [Heap.free, hxr] using hn) hxr
    · cases heq
      intro x n hn hx
      exact hocc hn hx

/-- One call keeps the nodes occupied. -/
theorem Inv.call_occupied (hcap : 3 ≤ capacity) (heven : capacity % 2 = 0)
    (h : t.Inv capacity m G κ) (ho : t.Occupied capacity) {c : Call K V} {r : Answer V}
    (heq : t.call capacity c = some (t', r)) : t'.Occupied capacity := by
  cases c with
  | insert k v =>
      obtain ⟨t₁, ht₁, hp⟩ := Option.map_eq_some_iff.1 heq
      cases hp
      exact h.insert_occupied heven ho ht₁
  | deleteKey k =>
      obtain ⟨p, hp₁, hp⟩ := Option.map_eq_some_iff.1 heq
      cases hp
      exact h.deleteKey_occupied (two_le_underflowBound hcap) ho hp₁
  | search k =>
      obtain ⟨p, -, hp⟩ := Option.map_eq_some_iff.1 heq
      cases hp
      exact ho

/-- A run keeps the nodes occupied, from any tree that satisfies the invariant. -/
theorem Inv.run_occupied (hcap : 3 ≤ capacity) (heven : capacity % 2 = 0) (cs : List (Call K V)) :
    ∀ {t : VanillaBPlusTree K V} {m : K → Option V} {G : Plan K BlkAddress} {κ : K},
      t.Inv capacity m G κ → t.Occupied capacity →
      ∃ t' answers, t.run capacity cs = some (t', answers) ∧ t'.Occupied capacity := by
  induction cs with
  | nil => intro t m G κ _ ho; exact ⟨t, [], rfl, ho⟩
  | cons c cs ih =>
      intro t m G κ h ho
      obtain ⟨t₁, G₁, κ₁, hcall, h₁⟩ := call_inv hcap h c
      obtain ⟨t', answers, hrun, ho'⟩ := ih h₁ (h.call_occupied hcap heven ho hcall)
      exact ⟨t', mapAnswer m c :: answers, by simp [run, hcall, hrun], ho'⟩

omit [LinearOrder K] in
theorem init_occupied : (init : VanillaBPlusTree K V).Occupied capacity := by
  intro x n hn hx
  have hx' : x ≠ 0 := hx
  simp [init, Heap.alloc, Heap.empty, hx'] at hn

/-- **Minimum occupancy** for an even `CAPACITY`: after every sequence of calls every
node other than the root is at or above `UNDERFLOW_BOUND`. -/
theorem run_minimum (hcap : 3 ≤ capacity) (heven : capacity % 2 = 0) (cs : List (Call K V)) :
    ∃ t answers, (init : VanillaBPlusTree K V).run capacity cs = some (t, answers)
      ∧ ∀ n a node, Reach t.heap.store t.root n a → a ≠ t.root → t.heap.cells a = some node →
        underflowBound capacity ≤ node.size := by
  cases isEmpty_or_nonempty K with
  | inl hK =>
      cases cs with
      | nil => exact ⟨init, [], rfl, fun n a node _ ha hn => init_occupied hn ha⟩
      | cons c cs => cases c <;> exact hK.elim ‹K›
  | inr hK =>
      obtain ⟨κ⟩ := hK
      obtain ⟨t, answers, hrun, ho⟩ := Inv.run_occupied hcap heven cs (init_inv κ) init_occupied
      exact ⟨t, answers, hrun, fun n a node _ ha hn => ho hn ha⟩

/-- Five insertions split the root at `CAPACITY` 4, and a deletion merges it again. -/
theorem run_minimum_four :
    ∃ t answers, (init : VanillaBPlusTree Nat Nat).run 4
        [.insert 1 10, .insert 2 20, .insert 3 30, .insert 4 40, .insert 5 50, .deleteKey 2]
          = some (t, answers)
      ∧ ∀ n a node, Reach t.heap.store t.root n a → a ≠ t.root → t.heap.cells a = some node →
        underflowBound 4 ≤ node.size :=
  run_minimum (by decide) (by decide) _

/-- **Four insertions at `CAPACITY` 3** leave the leaf `[1]`, below the bound 2. -/
theorem run_short :
    ∃ t answers, (init : VanillaBPlusTree Nat Nat).run 3
        [.insert 1 10, .insert 2 20, .insert 3 30, .insert 4 40] = some (t, answers)
      ∧ ∃ n a node, Reach t.heap.store t.root n a ∧ a ≠ t.root ∧ t.heap.cells a = some node
        ∧ node.size = 1 ∧ underflowBound 3 = 2 := by
  refine ⟨_, _, rfl, 2, 0, _, ?_, by decide, rfl, rfl, rfl⟩
  exact @Reach.child _ _ _ _ _ 1 2 0 [(1, 0), (2, 1)] 1 Reach.root rfl (by simp)

end VanillaBPlusTree

end NvmTree
