/-
  NvmTree.RangeTree.Walk — walking a tree from its root, without its plan.

  `Reach` follows slots from the root and counts the cells on the way, `KeyIn`
  collects the keys of a subtree, `leaves` is the in-order walk and
  `SiblingChain` follows the `next` pointers.  They read the store alone; the
  results say what they find in a store that has a plan.

  Main results:
    * `Tree.reach_plan`  — a walk of `n` cells ends `n - 1` levels below the root.
    * `Tree.keyIn_ge`, `Edge.keyIn_lt` — the keys of a subtree lie between its
      slot's key and the next one.
    * `Tree.chain`       — the `next` pointers visit the leaves in order.
    * `Tree.wellFormed`, `Tree.contents_iff` — a tree is well formed, and its
      entries are what a walk finds.
    * `Tree.scan_from` — from the leaf responsible for a key, the leaves to the
      right have the entries from there on, in order.
-/
import NvmTree.RangeTree.Edge

namespace RangeTree

variable {K V A : Type*}

/-! ## §1. What a walk sees. -/

/-- `a` is reached from `root` on a path of `n` cells. -/
inductive Reach (E : Store K V A) (root : A) : Nat → A → Prop
  | root : Reach E root 1 root
  | child {n : Nat} {p c : A} {slots : List (K × A)} {k : K} (hp : Reach E root n p)
      (hE : E p = some (.inner slots)) (hm : (k, c) ∈ slots) : Reach E root (n + 1) c

/-- `k` is shown by a cell of the subtree of `a`. -/
inductive KeyIn (E : Store K V A) (k : K) : A → Prop
  | here {a : A} {sh : Shape K V A} (hE : E a = some sh) (hk : k ∈ sh.keys) : KeyIn E k a
  | under {a c : A} {slots : List (K × A)} {kc : K} (hE : E a = some (.inner slots))
      (hm : (kc, c) ∈ slots) (hk : KeyIn E k c) : KeyIn E k a

/-- `k` is the key of an entry below `a`. -/
inductive EntryIn (E : Store K V A) (k : K) : A → Prop
  | here {a : A} {es : List (K × V)} {next : Option A} {v : V} (hE : E a = some (.leaf es next))
      (hk : (k, v) ∈ es) : EntryIn E k a
  | under {a c : A} {slots : List (K × A)} {kc : K} (hE : E a = some (.inner slots))
      (hm : (kc, c) ∈ slots) (hk : EntryIn E k c) : EntryIn E k a

/-- A walk from `root` finds the entry `(k, v)`. -/
def Contents (E : Store K V A) (root : A) (k : K) (v : V) : Prop :=
  ∃ n a es next, Reach E root n a ∧ E a = some (.leaf es next) ∧ (k, v) ∈ es

/-- The leaves below `a`, from left to right. -/
def leaves (E : Store K V A) : Nat → A → List A
  | 0, _ => []
  | fuel + 1, a =>
      match E a with
      | none => []
      | some (.leaf _ _) => [a]
      | some (.inner slots) => slots.flatMap (fun s => leaves E fuel s.2)

/-- Each cell of the list is a leaf whose `next` is the cell after it; the last
one has none. -/
def SiblingChain (E : Store K V A) : List A → Prop
  | [] => False
  | [a] => ∃ es, E a = some (.leaf es none)
  | a :: b :: rest => (∃ es, E a = some (.leaf es (some b))) ∧ SiblingChain E (b :: rest)

variable [LinearOrder K] {E : Store K V A} {G : Plan K A} {row : List (K × A)} {depth : Nat}

/-! ## §2. Paths and subtrees. -/

/-- A path of `n` cells ends at level `depth + 1 - n`. -/
theorem Tree.reach_plan {κ : K} {root : A} (h : Tree E G [(κ, root)] depth) {n : Nat} {a : A}
    (hr : Reach E root n a) : ∃ sp, G a = some sp ∧ sp.level + n = depth + 1 := by
  induction hr with
  | root => exact ⟨_, h.top.2, rfl⟩
  | child hp hE hm ih =>
      obtain ⟨sp, hG, hl⟩ := ih
      obtain ⟨sc, hc, hlc, -, -⟩ := h.child hG hE hm
      exact ⟨sc, hc, by omega⟩

/-- The keys of a subtree are at least a key that is low for its root. -/
theorem Tree.keyIn_ge (h : Tree E G row depth) {k : K} {a : A} (hk : KeyIn E k a) :
    ∀ {sp : Span K} {κ : K}, G a = some sp → LowKey E κ a → κ ≤ k := by
  induction hk with
  | here hE hk => exact fun _ hlow => hlow _ hE _ hk
  | @under a c slots kc hE hm _ ih =>
      intro sp κ hG hlow
      obtain ⟨sc, hc, -⟩ := h.child hG hE hm
      have h1 : κ ≤ kc := hlow _ hE kc (List.mem_map_of_mem (f := Prod.fst) hm)
      exact h1.trans (ih hc ((h.innerOk hG hE).low (kc, c) hm))

/-- The keys of a subtree are below any bound that its span and the key of the
left edge stay below. -/
theorem Edge.keyIn_lt {κ : K} (he : Edge E G κ) (h : Tree E G row depth) {k : K} {a : A}
    (hk : KeyIn E k a) : ∀ {sp : Span K} {B : Bound K}, G a = some sp → sp.hi ≤ B →
      (sp.lo = ⊥ → key κ < B) → key k < B := by
  induction hk with
  | @here a sh hE hk =>
      intro sp B hG hB hκ
      have hok := h.nodeOk hG hE
      cases sh with
      | leaf es next =>
          obtain ⟨e, hm, rfl⟩ := List.mem_map.1 hk
          exact (hok.inside e hm).2.trans_le hB
      | inner slots =>
          obtain ⟨⟨k₀, c₀⟩, rest, rfl⟩ := List.exists_cons_of_ne_nil hok.covers.ne_nil
          simp only [Shape.keys, List.map_cons, List.mem_cons] at hk
          rcases hk with rfl | hk
          · rcases hok.head with hbot | ⟨k', c', rest', heq, hlo⟩
            · rw [he _ _ _ _ _ hG hbot hE]
              exact hκ hbot
            · have heq' := (List.cons.inj heq).1
              cases heq'
              rw [← hlo]
              exact (h.lo_lt_hi hG).trans_le hB
          · obtain ⟨s, hs, rfl⟩ := List.mem_map.1 hk
            exact (hok.covers.tail_lt s hs).trans_le hB
  | under hE hm _ ih =>
      intro sp B hG hB hκ
      obtain ⟨sc, hc, -, hlo, hhi⟩ := h.child hG hE hm
      refine ih hc (hhi.trans hB) (fun hbot => hκ ?_)
      rw [hbot] at hlo
      exact le_bot_iff.1 hlo

/-! ## §3. The leaves in order. -/

/-- The cells of the list tile `[lo, hi)` at level `l`. -/
def Tiles (G : Plan K A) (l : Nat) : Bound K → Bound K → List A → Prop
  | _, _, [] => False
  | lo, hi, [a] => G a = some ⟨l, lo, hi⟩
  | lo, hi, a :: b :: rest => ∃ mid, G a = some ⟨l, lo, mid⟩ ∧ Tiles G l mid hi (b :: rest)

omit [LinearOrder K] in
theorem Tiles.append {l : Nat} {mid hi : Bound K} {ys : List A} (hys : Tiles G l mid hi ys) :
    ∀ {xs : List A} {lo : Bound K}, Tiles G l lo mid xs → Tiles G l lo hi (xs ++ ys)
  | [a], lo, hxs => by
      cases ys with
      | nil => exact hys.elim
      | cons b ys => exact ⟨mid, hxs, hys⟩
  | a :: b :: xs, lo, hxs => by
      obtain ⟨mid', h1, h2⟩ := hxs
      exact ⟨mid', h1, Tiles.append hys (show Tiles G l mid' mid (b :: xs) from h2)⟩

omit [LinearOrder K] in
/-- A tile is a cell of the plan. -/
theorem Tiles.plan {l : Nat} {hi : Bound K} {a : A} :
    ∀ {xs : List A} {lo : Bound K}, Tiles G l lo hi xs → a ∈ xs → ∃ sp, G a = some sp
  | [b], lo, ht, hm => by
      rw [List.mem_singleton.1 hm]
      exact ⟨_, ht⟩
  | b :: c :: rest, lo, ht, hm => by
      obtain ⟨mid, hb, hrest⟩ := ht
      rcases List.mem_cons.1 hm with rfl | hm
      · exact ⟨_, hb⟩
      · exact Tiles.plan hrest hm

/-- Walking a row of subtrees that tile their spans. -/
theorem Covers.tiles {l : Nat} {hi : Bound K} {f : A → List A}
    (hf : ∀ c lo' hi', G c = some ⟨l, lo', hi'⟩ → Tiles G 1 lo' hi' (f c)) :
    ∀ {slots : List (K × A)} {lo : Bound K}, Covers G l lo hi slots →
      Tiles G 1 lo hi (slots.flatMap (fun s => f s.2))
  | [(k, c)], lo, h => by simpa using hf c lo hi h.2
  | (k, c) :: (k', c') :: rest, lo, h => by
      rw [List.flatMap_cons]
      exact Tiles.append (Covers.tiles hf h.2.2) (hf c lo (key k') h.2.1)

/-- The leaves below a cell tile its span. -/
theorem Tree.leaves_tiles (h : Tree E G row depth) :
    ∀ (n : Nat) {a : A} {sp : Span K}, G a = some sp → sp.level = n →
      Tiles G 1 sp.lo sp.hi (leaves E n a) := by
  intro n
  induction n with
  | zero =>
      intro a sp hG hl
      have := h.level_pos hG
      omega
  | succ n ih =>
      intro a sp hG hl
      rcases h.cases hG with ⟨es, next, hE, hl'⟩ | ⟨slots, hE, hl'⟩
      · simp only [leaves, hE]
        show G a = some ⟨1, sp.lo, sp.hi⟩
        rw [hG, ← hl']
      · simp only [leaves, hE]
        have hc := (h.innerOk hG hE).covers
        refine Covers.tiles (fun c lo' hi' hc' => ih hc' ?_) hc
        simp only
        omega

/-- Leaves that tile up to the end of the key order are chained. -/
theorem Tree.tiles_chain (h : Tree E G row depth) :
    ∀ {xs : List A} {lo : Bound K}, Tiles G 1 lo ⊤ xs → SiblingChain E xs
  | [a], lo, ht => by
      obtain ⟨es, next, hE, -⟩ | ⟨slots, hE, hl⟩ := h.cases ht
      · have hnext := (h.leafOk ht hE).next
        cases next with
        | none => exact ⟨es, hE⟩
        | some b =>
            obtain ⟨hi', hb⟩ := hnext
            exact absurd (h.lo_lt_hi hb) not_top_lt
      · simp only at hl
        omega
  | a :: b :: rest, lo, ht => by
      obtain ⟨mid, ha, hrest⟩ := ht
      refine ⟨?_, h.tiles_chain hrest⟩
      -- the next leaf starts where `a` ends, as `b` does
      obtain ⟨hi', hb⟩ : ∃ hi', G b = some ⟨1, mid, hi'⟩ := by
        cases rest with
        | nil => exact ⟨⊤, hrest⟩
        | cons c rest =>
            obtain ⟨hi', hb, -⟩ := hrest
            exact ⟨hi', hb⟩
      obtain ⟨es, next, hE, -⟩ | ⟨slots, hE, hl⟩ := h.cases ha
      · have hnext := (h.leafOk ha hE).next
        cases next with
        | none =>
            have hmid : mid = ⊤ := hnext
            subst hmid
            exact absurd (h.lo_lt_hi hb) not_top_lt
        | some c =>
            obtain ⟨hi'', hc⟩ := hnext
            rw [h.eq_of_lo hc hb rfl rfl] at hE
            exact ⟨es, hE⟩
      · simp only at hl
        omega

/-- **The `next` pointers visit the leaves in order.** -/
theorem Tree.chain {κ : K} {root : A} (h : Tree E G [(κ, root)] depth) :
    SiblingChain E (leaves E depth root) := by
  have ht := h.leaves_tiles depth h.top.2 rfl
  exact h.tiles_chain ht

/-! ## §4. Well-formed stores. -/

/-- What a B+-tree of the given depth looks like from its root. -/
structure WellFormed (E : Store K V A) (root : A) (depth : Nat) : Prop where
  live : ∀ {n a}, Reach E root n a → ∃ sh, E a = some sh
  leaf_depth : ∀ {n a es next}, Reach E root n a → E a = some (.leaf es next) → n = depth
  inner_depth : ∀ {n a slots}, Reach E root n a → E a = some (.inner slots) →
    n < depth ∧ slots ≠ []
  leaf_sorted : ∀ {n a es next}, Reach E root n a → E a = some (.leaf es next) → SortedKeys es
  inner_sorted : ∀ {n a slots}, Reach E root n a → E a = some (.inner slots) → SortedKeys slots
  /-- The entries below a slot lie between its key and the next ones. -/
  bounds : ∀ {n p xs ki c ys k}, Reach E root n p → E p = some (.inner (xs ++ (ki, c) :: ys)) →
    EntryIn E k c → ki ≤ k ∧ ∀ s ∈ ys, k < s.1
  chain : SiblingChain E (leaves E depth root)

omit [LinearOrder K] in
theorem EntryIn.keyIn {k : K} {a : A} (h : EntryIn E k a) : KeyIn E k a := by
  induction h with
  | here hE hk => exact KeyIn.here hE (List.mem_map_of_mem (f := Prod.fst) hk)
  | under hE hm _ ih => exact KeyIn.under hE hm ih

theorem Tree.entryIn_lt (h : Tree E G row depth) {k : K} {a : A} (hk : EntryIn E k a) :
    ∀ {sp : Span K}, G a = some sp → key k < sp.hi := by
  induction hk with
  | here hE hk => exact fun hG => ((h.leafOk hG hE).inside _ hk).2
  | under hE hm _ ih =>
      intro sp hG
      obtain ⟨sc, hc, -, -, hhi⟩ := h.child hG hE hm
      exact (ih hc).trans_le hhi

/-- The slots after the slot of `c` are at or above the end of its span. -/
theorem Tree.hi_le_slots (h : Tree E G row depth) {p c : A} {sp sc : Span K} {ki : K}
    {xs ys : List (K × A)} (hG : G p = some sp) (hE : E p = some (.inner (xs ++ (ki, c) :: ys)))
    (hc : G c = some sc) : ∀ s ∈ ys, sc.hi ≤ key s.1 := by
  have hin := h.innerOk hG hE
  intro s hs
  cases ys with
  | nil => cases hs
  | cons t rest =>
      rw [hin.covers.next_key hc t rest rfl]
      rcases List.mem_cons.1 hs with rfl | hs
      · exact le_rfl
      · have hsort := (sortedKeys_cons.1 (sortedKeys_append.1 hin.sorted).2.1).2
        exact (key_lt_key.2 ((sortedKeys_cons.1 hsort).1 s hs)).le

/-- **A tree is well formed.** -/
theorem Tree.wellFormed {κ : K} {root : A} (h : Tree E G [(κ, root)] depth) :
    WellFormed E root depth := by
  refine ⟨?_, ?_, ?_, ?_, ?_, ?_, h.chain⟩
  · intro n a hr
    obtain ⟨sp, hG, -⟩ := h.reach_plan hr
    obtain ⟨sh, hE, -⟩ := h.node hG
    exact ⟨sh, hE⟩
  · intro n a es next hr hE
    obtain ⟨sp, hG, hl⟩ := h.reach_plan hr
    have := (h.leafOk hG hE).level
    omega
  · intro n a slots hr hE
    obtain ⟨sp, hG, hl⟩ := h.reach_plan hr
    have hin := h.innerOk hG hE
    have := hin.level
    exact ⟨by omega, hin.covers.ne_nil⟩
  · intro n a es next hr hE
    obtain ⟨sp, hG, -⟩ := h.reach_plan hr
    exact (h.leafOk hG hE).sorted
  · intro n a slots hr hE
    obtain ⟨sp, hG, -⟩ := h.reach_plan hr
    exact (h.innerOk hG hE).sorted
  · intro n p xs ki c ys k hr hE hk
    obtain ⟨sp, hG, -⟩ := h.reach_plan hr
    have hm : (ki, c) ∈ xs ++ (ki, c) :: ys := by simp
    obtain ⟨sc, hc, -⟩ := h.child hG hE hm
    refine ⟨h.keyIn_ge hk.keyIn hc ((h.innerOk hG hE).low (ki, c) hm), fun s hs => ?_⟩
    exact key_lt_key.1 ((h.entryIn_lt hk hc).trans_le (h.hi_le_slots hG hE hc s hs))

omit [LinearOrder K] in
/-- Below a leaf there is nothing. -/
theorem Reach.of_leaf {root : A} {es : List (K × V)} {next : Option A}
    (hE : E root = some (.leaf es next)) {n : Nat} {a : A} (hr : Reach E root n a) :
    n = 1 ∧ a = root := by
  induction hr with
  | root => exact ⟨rfl, rfl⟩
  | child hr hp hm ih =>
      rw [ih.2, hE] at hp
      cases hp

/-- One empty leaf is well formed, whatever the keys are. -/
theorem wellFormed_single {root : A} (hE : E root = some (.leaf [] none)) :
    WellFormed E root 1 := by
  have hleaf : ∀ {n a sh}, Reach E root n a → E a = some sh → sh = .leaf [] none := by
    intro n a sh hr hsh
    rw [(hr.of_leaf hE).2, hE] at hsh
    exact (Option.some.inj hsh).symm
  have hchain : SiblingChain E (leaves E 1 root) := by
    simp [leaves, hE, SiblingChain]
  refine ⟨?_, ?_, ?_, ?_, ?_, ?_, hchain⟩
  · exact fun hr => ⟨_, (hr.of_leaf hE).2 ▸ hE⟩
  · exact fun hr _ => (hr.of_leaf hE).1
  · exact fun hr h => nomatch hleaf hr h
  · intro n a es next hr h
    cases hleaf hr h
    exact List.Pairwise.nil
  · exact fun hr h => nomatch hleaf hr h
  · exact fun hr h => nomatch hleaf hr h

/-- A row that tiles an interval has a slot for each of its points. -/
theorem Covers.exists_at {l : Nat} {hi x : Bound K} (hx : x < hi) :
    ∀ {slots : List (K × A)} {lo : Bound K}, Covers G l lo hi slots → lo ≤ x →
      ∃ ki c lo' hi', (ki, c) ∈ slots ∧ G c = some ⟨l, lo', hi'⟩ ∧ lo' ≤ x ∧ x < hi'
  | [(ki, c)], lo, h, hlo => ⟨ki, c, lo, hi, by simp, h.2, hlo, hx⟩
  | (ki, c) :: (k', c') :: rest, lo, h, hlo => by
      by_cases hlt : x < key k'
      · exact ⟨ki, c, lo, key k', by simp, h.2.1, hlo, hlt⟩
      · obtain ⟨ki', c'', lo', hi', hm, hrest⟩ := Covers.exists_at hx h.2.2 (not_lt.1 hlt)
        exact ⟨ki', c'', lo', hi', List.mem_cons_of_mem _ hm, hrest⟩

/-- From a reached cell, the cell of any level below it that spans a point of its span
is reached. -/
theorem Tree.reach_at {κ : K} {root : A} (h : Tree E G [(κ, root)] depth) {x : Bound K}
    {l : Nat} (hl : 1 ≤ l) :
    ∀ (i : Nat) {n : Nat} {a : A} {sp : Span K}, Reach E root n a → G a = some sp →
      sp.level = l + i → sp.lo ≤ x → x < sp.hi →
      ∃ n' b sb, Reach E root n' b ∧ G b = some sb ∧ sb.level = l ∧ sb.lo ≤ x ∧ x < sb.hi := by
  intro i
  induction i with
  | zero => exact fun hr hG hli h1 h2 => ⟨_, _, _, hr, hG, hli, h1, h2⟩
  | succ i ih =>
      intro n a sp hr hG hli h1 h2
      rcases h.cases hG with ⟨es, next, hE, hl'⟩ | ⟨slots, hE, hl'⟩
      · omega
      · obtain ⟨ki, c, lo', hi', hm, hc, h1', h2'⟩ :=
          Covers.exists_at h2 (h.innerOk hG hE).covers h1
        refine ih (hr.child hE hm) hc ?_ h1' h2'
        simp only
        omega

/-- **Every cell of the plan is reached.** -/
theorem Tree.reach_of_plan {κ : K} {root : A} (h : Tree E G [(κ, root)] depth) {a : A}
    {sp : Span K} (hG : G a = some sp) : ∃ n, Reach E root n a := by
  have hle := h.level_le hG
  have hlt := h.lo_lt_hi hG
  obtain ⟨n, b, sb, hr, hb, hl, h1, h2⟩ := h.reach_at (h.level_pos hG) (depth - sp.level)
    Reach.root h.top.2 (by simp only; omega) (bot_le (a := sp.lo)) (hlt.trans_le le_top)
  -- the reached cell of that level is the one responsible for where `a` starts
  have hab : a = b := by
    by_contra hne
    rcases h.disjoint hG hb hl.symm hne with hd | hd
    · exact absurd hlt (not_lt.2 (hd.trans h1))
    · exact absurd h2 (not_lt.2 hd)
  exact ⟨n, hab ▸ hr⟩

/-- **A walk finds the entries the tree holds.** -/
theorem Tree.contents_iff {κ : K} {root : A} (h : Tree E G [(κ, root)] depth) {k : K} {v : V} :
    Contents E root k v ↔ Holds E G k v := by
  constructor
  · rintro ⟨n, a, es, next, hr, hE, hm⟩
    obtain ⟨sp, hG, -⟩ := h.reach_plan hr
    exact ⟨a, sp, es, next, hG, hE, hm⟩
  · rintro ⟨a, sp, es, next, hG, hE, hm⟩
    obtain ⟨n, hr⟩ := h.reach_of_plan hG
    exact ⟨n, a, es, next, hr, hE, hm⟩

/-! ## §5. The entries of a row of leaves. -/

/-- The entries of the listed leaves, one leaf after the other. -/
def entriesOf (E : Store K V A) (xs : List A) : List (K × V) :=
  xs.flatMap (fun a => match E a with
    | some (.leaf es _) => es
    | _ => [])

omit [LinearOrder K] in
theorem entriesOf_cons {a : A} {es : List (K × V)} {next : Option A} (xs : List A)
    (hE : E a = some (.leaf es next)) : entriesOf E (a :: xs) = es ++ entriesOf E xs := by
  simp [entriesOf, hE]

/-- Leaves that tile an interval have the entries of it, in order. -/
theorem Tree.tiles_entries (h : Tree E G row depth) {hi : Bound K} :
    ∀ {xs : List A} {lo : Bound K}, Tiles G 1 lo hi xs →
      SortedKeys (entriesOf E xs) ∧ (∀ e ∈ entriesOf E xs, lo ≤ key e.1)
        ∧ ∀ k v, Holds E G k v → lo ≤ key k → key k < hi → (k, v) ∈ entriesOf E xs
  | [a], lo, ht => by
      obtain ⟨es, next, hE, -⟩ | ⟨slots, hE, hl⟩ := h.cases ht
      · have hleaf := h.leafOk ht hE
        rw [entriesOf_cons [] hE, show entriesOf E ([] : List A) = [] from rfl, List.append_nil]
        exact ⟨hleaf.sorted, fun e he => (hleaf.inside e he).1,
          fun k v hv h1 h2 => (h.holds_iff ht hE ⟨h1, h2⟩).1 hv⟩
      · simp only at hl
        omega
  | a :: b :: rest, lo, ht => by
      obtain ⟨mid, ha, hrest⟩ := ht
      obtain ⟨ih1, ih2, ih3⟩ := h.tiles_entries hrest
      obtain ⟨es, next, hE, -⟩ | ⟨slots, hE, hl⟩ := h.cases ha
      · have hleaf := h.leafOk ha hE
        rw [entriesOf_cons _ hE]
        refine ⟨sortedKeys_append.2 ⟨hleaf.sorted, ih1, fun x hx y hy => ?_⟩, fun e he => ?_,
          fun k v hv h1 h2 => List.mem_append.2 ?_⟩
        · exact key_lt_key.1 ((hleaf.inside x hx).2.trans_le (ih2 y hy))
        · rcases List.mem_append.1 he with he | he
          · exact (hleaf.inside e he).1
          · exact (h.lo_lt_hi ha).le.trans (ih2 e he)
        · by_cases hk : key k < mid
          · exact Or.inl ((h.holds_iff ha hE ⟨h1, hk⟩).1 hv)
          · exact Or.inr (ih3 k v hv (not_lt.1 hk) h2)
      · simp only at hl
        omega

/-- The part of a tiling from the tile of a key on. -/
theorem Tiles.from_has {l : Nat} {hi : Bound K} {k : K} (hk : key k < hi) :
    ∀ {xs : List A} {lo : Bound K}, Tiles G l lo hi xs → lo ≤ key k →
      ∃ a ys lo' hi', Tiles G l lo' hi (a :: ys) ∧ G a = some ⟨l, lo', hi'⟩
        ∧ lo' ≤ key k ∧ key k < hi'
  | [a], lo, ht, hlo => ⟨a, [], lo, hi, ht, ht, hlo, hk⟩
  | a :: b :: rest, lo, ht, hlo => by
      obtain ⟨mid, ha, hrest⟩ := ht
      by_cases hmid : key k < mid
      · exact ⟨a, b :: rest, lo, mid, ⟨mid, ha, hrest⟩, ha, hlo, hmid⟩
      · exact Tiles.from_has hk hrest (not_lt.1 hmid)

/-- **From the leaf responsible for `k` on**, the sibling chain has the entries
of the tree from that leaf's lower end on, in order. -/
theorem Tree.scan_from {κ : K} {root : A} (h : Tree E G [(κ, root)] depth) {k : K} {a : A}
    {sp : Span K} (hG : G a = some sp) (hl : sp.level = 1) (hk : sp.Has k) :
    ∃ ys, SiblingChain E (a :: ys) ∧ SortedKeys (entriesOf E (a :: ys))
      ∧ (∀ e ∈ entriesOf E ys, k < e.1)
      ∧ ∀ k' v, k ≤ k' → ((k', v) ∈ entriesOf E (a :: ys) ↔ Holds E G k' v) := by
  obtain ⟨b, ys, lo, hi, ht, hb, h1, h2⟩ :=
    Tiles.from_has (key_lt_top k) (h.leaves_tiles depth h.top.2 rfl) bot_le
  have hab := h.eq_of_has hG hb hl hk ⟨h1, h2⟩
  subst hab
  obtain ⟨hs, -, hall⟩ := h.tiles_entries ht
  refine ⟨ys, h.tiles_chain ht, hs, fun e he => ?_, fun k' v hk' => ⟨fun hm => ?_, fun hv => ?_⟩⟩
  · cases ys with
    | nil => cases he
    | cons c ys =>
        obtain ⟨mid, ha, hrest⟩ := ht
        rw [hb] at ha
        cases ha
        exact key_lt_key.1 (h2.trans_le ((h.tiles_entries hrest).2.1 e he))
  · obtain ⟨c, hc, he⟩ := List.mem_flatMap.1 hm
    obtain ⟨sc, hGc⟩ := ht.plan hc
    rcases h.cases hGc with ⟨es, next, hE, -⟩ | ⟨slots, hE, -⟩
    · rw [hE] at he
      exact ⟨c, sc, es, next, hGc, hE, he⟩
    · rw [hE] at he
      cases he
  · exact hall k' v hv (h1.trans (key_le_key.2 hk')) (key_lt_top k')

end RangeTree
