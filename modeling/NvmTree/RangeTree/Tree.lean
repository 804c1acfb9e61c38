/-
  NvmTree.RangeTree.Tree — the tree invariant over a store and a plan.

  `Tree E G row depth` says that the cells the plan `G` names form one balanced
  search tree in the store `E`: the top row `row` tiles all keys at level `depth`
  (one slot for the root, two while a split root has no parent yet), cells of
  one level have disjoint spans, a leaf's entries are sorted and inside its span
  and its `next` cell starts where it ends, and an inner cell's slots tile its
  span one level below.  Width is no part of it.

  `Holds E G k v` is the meaning of the tree: some leaf has the entry `(k, v)`.

  Main results:
    * `Tree.eq_of_has` — at one level, one cell is responsible for a key.
    * `Tree.parent_unique`, `Tree.top_not_child` — a cell is in one row.
    * `Tree.holds_iff` — the responsible leaf decides whether a key is held.
    * `Tree.not_holds_of_below` — a key below everything in the cell that is
      responsible for it is held nowhere.
-/
import NvmTree.RangeTree.Basic

namespace RangeTree

variable {K V A : Type*} [LinearOrder K]

/-! ## §1. The invariant. -/

/-- The keys a cell shows: of its entries, or of its slots. -/
def Shape.keys : Shape K V A → List K
  | .leaf es _ => es.map Prod.fst
  | .inner slots => slots.map Prod.fst

/-- `k` is at most every key that cell `c` shows. -/
def LowKey (E : Store K V A) (k : K) (c : A) : Prop :=
  ∀ sh, E c = some sh → ∀ x ∈ sh.keys, k ≤ x

/-- The `next` pointer of a leaf that ends at `hi`. -/
def NextOk (G : Plan K A) (hi : Bound K) : Option A → Prop
  | none => hi = ⊤
  | some b => ∃ hi', G b = some ⟨1, hi, hi'⟩

structure LeafOk (G : Plan K A) (sp : Span K) (es : List (K × V)) (next : Option A) : Prop where
  level : sp.level = 1
  sorted : SortedKeys es
  inside : ∀ e ∈ es, sp.Has e.1
  next : NextOk G sp.hi next

structure InnerOk (E : Store K V A) (G : Plan K A) (sp : Span K) (slots : List (K × A)) :
    Prop where
  level : 2 ≤ sp.level
  sorted : SortedKeys slots
  covers : Covers G (sp.level - 1) sp.lo sp.hi slots
  /-- Away from the left edge, the first slot's key is where the span starts. -/
  head : sp.lo = ⊥ ∨ ∃ k c rest, slots = (k, c) :: rest ∧ sp.lo = key k
  /-- A slot's key is at most every key its child shows. -/
  low : ∀ s ∈ slots, LowKey E s.1 s.2

def NodeOk (E : Store K V A) (G : Plan K A) (sp : Span K) : Shape K V A → Prop
  | .leaf es next => LeafOk G sp es next
  | .inner slots => InnerOk E G sp slots

/-- **The tree invariant.** -/
structure Tree (E : Store K V A) (G : Plan K A) (row : List (K × A)) (depth : Nat) : Prop where
  top : Covers G depth ⊥ ⊤ row
  level_le : ∀ {a sp}, G a = some sp → sp.level ≤ depth
  lo_lt_hi : ∀ {a sp}, G a = some sp → sp.lo < sp.hi
  disjoint : ∀ {a b sa sb}, G a = some sa → G b = some sb → sa.level = sb.level → a ≠ b →
    sa.hi ≤ sb.lo ∨ sb.hi ≤ sa.lo
  node : ∀ {a sp}, G a = some sp → ∃ sh, E a = some sh ∧ NodeOk E G sp sh

/-- The tree holds the entry `(k, v)`. -/
def Holds (E : Store K V A) (G : Plan K A) (k : K) (v : V) : Prop :=
  ∃ a sp es next, G a = some sp ∧ E a = some (.leaf es next) ∧ (k, v) ∈ es

/-- `m` is the map the tree holds. -/
def Represents (E : Store K V A) (G : Plan K A) (m : K → Option V) : Prop :=
  ∀ k v, m k = some v ↔ Holds E G k v

/-! ## §2. Reading the invariant. -/

variable {E : Store K V A} {G : Plan K A} {row : List (K × A)} {depth : Nat}

theorem Tree.nodeOk (h : Tree E G row depth) {a : A} {sp : Span K} {sh : Shape K V A}
    (hG : G a = some sp) (hE : E a = some sh) : NodeOk E G sp sh := by
  obtain ⟨sh', hsh, hok⟩ := h.node hG
  rw [hE] at hsh
  cases hsh
  exact hok

theorem Tree.leafOk (h : Tree E G row depth) {a : A} {sp : Span K} {es : List (K × V)}
    {next : Option A} (hG : G a = some sp) (hE : E a = some (.leaf es next)) :
    LeafOk G sp es next := h.nodeOk hG hE

theorem Tree.innerOk (h : Tree E G row depth) {a : A} {sp : Span K} {slots : List (K × A)}
    (hG : G a = some sp) (hE : E a = some (.inner slots)) : InnerOk E G sp slots :=
  h.nodeOk hG hE

/-- A cell of the plan is a leaf at level 1 and an inner cell above. -/
theorem Tree.cases (h : Tree E G row depth) {a : A} {sp : Span K} (hG : G a = some sp) :
    (∃ es next, E a = some (.leaf es next) ∧ sp.level = 1)
      ∨ (∃ slots, E a = some (.inner slots) ∧ 2 ≤ sp.level) := by
  obtain ⟨sh, hE, hok⟩ := h.node hG
  cases sh with
  | leaf es next => exact Or.inl ⟨es, next, hE, hok.level⟩
  | inner slots => exact Or.inr ⟨slots, hE, hok.level⟩

theorem Tree.level_pos (h : Tree E G row depth) {a : A} {sp : Span K} (hG : G a = some sp) :
    1 ≤ sp.level := by
  rcases h.cases hG with ⟨_, _, _, hl⟩ | ⟨_, _, hl⟩ <;> omega

/-- **At one level, one cell is responsible for a key.** -/
theorem Tree.eq_of_has (h : Tree E G row depth) {a b : A} {sa sb : Span K} {k : K}
    (ha : G a = some sa) (hb : G b = some sb) (hl : sa.level = sb.level)
    (hka : sa.Has k) (hkb : sb.Has k) : a = b := by
  by_contra hne
  obtain ⟨ha1, ha2⟩ := hka
  obtain ⟨hb1, hb2⟩ := hkb
  rcases h.disjoint ha hb hl hne with hd | hd
  · exact absurd ha2 (not_lt.2 (hd.trans hb1))
  · exact absurd hb2 (not_lt.2 (hd.trans ha1))

/-- Two cells of one level that start at the same bound are the same. -/
theorem Tree.eq_of_lo (h : Tree E G row depth) {a b : A} {sa sb : Span K}
    (ha : G a = some sa) (hb : G b = some sb) (hl : sa.level = sb.level)
    (hlo : sa.lo = sb.lo) : a = b := by
  by_contra hne
  have h1 := h.lo_lt_hi ha
  have h2 := h.lo_lt_hi hb
  rcases h.disjoint ha hb hl hne with hd | hd
  · rw [hlo] at h1; exact absurd h1 (not_lt.2 hd)
  · rw [← hlo] at h2; exact absurd h2 (not_lt.2 hd)

/-- A child is one level down, inside its parent's span. -/
theorem Tree.child (h : Tree E G row depth) {p : A} {sp : Span K} {slots : List (K × A)}
    (hG : G p = some sp) (hE : E p = some (.inner slots)) {k : K} {c : A}
    (hm : (k, c) ∈ slots) :
    ∃ sc, G c = some sc ∧ sc.level + 1 = sp.level ∧ sp.lo ≤ sc.lo ∧ sc.hi ≤ sp.hi := by
  have hok := h.innerOk hG hE
  obtain ⟨lo', hi', hc, h1, -, h2⟩ := hok.covers.mem hm
  have := hok.level
  exact ⟨_, hc, by simp only; omega, h1, h2⟩

theorem Tree.child_ne (h : Tree E G row depth) {p : A} {sp : Span K} {slots : List (K × A)}
    (hG : G p = some sp) (hE : E p = some (.inner slots)) {k : K} {c : A}
    (hm : (k, c) ∈ slots) : c ≠ p := by
  rintro rfl
  obtain ⟨sc, hc, hl, -, -⟩ := h.child hG hE hm
  rw [hG] at hc
  cases hc
  omega

/-- **A cell has one parent.** -/
theorem Tree.parent_unique (h : Tree E G row depth) {p q a : A} {sp sq : Span K}
    {sl sl' : List (K × A)} {k k' : K} (hp : G p = some sp) (hq : G q = some sq)
    (hEp : E p = some (.inner sl)) (hEq : E q = some (.inner sl'))
    (hm : (k, a) ∈ sl) (hm' : (k', a) ∈ sl') : p = q := by
  obtain ⟨sa, ha, hl, h1, h2⟩ := h.child hp hEp hm
  obtain ⟨sa', ha', hl', h1', h2'⟩ := h.child hq hEq hm'
  rw [ha] at ha'
  cases ha'
  have hlt := h.lo_lt_hi ha
  by_contra hne
  rcases h.disjoint hp hq (by omega) hne with hd | hd
  · exact absurd hlt (not_lt.2 (h2.trans (hd.trans h1')))
  · exact absurd hlt (not_lt.2 (h2'.trans (hd.trans h1)))

/-- Two cells of one level that end at the same bound are the same. -/
theorem Tree.eq_of_hi (h : Tree E G row depth) {a b : A} {sa sb : Span K}
    (ha : G a = some sa) (hb : G b = some sb) (hl : sa.level = sb.level)
    (hhi : sa.hi = sb.hi) : a = b := by
  by_contra hne
  have h1 := h.lo_lt_hi ha
  have h2 := h.lo_lt_hi hb
  rcases h.disjoint ha hb hl hne with hd | hd
  · rw [← hhi] at h2; exact absurd h2 (not_lt.2 hd)
  · rw [hhi] at h1; exact absurd h1 (not_lt.2 hd)

/-- A cell of the top row is at level `depth`, so it is nobody's child. -/
theorem Tree.top_not_child (h : Tree E G row depth) {p a : A} {sp : Span K}
    {slots : List (K × A)} {k k' : K} (hG : G p = some sp) (hE : E p = some (.inner slots))
    (ha : (k, a) ∈ row) (hm : (k', a) ∈ slots) : False := by
  obtain ⟨sc, hc, hl, -, -⟩ := h.child hG hE hm
  obtain ⟨lo', hi', hG', -, -, -⟩ := h.top.mem ha
  rw [hc] at hG'
  cases hG'
  have := h.level_le hG
  simp only at hl
  omega

/-- The child chosen by comparing keys is responsible for the key. -/
theorem Tree.locate (h : Tree E G row depth) {p c : A} {sp : Span K} {k ki : K}
    {xs ys : List (K × A)} (hG : G p = some sp) (hE : E p = some (.inner (xs ++ (ki, c) :: ys)))
    (hk : sp.Has k) (hki : xs ≠ [] → ki ≤ k) (hys : ∀ s ∈ ys, k < s.1) :
    ∃ sc, G c = some sc ∧ sc.level + 1 = sp.level ∧ sc.Has k := by
  have hok := h.innerOk hG hE
  obtain ⟨lo', hi', hc, h1, h2⟩ := covers_locate hok.covers hk.1 hk.2 hki hys
  have := hok.level
  exact ⟨_, hc, by simp only; omega, h1, h2⟩

/-! ## §3. What the tree holds. -/

/-- The responsible leaf decides whether a key is held. -/
theorem Tree.holds_iff (h : Tree E G row depth) {a : A} {sp : Span K} {es : List (K × V)}
    {next : Option A} {k : K} {v : V} (hG : G a = some sp) (hE : E a = some (.leaf es next))
    (hk : sp.Has k) : Holds E G k v ↔ (k, v) ∈ es := by
  constructor
  · rintro ⟨b, sb, es', next', hb, hEb, hm⟩
    have hob := h.leafOk hb hEb
    have hoa := h.leafOk hG hE
    have hab : a = b := h.eq_of_has hG hb (by rw [hoa.level, hob.level]) hk (hob.inside _ hm)
    subst hab
    rw [hE] at hEb
    cases hEb
    exact hm
  · intro hm
    exact ⟨a, sp, es, next, hG, hE, hm⟩

/-- **A key below everything its cell shows is held nowhere.**  The induction
goes down the first children, whose slots keep the bound. -/
theorem Tree.not_holds_of_below (h : Tree E G row depth) {k : K} {v : V} :
    ∀ (n : Nat) {a : A} {sp : Span K} {sh : Shape K V A}, sp.level = n → G a = some sp →
      E a = some sh → sp.Has k → (∀ x ∈ sh.keys, k < x) → ¬ Holds E G k v := by
  intro n
  induction n with
  | zero =>
      intro a sp sh hl hG
      have := h.level_pos hG
      omega
  | succ n ih =>
      intro a sp sh hl hG hE hk hbelow hh
      cases sh with
      | leaf es next =>
          have hm := (h.holds_iff hG hE hk).1 hh
          exact absurd (hbelow k (List.mem_map_of_mem hm)) (lt_irrefl k)
      | inner slots =>
          have hok := h.innerOk hG hE
          cases slots with
          | nil => exact hok.covers
          | cons s rest =>
              obtain ⟨k₀, c₀⟩ := s
              have hk₀ : k < k₀ := hbelow k₀ (by simp [Shape.keys])
              have hrest : ∀ s ∈ rest, k < s.1 := fun s hs =>
                hbelow s.1 (by
                  simp only [Shape.keys, List.map_cons]
                  exact List.mem_cons_of_mem _ (List.mem_map_of_mem hs))
              obtain ⟨sc, hc, hlc, hkc⟩ := h.locate hG
                (show E a = some (.inner ([] ++ (k₀, c₀) :: rest)) from hE) hk (by simp) hrest
              obtain ⟨shc, hEc, -⟩ := h.node hc
              refine ih (by omega) hc hEc hkc (fun x hx => ?_) hh
              exact lt_of_lt_of_le hk₀ (hok.low (k₀, c₀) (by simp) shc hEc x hx)

/-! ## §4. The tree of one empty leaf. -/

/-- The plan of a tree that is one leaf. -/
def singlePlan [DecidableEq A] (a : A) : Plan K A :=
  fun x => if x = a then some ⟨1, ⊥, ⊤⟩ else none

omit [LinearOrder K] in
theorem singlePlan_eq [DecidableEq A] {a x : A} {sp : Span K} :
    singlePlan a x = some sp ↔ x = a ∧ sp = ⟨1, ⊥, ⊤⟩ := by
  unfold singlePlan
  by_cases hx : x = a
  · simp [hx, eq_comm]
  · simp [hx]

theorem Tree.single [DecidableEq A] {a : A} (hE : E a = some (.leaf [] none)) (κ : K) :
    Tree E (singlePlan a) [(κ, a)] 1 := by
  have hlt : (⊥ : Bound K) < ⊤ := (bot_lt_key κ).trans (key_lt_top κ)
  refine ⟨⟨hlt, singlePlan_eq.2 ⟨rfl, rfl⟩⟩, ?_, ?_, ?_, ?_⟩
  · intro x sp hx
    obtain ⟨-, rfl⟩ := singlePlan_eq.1 hx
    exact le_rfl
  · intro x sp hx
    obtain ⟨-, rfl⟩ := singlePlan_eq.1 hx
    exact hlt
  · intro x y sx sy hx hy _ hne
    exact absurd ((singlePlan_eq.1 hx).1.trans (singlePlan_eq.1 hy).1.symm) hne
  · intro x sp hx
    obtain ⟨rfl, rfl⟩ := singlePlan_eq.1 hx
    exact ⟨_, hE, rfl, sortedKeys_nil, by simp, rfl⟩

omit [LinearOrder K] in
theorem represents_single [DecidableEq A] {a : A} (hE : E a = some (.leaf [] none)) :
    Represents E (singlePlan a) (fun _ => none) := by
  intro k v
  constructor
  · intro h; cases h
  · rintro ⟨x, sx, es, next, hx, hEx, hm⟩
    obtain ⟨rfl, rfl⟩ := singlePlan_eq.1 hx
    rw [hE] at hEx
    cases hEx
    cases hm

end RangeTree
