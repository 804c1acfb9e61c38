/-
  NvmTree.RangeTree.Update — the steps by which an insertion changes a tree.

  A row of slots belongs to an inner cell or is the top row; `IsRow` and
  `setRow`/`topRow` treat both alike.  Each step is one change of the store and
  the plan that keeps `Tree`, however wide the cells become in between:

    * `Tree.setLeaf` — new entries for a leaf;
    * `Tree.lower`   — a smaller key for the first slot on the left edge;
    * `Tree.split`   — a cell cut in two, with a slot for the upper half added
      to the row the cell is in;
    * `Tree.grow`    — a new root over the top row.

  Setting an entry changes the map the tree holds at that key only
  (`Tree.represents_setEntry`); the other steps keep it.

  `Below` is what links them: the keys of the slots that lead to a cell are at
  most the key that is going to be shown there.
-/
import Mathlib.Logic.Function.Basic
import NvmTree.RangeTree.Entries
import NvmTree.RangeTree.Tree

namespace RangeTree

variable {K V A : Type*} [LinearOrder K]

/-! ## §1. Rows. -/

/-- `slots` is the row that `o` stands for: a cell's slots, or the top row. -/
def IsRow (E : Store K V A) (G : Plan K A) (row : List (K × A)) :
    Option A → List (K × A) → Prop
  | none, slots => row = slots
  | some p, slots => (∃ sp, G p = some sp) ∧ E p = some (.inner slots)

/-- The store after the row of `o` became `slots`. -/
def setRow [DecidableEq A] (E : Store K V A) : Option A → List (K × A) → Store K V A
  | none, _ => E
  | some p, slots => Function.update E p (some (.inner slots))

/-- The top row after the row of `o` became `slots`. -/
def topRow (row : List (K × A)) : Option A → List (K × A) → List (K × A)
  | none, slots => slots
  | some _, _ => row

/-- Every slot that leads to `a` has a key of at most `k`. -/
def Below (E : Store K V A) (G : Plan K A) (a : A) (k : K) : Prop :=
  ∀ p sp sl ka, G p = some sp → E p = some (.inner sl) → (ka, a) ∈ sl → ka ≤ k

variable {E E' : Store K V A} {G G' : Plan K A} {row : List (K × A)} {depth : Nat}

theorem Tree.below_of_keys (h : Tree E G row depth) {a : A} {sh : Shape K V A} {x : K}
    (hE : E a = some sh) (hx : x ∈ sh.keys) : Below E G a x := by
  intro p sp sl ka hp hEp hm
  exact (h.innerOk hp hEp).low (ka, a) hm sh hE x hx

/-- The slot of a child, taken with a key of at most `k`. -/
theorem Tree.below_child (h : Tree E G row depth) {p c : A} {sp : Span K} {slots : List (K × A)}
    {ki k : K} (hp : G p = some sp) (hEp : E p = some (.inner slots)) (hm : (ki, c) ∈ slots)
    (hki : ki ≤ k) : Below E G c k := by
  intro q sq sl ka hq hEq hmq
  have hpq := h.parent_unique hq hp hEq hEp hmq hm
  subst hpq
  rw [hEq] at hEp
  cases hEp
  rw [(h.innerOk hq hEq).covers.slot_unique hmq hm]
  exact hki

/-- A cell stays well formed when its children and its next leaf keep their
place, and its slots stay low. -/
theorem NodeOk.mono {sp : Span K} {sh : Shape K V A} (hok : NodeOk E G sp sh)
    (hnext : ∀ es b hi', sh = .leaf es (some b) → G b = some ⟨1, sp.hi, hi'⟩ →
      ∃ hi'', G' b = some ⟨1, sp.hi, hi''⟩)
    (hchild : ∀ slots, sh = .inner slots → ∀ k c, (k, c) ∈ slots → G' c = G c)
    (hlow : ∀ slots, sh = .inner slots → ∀ k c, (k, c) ∈ slots → LowKey E k c → LowKey E' k c) :
    NodeOk E' G' sp sh := by
  cases sh with
  | leaf es next =>
      refine ⟨hok.level, hok.sorted, hok.inside, ?_⟩
      have h := hok.next
      cases next with
      | none => exact h
      | some b =>
          obtain ⟨hi', hb⟩ := h
          exact hnext es b hi' rfl hb
  | inner slots =>
      exact ⟨hok.level, hok.sorted, hok.covers.congr (fun k c hm => hchild slots rfl k c hm),
        hok.head, fun s hs => hlow slots rfl s.1 s.2 hs (hok.low s hs)⟩

omit [LinearOrder K] in
/-- A row stays the row of its owner when its owner is not touched. -/
theorem IsRow.mono {o : Option A} {slots : List (K × A)} (ho : IsRow E G row o slots)
    (hE : ∀ p, o = some p → E' p = E p) (hG : ∀ p sp, o = some p → G p = some sp →
      ∃ sp', G' p = some sp') : IsRow E' G' row o slots := by
  cases o with
  | none => exact ho
  | some p =>
      obtain ⟨⟨sp, hp⟩, hEp⟩ := ho
      exact ⟨hG p sp rfl hp, (hE p rfl).trans hEp⟩

omit [LinearOrder K] in
theorem IsRow.topRow {o : Option A} {slots : List (K × A)} (ho : IsRow E G row o slots) :
    topRow row o slots = row := by
  cases o with
  | none => exact ho.symm
  | some p => rfl

omit [LinearOrder K] in
/-- The same entries in another store. -/
theorem Represents.congr {m : K → Option V} (hm : Represents E G m)
    (h : ∀ k v, Holds E' G' k v ↔ Holds E G k v) : Represents E' G' m :=
  fun k v => (hm k v).trans (h k v).symm

/-- Cells outside the plan may hold anything. -/
theorem Tree.congr (h : Tree E G row depth) (hE : ∀ x sx, G x = some sx → E' x = E x) :
    Tree E' G row depth := by
  refine ⟨h.top, h.level_le, h.lo_lt_hi, h.disjoint, ?_⟩
  intro x sx hx
  obtain ⟨sh, hEx, hok⟩ := h.node hx
  refine ⟨sh, (hE x sx hx).trans hEx, hok.mono (fun _ b hi' _ hb => ⟨hi', hb⟩)
    (fun _ _ _ _ _ => rfl) ?_⟩
  rintro slots rfl k c hm hlow
  obtain ⟨sc, hc, -⟩ := h.child hx hEx hm
  unfold LowKey
  rw [hE c sc hc]
  exact hlow

omit [LinearOrder K] in
theorem holds_congr (hE : ∀ x sx, G x = some sx → E' x = E x) {k : K} {v : V} :
    Holds E' G k v ↔ Holds E G k v := by
  constructor
  · rintro ⟨x, sx, es, next, hx, hEx, hm⟩
    exact ⟨x, sx, es, next, hx, (hE x sx hx) ▸ hEx, hm⟩
  · rintro ⟨x, sx, es, next, hx, hEx, hm⟩
    exact ⟨x, sx, es, next, hx, (hE x sx hx).trans hEx, hm⟩

/-- A cell is in one row. -/
theorem Tree.row_unique (h : Tree E G row depth) {o : Option A} {sl sl' : List (K × A)}
    {k k' : K} {a p : A} {sp : Span K} (ho : IsRow E G row o sl) (hm : (k, a) ∈ sl)
    (hp : G p = some sp) (hEp : E p = some (.inner sl')) (hm' : (k', a) ∈ sl') : o = some p := by
  cases o with
  | none =>
      change row = sl at ho
      exact (h.top_not_child hp hEp (ho ▸ hm) hm').elim
  | some q =>
      obtain ⟨⟨sq, hq⟩, hEq⟩ := ho
      rw [h.parent_unique hq hp hEq hEp hm hm']

/-! ## §2. Entries of a leaf, and the left edge. -/

variable [DecidableEq A]

omit [LinearOrder K] in
/-- Writing a row that is there already. -/
theorem IsRow.setRow {o : Option A} {slots : List (K × A)} (ho : IsRow E G row o slots) :
    setRow E o slots = E := by
  cases o with
  | none => rfl
  | some p => exact Function.update_eq_self_iff.2 ho.2.symm

/-- Two stores that differ in one cell agree on `LowKey` elsewhere. -/
theorem lowKey_update {a c : A} {k : K} {sh : Option (Shape K V A)} (hne : c ≠ a) :
    LowKey (Function.update E a sh) k c ↔ LowKey E k c := by
  unfold LowKey
  rw [Function.update_of_ne hne]

theorem lowKey_update_self {a : A} {k : K} {sh : Shape K V A} :
    LowKey (Function.update E a (some sh)) k a ↔ ∀ x ∈ sh.keys, k ≤ x := by
  unfold LowKey
  rw [Function.update_self]
  constructor
  · intro h; exact h sh rfl
  · intro h sh' hsh'
    cases hsh'
    exact h

/-- Changing what one cell shows, with its place in the plan kept. -/
theorem Tree.setCell (h : Tree E G row depth) {a : A} {sp : Span K} {sh : Shape K V A}
    (hG : G a = some sp) (hok : NodeOk (Function.update E a (some sh)) G sp sh)
    (hlow : ∀ x ∈ sh.keys, Below E G a x) :
    Tree (Function.update E a (some sh)) G row depth := by
  refine ⟨h.top, h.level_le, h.lo_lt_hi, h.disjoint, ?_⟩
  intro x sx hx
  by_cases hxa : x = a
  · subst hxa
    rw [hG] at hx
    cases hx
    exact ⟨sh, Function.update_self .., hok⟩
  · obtain ⟨shx, hEx, hokx⟩ := h.node hx
    refine ⟨shx, by rw [Function.update_of_ne hxa]; exact hEx, ?_⟩
    refine hokx.mono (fun _ b hi' _ hb => ⟨hi', hb⟩) (fun _ _ _ _ _ => rfl) ?_
    intro slots hsl k c hm hlk
    by_cases hca : c = a
    · subst hca
      rw [lowKey_update_self]
      intro y hy
      exact hlow y hy x sx slots k hx (hsl ▸ hEx) hm
    · rwa [lowKey_update hca]

/-- **New entries for a leaf.** -/
theorem Tree.setLeaf (h : Tree E G row depth) {a : A} {sp : Span K} {es es' : List (K × V)}
    {next : Option A} (hG : G a = some sp) (hE : E a = some (.leaf es next))
    (hs : SortedKeys es') (hin : ∀ e ∈ es', sp.Has e.1) (hlow : ∀ e ∈ es', Below E G a e.1) :
    Tree (Function.update E a (some (.leaf es' next))) G row depth := by
  have hok := h.leafOk hG hE
  refine h.setCell hG ⟨hok.level, hs, hin, hok.next⟩ ?_
  intro x hx
  obtain ⟨e, he, rfl⟩ := List.mem_map.1 hx
  exact hlow e he

omit [DecidableEq A] in
/-- A key below the first slot of its cell: the cell is on the left edge. -/
theorem InnerOk.lo_eq_bot {sp : Span K} {k k₀ : K} {c : A} {rest : List (K × A)}
    (hok : InnerOk E G sp ((k₀, c) :: rest)) (hk : sp.Has k) (hlt : k < k₀) : sp.lo = ⊥ := by
  rcases hok.head with hbot | ⟨k', c', rest', heq, hlo⟩
  · exact hbot
  · simp only [List.cons.injEq, Prod.mk.injEq] at heq
    obtain ⟨⟨rfl, rfl⟩, rfl⟩ := heq
    have := hk.1
    rw [hlo, key_le_key] at this
    exact absurd hlt (not_lt.2 this)

/-- **A smaller key for the first slot.**  Only a cell on the left edge is
responsible for a key below its first slot. -/
theorem Tree.lower (h : Tree E G row depth) {a c : A} {sp : Span K} {k k₀ : K}
    {rest : List (K × A)} (hG : G a = some sp) (hE : E a = some (.inner ((k₀, c) :: rest)))
    (hk : sp.Has k) (hlt : k < k₀) (hB : Below E G a k) :
    Tree (Function.update E a (some (.inner ((k, c) :: rest)))) G row depth := by
  have hok := h.innerOk hG hE
  have hne : ∀ s ∈ (k₀, c) :: rest, s.2 ≠ a := by
    rintro ⟨k', c'⟩ hs rfl
    obtain ⟨sc, hc, hl, -, -⟩ := h.child hG hE hs
    rw [hG] at hc
    cases hc
    omega
  have hrest := sortedKeys_cons.1 hok.sorted
  refine h.setCell hG ⟨hok.level, ?_, hok.covers.head_irrel, Or.inl (hok.lo_eq_bot hk hlt), ?_⟩ ?_
  · exact sortedKeys_cons.2 ⟨fun y hy => hlt.trans (hrest.1 y hy), hrest.2⟩
  · intro s hs
    rcases List.mem_cons.1 hs with rfl | hs
    · rw [lowKey_update (hne (k₀, c) (by simp))]
      intro sh hsh x hx
      exact hlt.le.trans (hok.low (k₀, c) (by simp) sh hsh x hx)
    · rw [lowKey_update (hne s (List.mem_cons_of_mem _ hs))]
      exact hok.low s (List.mem_cons_of_mem _ hs)
  · intro x hx p sp' sl ka hp hEp hm
    have hka : ka ≤ k := hB p sp' sl ka hp hEp hm
    simp only [Shape.keys, List.map_cons, List.mem_cons] at hx
    rcases hx with rfl | hx
    · exact hka
    · obtain ⟨s, hs, rfl⟩ := List.mem_map.1 hx
      exact hka.trans (hlt.trans (hrest.1 s hs)).le

/-! ## §3. Cutting a cell in two. -/

/-- `shL` and `shR` are the halves of a cell, cut before its key `b`; the upper
half goes to the cell `r`. -/
inductive Halves (r : A) (b : K) : Shape K V A → Shape K V A → Shape K V A → Prop
  | leaf {L R : List (K × V)} {v : V} {next : Option A} (hL : L ≠ []) :
      Halves r b (.leaf (L ++ (b, v) :: R) next) (.leaf L (some r)) (.leaf ((b, v) :: R) next)
  | inner {L R : List (K × A)} {c : A} (hL : L ≠ []) :
      Halves r b (.inner (L ++ (b, c) :: R)) (.inner L) (.inner ((b, c) :: R))

omit [DecidableEq A] [LinearOrder K] in
/-- The halves show the keys of the whole; the lower one has a key below `b`. -/
theorem Halves.keys {r : A} {b : K} {sh shL shR : Shape K V A} (h : Halves r b sh shL shR) :
    sh.keys = shL.keys ++ shR.keys ∧ shL.keys ≠ [] ∧ b ∈ shR.keys := by
  cases h with
  | leaf hL => simpa [Shape.keys] using hL
  | inner hL => simpa [Shape.keys] using hL

/-- The plan after the span of `a` was cut at `b`. -/
def cutPlan (G : Plan K A) (a r : A) (l : Nat) (la hb : Bound K) (b : K) : Plan K A :=
  Function.update (Function.update G a (some ⟨l, la, key b⟩)) r (some ⟨l, key b, hb⟩)

section Cut

variable {a r : A} {l : Nat} {la ha : Bound K} {b : K}

omit [LinearOrder K] in
theorem cutPlan_left (hra : r ≠ a) : cutPlan G a r l la ha b a = some ⟨l, la, key b⟩ := by
  simp [cutPlan, Function.update_of_ne hra.symm]

omit [LinearOrder K] in
theorem cutPlan_right : cutPlan G a r l la ha b r = some ⟨l, key b, ha⟩ := by
  simp [cutPlan]

omit [LinearOrder K] in
theorem cutPlan_other {x : A} (hxa : x ≠ a) (hxr : x ≠ r) : cutPlan G a r l la ha b x = G x := by
  simp [cutPlan, Function.update_of_ne hxa, Function.update_of_ne hxr]

omit [LinearOrder K] in
/-- The cut changes the plan at one level. -/
theorem cutPlan_above (hGa : G a = some ⟨l, la, ha⟩) (hr : G r = none) {x : A} {sx : Span K}
    (hl : l < sx.level) : cutPlan G a r l la ha b x = some sx ↔ G x = some sx := by
  have hra : r ≠ a := by rintro rfl; rw [hr] at hGa; cases hGa
  by_cases hxa : x = a
  · subst hxa
    rw [cutPlan_left hra, hGa]
    constructor
    · intro h; cases h; exact absurd hl (lt_irrefl _)
    · intro h; cases h; exact absurd hl (lt_irrefl _)
  · by_cases hxr : x = r
    · subst hxr
      rw [cutPlan_right, hr]
      constructor
      · intro h; cases h; exact absurd hl (lt_irrefl _)
      · intro h; cases h
    · rw [cutPlan_other hxa hxr]

/-- Every span of the cut plan lies in a span of the old one: of the same cell,
or of `a` for the new cell `r`. -/
theorem cutPlan_origin (h : Tree E G row depth)
    (hGa : G a = some ⟨l, la, ha⟩) (hra : r ≠ a) (hlb : la < key b) (hbh : key b < ha)
    {x : A} {sx : Span K} (hx : cutPlan G a r l la ha b x = some sx) :
    ∃ s₀, G (if x = r then a else x) = some s₀ ∧ s₀.level = sx.level ∧ s₀.lo ≤ sx.lo
      ∧ sx.hi ≤ s₀.hi ∧ sx.lo < sx.hi := by
  by_cases hxr : x = r
  · subst hxr
    rw [cutPlan_right] at hx
    cases hx
    exact ⟨⟨l, la, ha⟩, by rw [if_pos rfl]; exact hGa, rfl, hlb.le, le_rfl, hbh⟩
  · rw [if_neg hxr]
    by_cases hxa : x = a
    · subst hxa
      rw [cutPlan_left hra] at hx
      cases hx
      exact ⟨⟨l, la, ha⟩, hGa, rfl, le_rfl, hbh.le, hlb⟩
    · rw [cutPlan_other hxa hxr] at hx
      exact ⟨sx, hx, rfl, le_rfl, le_rfl, h.lo_lt_hi hx⟩

/-- Cutting one span keeps the spans of a level apart. -/
theorem cutPlan_disjoint (h : Tree E G row depth) (hGa : G a = some ⟨l, la, ha⟩) (hra : r ≠ a)
    (hlb : la < key b) (hbh : key b < ha) {x y : A} {sx sy : Span K}
    (hx : cutPlan G a r l la ha b x = some sx) (hy : cutPlan G a r l la ha b y = some sy)
    (hl : sx.level = sy.level) (hne : x ≠ y) : sx.hi ≤ sy.lo ∨ sy.hi ≤ sx.lo := by
  obtain ⟨x₀, hx₀, lx, hx1, hx2, -⟩ := cutPlan_origin h hGa hra hlb hbh hx
  obtain ⟨y₀, hy₀, ly, hy1, hy2, -⟩ := cutPlan_origin h hGa hra hlb hbh hy
  by_cases heq : (if x = r then a else x) = (if y = r then a else y)
  · -- both come from `a`: they are `a` and `r`, in either order
    by_cases hxr : x = r
    · by_cases hyr : y = r
      · exact absurd (hxr.trans hyr.symm) hne
      · rw [if_pos hxr, if_neg hyr] at heq
        subst hxr heq
        rw [cutPlan_right] at hx
        rw [cutPlan_left hra] at hy
        cases hx; cases hy
        exact Or.inr le_rfl
    · by_cases hyr : y = r
      · rw [if_neg hxr, if_pos hyr] at heq
        subst hyr heq
        rw [cutPlan_left hra] at hx
        rw [cutPlan_right] at hy
        cases hx; cases hy
        exact Or.inl le_rfl
      · rw [if_neg hxr, if_neg hyr] at heq
        exact absurd heq hne
  · rcases h.disjoint hx₀ hy₀ (by rw [lx, ly, hl]) heq with hd | hd
    · exact Or.inl (hx2.trans (hd.trans hy1))
    · exact Or.inr (hy2.trans (hd.trans hx1))

end Cut

omit [DecidableEq A] in
theorem NodeOk.keys_sorted {sp : Span K} {sh : Shape K V A} (hok : NodeOk E G sp sh) :
    sh.keys.Pairwise (· < ·) := by
  cases sh with
  | leaf es next => exact List.pairwise_map.2 hok.sorted
  | inner slots => exact List.pairwise_map.2 hok.sorted

omit [DecidableEq A] in
/-- The cut lies strictly inside the span. -/
theorem Halves.bounds {sp : Span K} {r : A} {b : K} {sh shL shR : Shape K V A}
    (hhalf : Halves r b sh shL shR) (hok : NodeOk E G sp sh) :
    sp.lo < key b ∧ key b < sp.hi := by
  cases hhalf with
  | @leaf L R v next hL =>
      have hb := hok.inside (b, v) (by simp)
      refine ⟨?_, hb.2⟩
      obtain ⟨e, L', rfl⟩ := List.exists_cons_of_ne_nil hL
      have he := hok.inside e (by simp)
      have hlt := (sortedKeys_append.1 hok.sorted).2.2 e (by simp) (b, v) (by simp)
      exact he.1.trans_lt (key_lt_key.2 hlt)
  | @inner L R c hL =>
      have hc := (covers_append hL).1 hok.covers
      refine ⟨?_, hc.2.lo_lt_hi⟩
      exact hc.1.lo_lt_hi

omit [DecidableEq A] in
/-- The keys of the lower half are below `b`, those of the upper half are not. -/
theorem Halves.keys_lt {sp : Span K} {r : A} {b : K} {sh shL shR : Shape K V A}
    (hhalf : Halves r b sh shL shR) (hok : NodeOk E G sp sh) :
    (∀ x ∈ shL.keys, x < b) ∧ ∀ x ∈ shR.keys, b ≤ x := by
  have hs := hok.keys_sorted
  obtain ⟨hk, -, hb⟩ := hhalf.keys
  rw [hk, List.pairwise_append] at hs
  refine ⟨fun x hx => hs.2.2 x hx b hb, ?_⟩
  cases hhalf with
  | leaf hL =>
      intro x hx
      simp only [Shape.keys, List.map_cons, List.mem_cons] at hx
      rcases hx with rfl | hx
      · exact le_rfl
      · exact (List.rel_of_pairwise_cons hs.2.1 hx).le
  | inner hL =>
      intro x hx
      simp only [Shape.keys, List.map_cons, List.mem_cons] at hx
      rcases hx with rfl | hx
      · exact le_rfl
      · exact (List.rel_of_pairwise_cons hs.2.1 hx).le

/-- The store after the cell `a` was cut and its row updated. -/
def splitStore (E : Store K V A) (o : Option A) (a r : A) (shL shR : Shape K V A)
    (slots : List (K × A)) : Store K V A :=
  setRow (Function.update (Function.update E a (some shL)) r (some shR)) o slots

section SplitStore

variable {o : Option A} {a r : A} {shL shR : Shape K V A} {slots : List (K × A)}

omit [LinearOrder K] in
theorem splitStore_left (hoa : o ≠ some a) (hra : r ≠ a) :
    splitStore E o a r shL shR slots a = some shL := by
  cases o with
  | none => simp [splitStore, setRow, Function.update_of_ne hra.symm]
  | some p =>
      have hpa : a ≠ p := fun h => hoa (by rw [h])
      simp [splitStore, setRow, Function.update_of_ne hra.symm, Function.update_of_ne hpa]

omit [LinearOrder K] in
theorem splitStore_right (hor : o ≠ some r) :
    splitStore E o a r shL shR slots r = some shR := by
  cases o with
  | none => simp [splitStore, setRow]
  | some p =>
      have hpr : r ≠ p := fun h => hor (by rw [h])
      simp [splitStore, setRow, Function.update_of_ne hpr]

omit [LinearOrder K] in
theorem splitStore_row {p : A} :
    splitStore E (some p) a r shL shR slots p = some (.inner slots) := by
  simp [splitStore, setRow]

omit [LinearOrder K] in
theorem splitStore_other {x : A} (hxa : x ≠ a) (hxr : x ≠ r) (hxo : o ≠ some x) :
    splitStore E o a r shL shR slots x = E x := by
  cases o with
  | none => simp [splitStore, setRow, Function.update_of_ne hxa, Function.update_of_ne hxr]
  | some p =>
      have hxp : x ≠ p := fun h => hxo (by rw [h])
      simp [splitStore, setRow, Function.update_of_ne hxa, Function.update_of_ne hxr,
        Function.update_of_ne hxp]

end SplitStore

section Split

variable {o : Option A} {xs ys : List (K × A)} {ka b : K} {a r : A} {sp : Span K}
  {sh shL shR : Shape K V A}

omit [DecidableEq A] in
/-- The row's owner is one level up. -/
theorem Tree.owner_ne (h : Tree E G row depth) (ho : IsRow E G row o (xs ++ (ka, a) :: ys)) :
    o ≠ some a := by
  rintro rfl
  obtain ⟨⟨sq, hq⟩, hEq⟩ := ho
  obtain ⟨sc, hc, hl, -, -⟩ := h.child hq hEq (show (ka, a) ∈ _ by simp)
  rw [hq] at hc
  cases hc
  omega

omit [DecidableEq A] [LinearOrder K] in
theorem IsRow.ne_fresh {slots : List (K × A)} (ho : IsRow E G row o slots) (hr : G r = none) :
    o ≠ some r := by
  rintro rfl
  obtain ⟨⟨sq, hq⟩, -⟩ := ho
  rw [hr] at hq
  cases hq

omit [LinearOrder K] in
/-- A next pointer still leads to a leaf that starts where it did. -/
theorem cutPlan_next (hGa : G a = some sp) (hr : G r = none) {y : A} {hi hi' : Bound K}
    (hy : G y = some ⟨1, hi, hi'⟩) :
    ∃ hi'', cutPlan G a r sp.level sp.lo sp.hi b y = some ⟨1, hi, hi''⟩ := by
  have hyr : y ≠ r := by rintro rfl; rw [hr] at hy; cases hy
  have hra : r ≠ a := by rintro rfl; rw [hr] at hGa; cases hGa
  by_cases hya : y = a
  · subst hya
    rw [hGa] at hy
    cases hy
    exact ⟨_, cutPlan_left hra⟩
  · exact ⟨hi', by rw [cutPlan_other hya hyr]; exact hy⟩

/-- The children of the other cells keep their place. -/
theorem Tree.cutPlan_child (h : Tree E G row depth)
    (ho : IsRow E G row o (xs ++ (ka, a) :: ys)) (hr : G r = none) {l : Nat}
    {la ha : Bound K} {x : A} {sx : Span K} {sl : List (K × A)} (hx : G x = some sx)
    (hEx : E x = some (.inner sl)) (hxo : o ≠ some x) {k : K} {c : A} (hm : (k, c) ∈ sl) :
    cutPlan G a r l la ha b c = G c := by
  obtain ⟨sc, hc, -, -, -⟩ := h.child hx hEx hm
  have hcr : c ≠ r := by rintro rfl; rw [hr] at hc; cases hc
  have hca : c ≠ a := by
    rintro rfl
    exact hxo (h.row_unique ho (show (ka, c) ∈ _ by simp) hx hEx hm)
  exact cutPlan_other hca hcr

/-- The slots of the other cells stay low. -/
theorem Tree.split_low (h : Tree E G row depth) (ho : IsRow E G row o (xs ++ (ka, a) :: ys))
    (hr : G r = none) (hkab : ∀ p, o = some p → ka < b) {x : A} {sx : Span K}
    {sl : List (K × A)} (hx : G x = some sx) (hEx : E x = some (.inner sl)) (hxo : o ≠ some x)
    {k : K} {c : A} (hm : (k, c) ∈ sl) (hlow : LowKey E k c) :
    LowKey (splitStore E o a r shL shR (xs ++ (ka, a) :: (b, r) :: ys)) k c := by
  obtain ⟨sc, hc, -, -, -⟩ := h.child hx hEx hm
  have hcr : c ≠ r := by rintro rfl; rw [hr] at hc; cases hc
  have hca : c ≠ a := by
    rintro rfl
    exact hxo (h.row_unique ho (show (ka, c) ∈ _ by simp) hx hEx hm)
  by_cases hco : o = some c
  · -- the row that got the new slot: its keys are the old ones and `b`
    subst hco
    obtain ⟨-, hEc⟩ := ho
    intro sh' hsh' y hy
    rw [splitStore_row] at hsh'
    cases hsh'
    have hold : ∀ z ∈ (Shape.inner (xs ++ (ka, a) :: ys) : Shape K V A).keys, k ≤ z :=
      hlow _ hEc
    simp only [Shape.keys, List.map_append, List.map_cons, List.mem_append, List.mem_cons] at hold hy
    rcases hy with hy | rfl | rfl | hy
    · exact hold y (Or.inl hy)
    · exact hold y (Or.inr (Or.inl rfl))
    · exact (hold ka (Or.inr (Or.inl rfl))).trans (hkab c rfl).le
    · exact hold y (Or.inr (Or.inr hy))
  · unfold LowKey
    rw [splitStore_other hca hcr hco]
    exact hlow

/-- The two halves are well formed. -/
theorem Tree.split_halves (h : Tree E G row depth) (ho : IsRow E G row o (xs ++ (ka, a) :: ys))
    (hGa : G a = some sp) (hEa : E a = some sh) (hhalf : Halves r b sh shL shR)
    (hr : G r = none) (hkab : ∀ p, o = some p → ka < b) :
    NodeOk (splitStore E o a r shL shR (xs ++ (ka, a) :: (b, r) :: ys))
        (cutPlan G a r sp.level sp.lo sp.hi b) ⟨sp.level, sp.lo, key b⟩ shL
      ∧ NodeOk (splitStore E o a r shL shR (xs ++ (ka, a) :: (b, r) :: ys))
        (cutPlan G a r sp.level sp.lo sp.hi b) ⟨sp.level, key b, sp.hi⟩ shR := by
  have hoa := h.owner_ne ho
  have hok := h.nodeOk hGa hEa
  have hlt := hhalf.keys_lt hok
  cases hhalf with
  | @leaf L R v next hL =>
      have hs := sortedKeys_append.1 hok.sorted
      refine ⟨⟨hok.level, hs.1, ?_, ?_⟩, ⟨hok.level, hs.2.1, ?_, ?_⟩⟩
      · intro e he
        refine ⟨(hok.inside e (by simp [he])).1, key_lt_key.2 (hlt.1 e.1 ?_)⟩
        exact List.mem_map_of_mem he
      · refine ⟨sp.hi, ?_⟩
        rw [cutPlan_right]
        have := hok.level
        simp only at this ⊢
        rw [this]
      · intro e he
        refine ⟨key_le_key.2 (hlt.2 e.1 (List.mem_map_of_mem he)), ?_⟩
        exact (hok.inside e (List.mem_append_right _ he)).2
      · have hn := hok.next
        cases next with
        | none => exact hn
        | some y =>
            obtain ⟨hi', hy⟩ := hn
            exact cutPlan_next hGa hr hy
  | @inner L R c hL =>
      have hs := sortedKeys_append.1 hok.sorted
      have hc := (covers_append hL).1 hok.covers
      have hplan : ∀ k d, (k, d) ∈ L ++ (b, c) :: R →
          cutPlan G a r sp.level sp.lo sp.hi b d = G d :=
        fun k d hm => h.cutPlan_child ho hr hGa hEa hoa hm
      have hlow : ∀ s ∈ L ++ (b, c) :: R, LowKey (splitStore E o a r (.inner L)
          (.inner ((b, c) :: R)) (xs ++ (ka, a) :: (b, r) :: ys)) s.1 s.2 :=
        fun s hm => h.split_low ho hr hkab hGa hEa hoa hm (hok.low s hm)
      refine ⟨⟨hok.level, hs.1, hc.1.congr fun k d hm => hplan k d (by simp [hm]), ?_, ?_⟩,
        ⟨hok.level, hs.2.1, hc.2.congr fun k d hm => hplan k d (List.mem_append_right _ hm),
          Or.inr ⟨b, c, R, rfl, rfl⟩, ?_⟩⟩
      · rcases hok.head with hbot | ⟨k', c', rest', heq, hlo⟩
        · exact Or.inl hbot
        · obtain ⟨s, L', rfl⟩ := List.exists_cons_of_ne_nil hL
          obtain ⟨rfl, -⟩ := List.cons.inj heq
          exact Or.inr ⟨k', c', L', rfl, hlo⟩
      · exact fun s hm => hlow s (List.mem_append_left _ hm)
      · exact fun s hm => hlow s (List.mem_append_right _ hm)

omit [DecidableEq A] in
/-- A row that follows the slot of `a` continues above the span of `a`. -/
theorem Covers.next_key {l : Nat} {hi : Bound K} (hGa : G a = some sp) :
    ∀ {xs : List (K × A)} {lo : Bound K}, Covers G l lo hi (xs ++ (ka, a) :: ys) →
      ∀ s rest, ys = s :: rest → sp.hi = key s.1 := by
  have hhead : ∀ {lo : Bound K}, Covers G l lo hi ((ka, a) :: ys) →
      ∀ s rest, ys = s :: rest → sp.hi = key s.1 := by
    rintro lo hc s rest rfl
    have h2 := hc.2.1
    rw [hGa] at h2
    cases h2
    rfl
  intro xs lo hc
  cases xs with
  | nil => exact hhead hc
  | cons x xs =>
      have hc' : Covers G l lo hi ((x :: xs) ++ (ka, a) :: ys) := hc
      rw [covers_append (by simp)] at hc'
      exact hhead hc'.2

omit [DecidableEq A] in
/-- The new slot fits between its neighbours. -/
theorem sortedKeys_insert {l : Nat} {lo hi : Bound K} (hs : SortedKeys (xs ++ (ka, a) :: ys))
    (hc : Covers G l lo hi (xs ++ (ka, a) :: ys)) (hGa : G a = some sp) (hkab : ka < b)
    (hbh : key b < sp.hi) : SortedKeys (xs ++ (ka, a) :: (b, r) :: ys) := by
  obtain ⟨hxs, hay, hxy⟩ := sortedKeys_append.1 hs
  obtain ⟨hka, hys⟩ := sortedKeys_cons.1 hay
  have hb : ∀ s ∈ ys, b < s.1 := by
    cases ys with
    | nil => simp
    | cons s rest =>
        have hbs : b < s.1 := by
          rw [← key_lt_key, ← hc.next_key hGa s rest rfl]
          exact hbh
        intro t ht
        rcases List.mem_cons.1 ht with rfl | ht
        · exact hbs
        · exact hbs.trans ((sortedKeys_cons.1 hys).1 t ht)
  rw [sortedKeys_append, sortedKeys_cons, sortedKeys_cons]
  refine ⟨hxs, ⟨?_, hb, hys⟩, ?_⟩
  · intro y hy
    rcases List.mem_cons.1 hy with rfl | hy
    · exact hkab
    · exact hka y hy
  · intro x hx y hy
    have hxa : x.1 < ka := hxy x hx (ka, a) (by simp)
    rcases List.mem_cons.1 hy with rfl | hy
    · exact hxa
    · rcases List.mem_cons.1 hy with rfl | hy
      · exact hxa.trans hkab
      · exact hxy x hx y (List.mem_cons_of_mem _ hy)

/-- The row of the split cell tiles the same span with the new slot. -/
theorem Tree.split_covers {l : Nat} {lo hi : Bound K}
    (hc : Covers G l lo hi (xs ++ (ka, a) :: ys)) (hGa : G a = some sp)
    (hr : G r = none) (hlb : sp.lo < key b) (hbh : key b < sp.hi) :
    Covers (cutPlan G a r sp.level sp.lo sp.hi b) l lo hi (xs ++ (ka, a) :: (b, r) :: ys) := by
  have hl : sp.level = l := by
    obtain ⟨lo', hi', hG', -, -, -⟩ := hc.mem (show (ka, a) ∈ _ by simp)
    rw [hGa] at hG'
    cases hG'
    rfl
  have hra : r ≠ a := by rintro rfl; rw [hr] at hGa; cases hGa
  have hfresh : ∀ s ∈ xs ++ (ka, a) :: ys, s.2 ≠ r := by
    rintro ⟨k, c⟩ hm rfl
    obtain ⟨lo', hi', hG', -, -, -⟩ := hc.mem hm
    rw [hr] at hG'
    cases hG'
  subst hl
  exact covers_insert hGa hlb hbh hra hc (fun s hs => hfresh s (by simp [hs]))
    (fun s hs => hfresh s (by simp [hs]))

/-- The cell whose row got the new slot is well formed. -/
theorem Tree.split_owner (h : Tree E G row depth) {p : A} {sq : Span K} (hp : G p = some sq)
    (hEp : E p = some (.inner (xs ++ (ka, a) :: ys))) (hGa : G a = some sp)
    (hEa : E a = some sh) (hhalf : Halves r b sh shL shR) (hr : G r = none) (hkab : ka < b) :
    InnerOk (splitStore E (some p) a r shL shR (xs ++ (ka, a) :: (b, r) :: ys))
      (cutPlan G a r sp.level sp.lo sp.hi b) sq (xs ++ (ka, a) :: (b, r) :: ys) := by
  have hix := h.innerOk hp hEp
  have hok := h.nodeOk hGa hEa
  obtain ⟨hlb, hbh⟩ := hhalf.bounds hok
  have hra : r ≠ a := by rintro rfl; rw [hr] at hGa; cases hGa
  have hpr : some p ≠ some r := by
    intro he
    cases he
    rw [hr] at hp
    cases hp
  have hrow : IsRow E G row (some p) (xs ++ (ka, a) :: ys) := ⟨⟨sq, hp⟩, hEp⟩
  have hpa := h.owner_ne hrow
  refine ⟨hix.level, sortedKeys_insert hix.sorted hix.covers hGa hkab hbh,
    Tree.split_covers hix.covers hGa hr hlb hbh, ?_, ?_⟩
  · rcases hix.head with hbot | ⟨k', c', rest', heq, hlo⟩
    · exact Or.inl hbot
    · cases xs with
      | nil =>
          have heq' := (List.cons.inj heq).1
          cases heq'
          exact Or.inr ⟨_, _, _, rfl, hlo⟩
      | cons x' xs' =>
          obtain ⟨rfl, -⟩ := List.cons.inj heq
          exact Or.inr ⟨_, _, _, rfl, hlo⟩
  · -- the other children are untouched; `a` shows fewer keys, `r` those from `b` on
    have hold : ∀ s ∈ xs ++ (ka, a) :: ys, s.2 ≠ a → LowKey (splitStore E (some p) a r
        shL shR (xs ++ (ka, a) :: (b, r) :: ys)) s.1 s.2 := by
      rintro ⟨k, c⟩ hm hca
      obtain ⟨sc, hc, hl, -, -⟩ := h.child hp hEp hm
      have hcr : c ≠ r := by rintro rfl; rw [hr] at hc; cases hc
      have hcp : some p ≠ some c := by
        intro he
        cases he
        rw [hp] at hc
        cases hc
        omega
      unfold LowKey
      rw [splitStore_other hca hcr hcp]
      exact hix.low (k, c) hm
    have hnd := hix.covers.nodup
    simp only [List.map_append, List.map_cons] at hnd
    have hna := (List.nodup_cons.1 (List.nodup_middle.1 hnd)).1
    intro s hm
    rcases List.mem_append.1 hm with hm | hm
    · refine hold s (by simp [hm]) (fun he => hna ?_)
      rw [← he]
      exact List.mem_append_left _ (List.mem_map_of_mem hm)
    · rcases List.mem_cons.1 hm with rfl | hm
      · intro sh' hsh' y hy
        rw [splitStore_left hpa hra] at hsh'
        cases hsh'
        refine hix.low (ka, a) (by simp) sh hEa y ?_
        rw [hhalf.keys.1]
        exact List.mem_append_left _ hy
      · rcases List.mem_cons.1 hm with rfl | hm
        · intro sh' hsh' y hy
          rw [splitStore_right hpr] at hsh'
          cases hsh'
          exact (hhalf.keys_lt hok).2 y hy
        · refine hold s (by simp [hm]) (fun he => hna ?_)
          rw [← he]
          exact List.mem_append_right _ (List.mem_map_of_mem hm)

omit [DecidableEq A] in
/-- The slot of a cell that is going to be cut at `b` has a key below `b`. -/
theorem Tree.slot_lt_cut (h : Tree E G row depth) (ho : IsRow E G row o (xs ++ (ka, a) :: ys))
    (hGa : G a = some sp) (hEa : E a = some sh) (hhalf : Halves r b sh shL shR) :
    ∀ p, o = some p → ka < b := by
  rintro p rfl
  obtain ⟨⟨sq, hq⟩, hEq⟩ := ho
  obtain ⟨hkeys, hne, -⟩ := hhalf.keys
  obtain ⟨y, rest, hy⟩ := List.exists_cons_of_ne_nil hne
  have hyL : y ∈ shL.keys := by rw [hy]; simp
  have hylow : ka ≤ y := by
    refine (h.innerOk hq hEq).low (ka, a) (by simp) sh hEa y ?_
    rw [hkeys]
    exact List.mem_append_left _ hyL
  exact hylow.trans_lt ((hhalf.keys_lt (h.nodeOk hGa hEa)).1 y hyL)

/-- The top row after the cut: it got the slot, or it is untouched. -/
theorem Tree.split_top (h : Tree E G row depth) (ho : IsRow E G row o (xs ++ (ka, a) :: ys))
    (hGa : G a = some sp) (hr : G r = none) (hlb : sp.lo < key b) (hbh : key b < sp.hi) :
    Covers (cutPlan G a r sp.level sp.lo sp.hi b) depth ⊥ ⊤
      (topRow row o (xs ++ (ka, a) :: (b, r) :: ys)) := by
  cases o with
  | none =>
      have hrow : row = xs ++ (ka, a) :: ys := ho
      have hc := h.top
      rw [hrow] at hc
      exact Tree.split_covers hc hGa hr hlb hbh
  | some p =>
      obtain ⟨⟨sq, hq⟩, hEq⟩ := ho
      refine h.top.congr (fun k c hm => cutPlan_other ?_ ?_)
      · rintro rfl
        exact h.top_not_child hq hEq hm (show (ka, c) ∈ _ by simp)
      · rintro rfl
        obtain ⟨lo', hi', hG', -, -, -⟩ := h.top.mem hm
        rw [hr] at hG'
        cases hG'

/-- **Cutting a cell in two**, with a slot for the upper half in its row. -/
theorem Tree.split (h : Tree E G row depth) (ho : IsRow E G row o (xs ++ (ka, a) :: ys))
    (hGa : G a = some sp) (hEa : E a = some sh) (hhalf : Halves r b sh shL shR)
    (hr : G r = none) :
    Tree (splitStore E o a r shL shR (xs ++ (ka, a) :: (b, r) :: ys))
      (cutPlan G a r sp.level sp.lo sp.hi b)
      (topRow row o (xs ++ (ka, a) :: (b, r) :: ys)) depth := by
  obtain ⟨hlb, hbh⟩ := hhalf.bounds (h.nodeOk hGa hEa)
  have hra : r ≠ a := by rintro rfl; rw [hr] at hGa; cases hGa
  have hkab := h.slot_lt_cut ho hGa hEa hhalf
  obtain ⟨hokL, hokR⟩ := h.split_halves ho hGa hEa hhalf hr hkab
  refine ⟨h.split_top ho hGa hr hlb hbh, ?_, ?_, ?_, ?_⟩
  · intro x sx hx
    obtain ⟨s₀, hs₀, hl, -⟩ := cutPlan_origin h hGa hra hlb hbh hx
    rw [← hl]
    exact h.level_le hs₀
  · intro x sx hx
    obtain ⟨s₀, -, -, -, -, hlt⟩ := cutPlan_origin h hGa hra hlb hbh hx
    exact hlt
  · intro x y sx sy hx hy hl hne
    exact cutPlan_disjoint h hGa hra hlb hbh hx hy hl hne
  · intro x sx hx
    by_cases hxa : x = a
    · subst hxa
      rw [cutPlan_left hra] at hx
      cases hx
      exact ⟨shL, splitStore_left (h.owner_ne ho) hra, hokL⟩
    · by_cases hxr : x = r
      · subst hxr
        rw [cutPlan_right] at hx
        cases hx
        exact ⟨shR, splitStore_right (ho.ne_fresh hr), hokR⟩
      · rw [cutPlan_other hxa hxr] at hx
        by_cases hxo : o = some x
        · subst hxo
          obtain ⟨-, hEx⟩ := ho
          exact ⟨_, splitStore_row, h.split_owner hx hEx hGa hEa hhalf hr (hkab x rfl)⟩
        · obtain ⟨shx, hEx, hokx⟩ := h.node hx
          refine ⟨shx, by rw [splitStore_other hxa hxr hxo]; exact hEx, ?_⟩
          refine hokx.mono (fun _ y hi' _ hy => cutPlan_next hGa hr hy) ?_ ?_
          · rintro slots rfl k c hm
            exact h.cutPlan_child ho hr hx hEx hxo hm
          · rintro slots rfl k c hm hlow
            exact h.split_low ho hr hkab hx hEx hxo hm hlow

end Split

/-! ## §4. A new root. -/

section Grow

variable {k₀ k₁ kρ : K} {c ρ : A} {rest : List (K × A)}

/-- **A new root over the top row**, whose first slot may get another key. -/
theorem Tree.grow (h : Tree E G ((k₀, c) :: rest) depth) (hρ : G ρ = none) (hd : 1 ≤ depth)
    (hs : SortedKeys ((k₁, c) :: rest)) (hlow : ∀ s ∈ (k₁, c) :: rest, LowKey E s.1 s.2) :
    Tree (Function.update E ρ (some (.inner ((k₁, c) :: rest))))
      (Function.update G ρ (some ⟨depth + 1, ⊥, ⊤⟩)) [(kρ, ρ)] (depth + 1) := by
  have hne : ∀ {x sx}, G x = some sx → x ≠ ρ := by
    rintro x sx hx rfl
    rw [hρ] at hx
    cases hx
  have hG : ∀ {x sx}, G x = some sx →
      Function.update G ρ (some ⟨depth + 1, ⊥, ⊤⟩) x = some sx := by
    intro x sx hx
    rw [Function.update_of_ne (hne hx)]
    exact hx
  -- a cell of the new plan is the new root or an old cell
  have hinv : ∀ {x sx}, Function.update G ρ (some ⟨depth + 1, ⊥, ⊤⟩) x = some sx →
      (x = ρ ∧ sx = ⟨depth + 1, ⊥, ⊤⟩) ∨ G x = some sx := by
    intro x sx hx
    by_cases hxρ : x = ρ
    · subst hxρ
      rw [Function.update_self] at hx
      exact Or.inl ⟨rfl, (Option.some.inj hx).symm⟩
    · rw [Function.update_of_ne hxρ] at hx
      exact Or.inr hx
  refine ⟨⟨h.top.lo_lt_hi, by rw [Function.update_self]⟩, ?_, ?_, ?_, ?_⟩
  · intro x sx hx
    rcases hinv hx with ⟨-, rfl⟩ | hx
    · exact le_rfl
    · exact (h.level_le hx).trans (Nat.le_succ _)
  · intro x sx hx
    rcases hinv hx with ⟨-, rfl⟩ | hx
    · exact h.top.lo_lt_hi
    · exact h.lo_lt_hi hx
  · intro x y sx sy hx hy hl hxy
    rcases hinv hx with ⟨rfl, rfl⟩ | hx' <;> rcases hinv hy with ⟨rfl, rfl⟩ | hy'
    · exact absurd rfl hxy
    · have := h.level_le hy'
      simp only at hl
      omega
    · have := h.level_le hx'
      simp only at hl
      omega
    · exact h.disjoint hx' hy' hl hxy
  · intro x sx hx
    rcases hinv hx with ⟨rfl, rfl⟩ | hx
    · refine ⟨_, Function.update_self .., by simp only; omega, hs, ?_, Or.inl rfl, ?_⟩
      · refine h.top.head_irrel.congr (fun k d hm => ?_)
        obtain ⟨lo', hi', hd', -⟩ := h.top.head_irrel.mem hm
        rw [hG hd', hd']
      · intro s hm
        obtain ⟨lo', hi', hd', -⟩ := h.top.head_irrel.mem hm
        rw [lowKey_update (hne hd')]
        exact hlow s hm
    · obtain ⟨shx, hEx, hokx⟩ := h.node hx
      refine ⟨shx, by rw [Function.update_of_ne (hne hx)]; exact hEx, ?_⟩
      refine hokx.mono (fun _ y hi' _ hy => ⟨hi', hG hy⟩) ?_ ?_
      · rintro slots rfl k d hm
        obtain ⟨sc, hc, -⟩ := h.child hx hEx hm
        rw [hG hc, hc]
      · rintro slots rfl k d hm hlk
        obtain ⟨sc, hc, -⟩ := h.child hx hEx hm
        rwa [lowKey_update (hne hc)]

end Grow

/-! ## §5. What the steps do to the map. -/

omit [LinearOrder K] in
/-- Changing inner cells only changes no entry. -/
theorem holds_update_inner {a : A} {slots slots' : List (K × A)} {k : K} {v : V}
    (hE : E a = some (.inner slots)) :
    Holds (Function.update E a (some (.inner slots'))) G k v ↔ Holds E G k v := by
  constructor
  · rintro ⟨x, sx, es, next, hx, hEx, hm⟩
    have hxa : x ≠ a := by
      rintro rfl
      rw [Function.update_self] at hEx
      cases hEx
    rw [Function.update_of_ne hxa] at hEx
    exact ⟨x, sx, es, next, hx, hEx, hm⟩
  · rintro ⟨x, sx, es, next, hx, hEx, hm⟩
    have hxa : x ≠ a := by
      rintro rfl
      rw [hE] at hEx
      cases hEx
    exact ⟨x, sx, es, next, hx, by rw [Function.update_of_ne hxa]; exact hEx, hm⟩

omit [LinearOrder K] in
theorem holds_grow {ρ : A} {slots : List (K × A)} {sp : Span K} {k : K} {v : V}
    (hρ : G ρ = none) :
    Holds (Function.update E ρ (some (.inner slots))) (Function.update G ρ (some sp)) k v
      ↔ Holds E G k v := by
  constructor
  · rintro ⟨x, sx, es, next, hx, hEx, hm⟩
    have hxρ : x ≠ ρ := by
      rintro rfl
      rw [Function.update_self] at hEx
      cases hEx
    rw [Function.update_of_ne hxρ] at hEx hx
    exact ⟨x, sx, es, next, hx, hEx, hm⟩
  · rintro ⟨x, sx, es, next, hx, hEx, hm⟩
    have hxρ : x ≠ ρ := by
      rintro rfl
      rw [hρ] at hx
      cases hx
    exact ⟨x, sx, es, next, by rw [Function.update_of_ne hxρ]; exact hx,
      by rw [Function.update_of_ne hxρ]; exact hEx, hm⟩

/-- New entries for the leaf that is responsible for a key decide that key;
the other keys of the leaf and the other leaves are as they were. -/
theorem Tree.represents_setLeaf (h : Tree E G row depth) {a : A} {sp : Span K}
    {es es' : List (K × V)} {next : Option A} {m m' : K → Option V} (hm : Represents E G m)
    (hG : G a = some sp) (hE : E a = some (.leaf es next)) (hs : SortedKeys es')
    (hin : ∀ e ∈ es', sp.Has e.1) (hlow : ∀ e ∈ es', Below E G a e.1)
    (hm' : ∀ k, ¬ sp.Has k → m' k = m k)
    (hes' : ∀ k v, sp.Has k → (m' k = some v ↔ (k, v) ∈ es')) :
    Represents (Function.update E a (some (.leaf es' next))) G m' := by
  have ht := h.setLeaf hG hE hs hin hlow
  intro k v
  by_cases hk : sp.Has k
  · rw [hes' k v hk, ht.holds_iff hG (Function.update_self ..) hk]
  · rw [hm' k hk, hm k v]
    have hne : ∀ {x sx esx nx}, G x = some sx → ∀ {F : Store K V A}, Tree F G row depth →
        F x = some (.leaf esx nx) → (k, v) ∈ esx → x ≠ a := by
      rintro x sx esx nx hx F hF hFx hmem rfl
      rw [hG] at hx
      cases hx
      exact hk ((hF.leafOk hG hFx).inside _ hmem)
    constructor
    · rintro ⟨x, sx, esx, nx, hx, hEx, hmem⟩
      exact ⟨x, sx, esx, nx, hx, by rw [Function.update_of_ne (hne hx h hEx hmem)]; exact hEx, hmem⟩
    · rintro ⟨x, sx, esx, nx, hx, hEx, hmem⟩
      rw [Function.update_of_ne (hne hx ht hEx hmem)] at hEx
      exact ⟨x, sx, esx, nx, hx, hEx, hmem⟩

/-- **Setting an entry in the responsible leaf** binds that key. -/
theorem Tree.setEntry (h : Tree E G row depth) {a : A} {sp : Span K}
    {es : List (K × V)} {next : Option A} {m : K → Option V} {k : K} {v : V}
    (hm : Represents E G m) (hG : G a = some sp) (hE : E a = some (.leaf es next))
    (hk : sp.Has k) (hB : Below E G a k) :
    Tree (Function.update E a (some (.leaf (setEntry k v es) next))) G row depth
      ∧ Represents (Function.update E a (some (.leaf (RangeTree.setEntry k v es) next))) G
          (Function.update m k (some v)) := by
  have hok := h.leafOk hG hE
  have hs := hok.sorted.setEntry k v
  have hin : ∀ e ∈ RangeTree.setEntry k v es, sp.Has e.1 := by
    intro e he
    rcases mem_setEntry.1 he with rfl | ⟨-, he⟩
    · exact hk
    · exact hok.inside e he
  have hlow : ∀ e ∈ RangeTree.setEntry k v es, Below E G a e.1 := by
    intro e he
    rcases mem_setEntry.1 he with rfl | ⟨-, he⟩
    · exact hB
    · exact h.below_of_keys hE (List.mem_map_of_mem he)
  refine ⟨h.setLeaf hG hE hs hin hlow,
    h.represents_setLeaf hm hG hE hs hin hlow ?_ ?_⟩
  · rintro k' hk'
    rw [Function.update_of_ne]
    rintro rfl
    exact hk' hk
  · intro k' v' hk'
    rw [mem_setEntry]
    by_cases hkk : k' = k
    · subst hkk
      simp [eq_comm]
    · rw [Function.update_of_ne hkk, hm, h.holds_iff hG hE hk']
      simp [hkk]

/-- **Removing an entry from the responsible leaf** unbinds that key. -/
theorem Tree.eraseEntry (h : Tree E G row depth) {a : A} {sp : Span K}
    {es : List (K × V)} {next : Option A} {m : K → Option V} {k : K}
    (hm : Represents E G m) (hG : G a = some sp) (hE : E a = some (.leaf es next))
    (hk : sp.Has k) :
    Tree (Function.update E a (some (.leaf (eraseEntry k es) next))) G row depth
      ∧ Represents (Function.update E a (some (.leaf (RangeTree.eraseEntry k es) next))) G
          (Function.update m k none) := by
  have hok := h.leafOk hG hE
  have hs := hok.sorted.eraseEntry k
  have hin : ∀ e ∈ RangeTree.eraseEntry k es, sp.Has e.1 :=
    fun e he => hok.inside e (mem_eraseEntry.1 he).2
  have hlow : ∀ e ∈ RangeTree.eraseEntry k es, Below E G a e.1 :=
    fun e he => h.below_of_keys hE (List.mem_map_of_mem (mem_eraseEntry.1 he).2)
  refine ⟨h.setLeaf hG hE hs hin hlow,
    h.represents_setLeaf hm hG hE hs hin hlow ?_ ?_⟩
  · rintro k' hk'
    rw [Function.update_of_ne]
    rintro rfl
    exact hk' hk
  · intro k' v' hk'
    rw [mem_eraseEntry]
    by_cases hkk : k' = k
    · subst hkk
      simp
    · rw [Function.update_of_ne hkk, hm, h.holds_iff hG hE hk']
      simp [hkk]

/-- Cutting a cell moves entries, and changes none. -/
theorem Tree.holds_split (h : Tree E G row depth) {o : Option A} {xs ys : List (K × A)}
    {ka b : K} {a r : A} {sp : Span K} {sh shL shR : Shape K V A} {k : K} {v : V}
    (ho : IsRow E G row o (xs ++ (ka, a) :: ys)) (hGa : G a = some sp) (hEa : E a = some sh)
    (hhalf : Halves r b sh shL shR) (hr : G r = none) (slots : List (K × A)) :
    Holds (splitStore E o a r shL shR slots) (cutPlan G a r sp.level sp.lo sp.hi b) k v
      ↔ Holds E G k v := by
  have hra : r ≠ a := by rintro rfl; rw [hr] at hGa; cases hGa
  have hoa := h.owner_ne ho
  have hor := ho.ne_fresh hr
  have hown : ∀ {x}, o = some x → ∃ sl, E x = some (.inner sl) := by
    rintro x rfl
    exact ⟨_, ho.2⟩
  constructor
  · rintro ⟨x, sx, es, next, hx, hEx, hm⟩
    by_cases hxa : x = a
    · subst hxa
      rw [splitStore_left hoa hra] at hEx
      cases hhalf with
      | leaf hL => cases hEx; exact ⟨x, sp, _, _, hGa, hEa, List.mem_append_left _ hm⟩
      | inner hL => cases hEx
    · by_cases hxr : x = r
      · subst hxr
        rw [splitStore_right hor] at hEx
        cases hhalf with
        | leaf hL => cases hEx; exact ⟨a, sp, _, _, hGa, hEa, List.mem_append_right _ hm⟩
        | inner hL => cases hEx
      · by_cases hxo : o = some x
        · subst hxo
          rw [splitStore_row] at hEx
          cases hEx
        · rw [splitStore_other hxa hxr hxo] at hEx
          rw [cutPlan_other hxa hxr] at hx
          exact ⟨x, sx, es, next, hx, hEx, hm⟩
  · rintro ⟨x, sx, es, next, hx, hEx, hm⟩
    have hxr : x ≠ r := by rintro rfl; rw [hr] at hx; cases hx
    by_cases hxa : x = a
    · subst hxa
      rw [hEa] at hEx
      cases hEx
      cases hhalf with
      | leaf hL =>
          rcases List.mem_append.1 hm with hm | hm
          · exact ⟨x, _, _, _, cutPlan_left hra, splitStore_left hoa hra, hm⟩
          · exact ⟨r, _, _, _, cutPlan_right, splitStore_right hor, hm⟩
    · have hxo : o ≠ some x := by
        intro he
        obtain ⟨sl, hsl⟩ := hown he
        rw [hsl] at hEx
        cases hEx
      exact ⟨x, sx, es, next, by rw [cutPlan_other hxa hxr]; exact hx,
        by rw [splitStore_other hxa hxr hxo]; exact hEx, hm⟩

/-- **A new root over the two halves of the root**, cut and linked at once. -/
theorem Tree.growSplit {κ k₀ b : K} {a r ρ : A} {sh shL shR : Shape K V A}
    (ht : Tree E G [(κ, a)] depth) (hEa : E a = some sh) (hhalf : Halves r b sh shL shR)
    (hr : G r = none) (hρ : G ρ = none) (hrρ : r ≠ ρ) (hk₀ : k₀ ∈ shL.keys)
    (hmin : ∀ x ∈ shL.keys, k₀ ≤ x) :
    Tree (Function.update (splitStore E none a r shL shR []) ρ (some (.inner [(k₀, a), (b, r)])))
        (Function.update (cutPlan G a r depth ⊥ ⊤ b) ρ (some ⟨depth + 1, ⊥, ⊤⟩)) [(k₀, ρ)]
        (depth + 1)
      ∧ ∀ k v, Holds (Function.update (splitStore E none a r shL shR []) ρ
            (some (.inner [(k₀, a), (b, r)])))
          (Function.update (cutPlan G a r depth ⊥ ⊤ b) ρ (some ⟨depth + 1, ⊥, ⊤⟩)) k v
        ↔ Holds E G k v := by
  have hGa : G a = some ⟨depth, ⊥, ⊤⟩ := ht.top.2
  have hra : r ≠ a := by rintro rfl; rw [hr] at hGa; cases hGa
  have hρa : ρ ≠ a := by rintro rfl; rw [hρ] at hGa; cases hGa
  have hrow : IsRow E G [(κ, a)] none ([] ++ (κ, a) :: []) := rfl
  have hok := ht.nodeOk hGa hEa
  have hlt := hhalf.keys_lt hok
  have hs : Tree (splitStore E none a r shL shR []) (cutPlan G a r depth ⊥ ⊤ b)
      [(κ, a), (b, r)] depth := ht.split hrow hGa hEa hhalf hr
  have hρ' : cutPlan G a r depth ⊥ ⊤ b ρ = none := (cutPlan_other hρa hrρ.symm).trans hρ
  have hlow : ∀ s ∈ [(k₀, a), (b, r)], LowKey (splitStore E none a r shL shR []) s.1 s.2 := by
    intro s hs
    simp only [List.mem_cons, List.not_mem_nil, or_false] at hs
    rcases hs with rfl | rfl
    · intro sh' hsh' x hx
      rw [splitStore_left (o := none) nofun hra] at hsh'
      cases hsh'
      exact hmin x hx
    · intro sh' hsh' x hx
      rw [splitStore_right (o := none) nofun] at hsh'
      cases hsh'
      exact hlt.2 x hx
  have hsort : SortedKeys [(k₀, a), (b, r)] := by
    rw [sortedKeys_cons]
    exact ⟨by simpa using hlt.1 k₀ hk₀, sortedKeys_singleton _⟩
  refine ⟨hs.grow hρ' (ht.level_pos hGa) hsort hlow, fun k v => ?_⟩
  rw [holds_grow hρ']
  exact ht.holds_split hrow hGa hEa hhalf hr _

end RangeTree
