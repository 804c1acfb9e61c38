/-
  NvmTree.RangeTree.Edge — the first keys along the left edge.

  Away from the left edge an inner cell's first key is where its span starts
  (`InnerOk.head`).  On the left edge the span starts at `⊥`; there the inner
  cells of all levels share one first key, and an insertion below it lowers them
  from the top down.  `EdgeAt E G n κ₁ κ₂` is the state in between: `κ₁` above
  level `n`, still `κ₂` from level `n` on.

  Main results: the edge is kept by the steps of `Update` and `Merge`.
-/
import NvmTree.RangeTree.Merge

namespace RangeTree

variable {K V A : Type*} [LinearOrder K]

/-- The first keys on the left edge: `κ₁` above level `n`, `κ₂` up to it. -/
def EdgeAt (E : Store K V A) (G : Plan K A) (n : Nat) (κ₁ κ₂ : K) : Prop :=
  ∀ x sx k c rest, G x = some sx → sx.lo = ⊥ → E x = some (.inner ((k, c) :: rest)) →
    k = if sx.level ≤ n then κ₂ else κ₁

/-- One first key on the whole left edge. -/
def Edge (E : Store K V A) (G : Plan K A) (κ : K) : Prop :=
  ∀ x sx k c rest, G x = some sx → sx.lo = ⊥ → E x = some (.inner ((k, c) :: rest)) → k = κ

variable {E : Store K V A} {G : Plan K A} {row : List (K × A)} {depth n : Nat} {κ κ₁ κ₂ : K}

/-- No inner cell is at level 1. -/
theorem EdgeAt.edge (h : EdgeAt E G 1 κ₁ κ₂) (ht : Tree E G row depth) : Edge E G κ₁ := by
  intro x sx k c rest hx hlo hE
  have hl := (ht.innerOk hx hE).level
  rw [h _ _ _ _ _ hx hlo hE, if_neg (by omega)]

omit [LinearOrder K] in
theorem Edge.congr {E' : Store K V A} (h : Edge E G κ)
    (hE : ∀ x sx, G x = some sx → E' x = E x) : Edge E' G κ := by
  intro x sx k c rest hx hlo hEx
  exact h x sx k c rest hx hlo ((hE x sx hx) ▸ hEx)

/-- With one first key on the left edge, every cell of a row shows keys below
the next slot's key. -/
theorem Edge.keys_lt (h : Edge E G κ) (ht : Tree E G row depth) {p a r : A} {sq : Span K}
    {xs ys : List (K × A)} {ka b : K} (hp : G p = some sq)
    (hEp : E p = some (.inner (xs ++ (ka, a) :: (b, r) :: ys))) {sh : Shape K V A}
    (hEa : E a = some sh) : ∀ x ∈ sh.keys, x < b := by
  have hin := ht.innerOk hp hEp
  obtain ⟨la, ha, hGa, -, hlab, -⟩ := hin.covers.neighbours
  have hkab : ka < b := (sortedKeys_cons.1 (sortedKeys_append.1 hin.sorted).2.1).1 (b, r) (by simp)
  have hok := ht.nodeOk hGa hEa
  cases sh with
  | leaf es next =>
      intro x hx
      obtain ⟨e, he, rfl⟩ := List.mem_map.1 hx
      exact key_lt_key.1 (hok.inside e he).2
  | inner slots =>
      obtain ⟨⟨k₀, c₀⟩, rest, rfl⟩ := List.exists_cons_of_ne_nil hok.covers.ne_nil
      intro x hx
      simp only [Shape.keys, List.map_cons, List.mem_cons] at hx
      rcases hx with rfl | hx
      · rcases hok.head with hbot | ⟨k', c', rest', heq, hlo⟩
        · -- on the left edge the row's first slot has the same key
          have hx := h _ _ _ _ _ hGa hbot hEa
          have hsq : sq.lo = ⊥ := by
            obtain ⟨sc, hc, -, hle, -⟩ := ht.child hp hEp (show (ka, a) ∈ _ by simp)
            rw [hGa] at hc
            cases hc
            rw [hbot] at hle
            exact le_bot_iff.1 hle
          cases xs with
          | nil => rw [hx, ← h _ _ _ _ _ hp hsq hEp]; exact hkab
          | cons s xs =>
              obtain ⟨ks, cs⟩ := s
              rw [hx, ← h _ _ _ _ _ hp hsq hEp]
              exact (((sortedKeys_append.1 hin.sorted).2.2 (ks, cs) (by simp) (ka, a)
                (by simp))).trans hkab
        · have heq' := (List.cons.inj heq).1
          cases heq'
          rw [← key_lt_key, ← hlo]
          exact hlab
      · obtain ⟨s, hs, rfl⟩ := List.mem_map.1 hx
        exact key_lt_key.1 (hok.covers.tail_lt s hs)

variable [DecidableEq A]

omit [LinearOrder K] in
theorem Edge.setLeaf (h : Edge E G κ) {a : A} {es : List (K × V)} {next : Option A} :
    Edge (Function.update E a (some (.leaf es next))) G κ := by
  intro x sx k c rest hx hlo hE
  have hxa : x ≠ a := by
    rintro rfl
    rw [Function.update_self] at hE
    cases hE
  rw [Function.update_of_ne hxa] at hE
  exact h _ _ _ _ _ hx hlo hE

/-- Lowering the cell of level `n + 1` moves the state one level down. -/
theorem EdgeAt.lower (h : EdgeAt E G (n + 1) κ₁ κ₂) (ht : Tree E G row depth) {p c : A}
    {sp : Span K} {k k₀ : K} {rest : List (K × A)} (hG : G p = some sp)
    (hl : sp.level = n + 1) (hlo : sp.lo = ⊥) (hk : k = κ₁)
    (hE : E p = some (.inner ((k₀, c) :: rest))) :
    EdgeAt (Function.update E p (some (.inner ((k, c) :: rest)))) G n κ₁ κ₂ := by
  intro x sx k' c' rest' hx hlox hEx
  by_cases hxp : x = p
  · subst hxp
    rw [hG] at hx
    cases hx
    rw [Function.update_self] at hEx
    cases hEx
    rw [if_neg (by omega)]
    exact hk
  · rw [Function.update_of_ne hxp] at hEx
    rw [h _ _ _ _ _ hx hlox hEx]
    by_cases hle : sx.level ≤ n
    · rw [if_pos hle, if_pos (by omega)]
    · rw [if_neg hle]
      by_cases hlx : sx.level = n + 1
      · exact absurd (ht.eq_of_lo hx hG (by rw [hlx, hl]) (by rw [hlox, hlo])) hxp
      · rw [if_neg (by omega)]

/-- Cutting a cell leaves the edge with the lower half. -/
theorem Edge.split (h : Edge E G κ) (ht : Tree E G row depth) {o : Option A}
    {xs ys : List (K × A)} {ka b : K} {a r : A} {sp : Span K} {sh shL shR : Shape K V A}
    (ho : IsRow E G row o (xs ++ (ka, a) :: ys)) (hGa : G a = some sp) (hEa : E a = some sh)
    (hhalf : Halves r b sh shL shR) (hr : G r = none) :
    Edge (splitStore E o a r shL shR (xs ++ (ka, a) :: (b, r) :: ys))
      (cutPlan G a r sp.level sp.lo sp.hi b) κ := by
  have hra : r ≠ a := by rintro rfl; rw [hr] at hGa; cases hGa
  have hoa := ht.owner_ne ho
  have hor := ho.ne_fresh hr
  intro x sx k c rest hx hlo hE
  by_cases hxa : x = a
  · subst hxa
    rw [splitStore_left hoa hra] at hE
    rw [cutPlan_left hra] at hx
    cases hx
    cases hhalf with
    | leaf hL => cases hE
    | inner hL => cases hE; exact h _ _ _ _ _ hGa hlo hEa
  · by_cases hxr : x = r
    · subst hxr
      rw [cutPlan_right] at hx
      cases hx
      exact absurd hlo (by simp)
    · rw [cutPlan_other hxa hxr] at hx
      by_cases hxo : o = some x
      · -- the row got a slot after its first one
        subst hxo
        obtain ⟨-, hEx⟩ := ho
        rw [splitStore_row] at hE
        cases xs with
        | nil => cases hE; exact h _ _ _ _ _ hx hlo hEx
        | cons x' xs' => cases hE; exact h _ _ _ _ _ hx hlo hEx
      · rw [splitStore_other hxa hxr hxo] at hE
        exact h _ _ _ _ _ hx hlo hE

/-- Joining two neighbours leaves the edge alone. -/
theorem Edge.merge (h : Edge E G κ) {p a r : A} {sq : Span K} {xs ys : List (K × A)} {ka b : K}
    {la ha : Bound K} {l : Nat} {shL shR sh : Shape K V A} (hp : G p = some sq)
    (hEp : E p = some (.inner (xs ++ (ka, a) :: (b, r) :: ys))) (hGa : G a = some ⟨l, la, key b⟩)
    (hEa : E a = some shL) (hj : Joined shL shR sh) (ht : Tree E G row depth) (hra : r ≠ a) :
    Edge (mergeStore E p a sh (xs ++ (ka, a) :: ys)) (joinPlan G a r l la ha) κ := by
  have hpa : a ≠ p := ht.child_ne hp hEp (show (ka, a) ∈ _ by simp)
  intro x sx k c rest hx hlo hE
  by_cases hxa : x = a
  · subst hxa
    rw [mergeStore_left hpa] at hE
    rw [joinPlan_left hra] at hx
    cases hx
    cases hj with
    | leaf => cases hE
    | @inner L R =>
        obtain ⟨s, L', rfl⟩ := List.exists_cons_of_ne_nil (ht.innerOk hGa hEa).covers.ne_nil
        cases hE
        exact h _ _ _ _ _ hGa hlo hEa
  · have hxr : x ≠ r := by
      rintro rfl
      rw [joinPlan_right] at hx
      cases hx
    rw [joinPlan_other hxa hxr] at hx
    by_cases hxp : x = p
    · subst hxp
      rw [mergeStore_row] at hE
      cases xs with
      | nil => cases hE; exact h _ _ _ _ _ hx hlo hEp
      | cons x' xs' => cases hE; exact h _ _ _ _ _ hx hlo hEp
    · rw [mergeStore_other hxa hxp] at hE
      exact h _ _ _ _ _ hx hlo hE

/-- Moving the boundary between two neighbours leaves the edge alone. -/
theorem Edge.shift (h : Edge E G κ) (ht : Tree E G row depth) {p a r : A} {sq : Span K}
    {xs ys : List (K × A)} {ka b b' : K} {la ha : Bound K} {l : Nat}
    {shL shR sh shL' shR' : Shape K V A} (hp : G p = some sq)
    (hEp : E p = some (.inner (xs ++ (ka, a) :: (b, r) :: ys))) (hGa : G a = some ⟨l, la, key b⟩)
    (hGr : G r = some ⟨l, key b, ha⟩) (hEa : E a = some shL) (hEr : E r = some shR)
    (hj : Joined shL shR sh) (hhalf : Halves r b' sh shL' shR') :
    Edge (splitStore E (some p) a r shL' shR' (xs ++ (ka, a) :: (b', r) :: ys))
      (cutPlan (joinPlan G a r l la ha) a r l la ha b') κ := by
  have hlab := ht.lo_lt_hi hGa
  have hra : r ≠ a := by
    rintro rfl
    rw [hGa] at hGr
    cases hGr
    exact absurd hlab (lt_irrefl _)
  have hpa : a ≠ p := ht.child_ne hp hEp (show (ka, a) ∈ _ by simp)
  have hpr : r ≠ p := ht.child_ne hp hEp (show (b, r) ∈ _ by simp)
  have hlt := h.keys_lt ht hp hEp hEa
  have ho : IsRow (mergeStore E p a sh (xs ++ (ka, a) :: ys)) (joinPlan G a r l la ha) row (some p)
      (xs ++ (ka, a) :: ys) :=
    ⟨⟨sq, by rw [joinPlan_other hpa.symm hpr.symm]; exact hp⟩, mergeStore_row⟩
  rw [← splitStore_mergeStore]
  exact (h.merge hp hEp hGa hEa hj ht hra).split (ht.merge hp hEp hGa hGr hEa hEr hj hlt) ho
    (joinPlan_left hra) (mergeStore_left hpa) hhalf joinPlan_right

end RangeTree
