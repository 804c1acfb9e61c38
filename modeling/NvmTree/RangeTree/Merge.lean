/-
  NvmTree.RangeTree.Merge — the steps by which a deletion changes a tree.

    * `Tree.merge`    — two neighbours of one row become one cell, and the slot
      of the right one goes;
    * `Tree.collapse` — a root with one child gives way to the child.

  Moving entries between two neighbours (`Tree.shift`) is a merge followed by a
  `Tree.split` at another key.
-/
import NvmTree.RangeTree.Update

namespace RangeTree

variable {K V A : Type*} [LinearOrder K] [DecidableEq A]
variable {E : Store K V A} {G : Plan K A} {row : List (K × A)} {depth : Nat}

/-! ## §1. Joining two neighbours. -/

/-- `sh` is what the cells `shL` and `shR` hold together. -/
inductive Joined : Shape K V A → Shape K V A → Shape K V A → Prop
  | leaf {L R : List (K × V)} {n n' : Option A} :
      Joined (.leaf L n) (.leaf R n') (.leaf (L ++ R) n')
  | inner {L R : List (K × A)} : Joined (.inner L) (.inner R) (.inner (L ++ R))

omit [LinearOrder K] [DecidableEq A] in
theorem Joined.keys {shL shR sh : Shape K V A} (h : Joined shL shR sh) :
    sh.keys = shL.keys ++ shR.keys := by
  cases h with
  | leaf => simp [Shape.keys]
  | inner => simp [Shape.keys]

/-- The plan after `r` gave its span to `a`. -/
def joinPlan (G : Plan K A) (a r : A) (l : Nat) (la hr : Bound K) : Plan K A :=
  Function.update (Function.update G a (some ⟨l, la, hr⟩)) r none

section Join

variable {a r : A} {l : Nat} {la ha : Bound K} {b : K}

omit [LinearOrder K] in
theorem joinPlan_left (hra : r ≠ a) : joinPlan G a r l la ha a = some ⟨l, la, ha⟩ := by
  simp [joinPlan, Function.update_of_ne hra.symm]

omit [LinearOrder K] in
theorem joinPlan_right : joinPlan G a r l la ha r = none := by
  simp [joinPlan]

omit [LinearOrder K] in
theorem joinPlan_other {x : A} (hxa : x ≠ a) (hxr : x ≠ r) : joinPlan G a r l la ha x = G x := by
  simp [joinPlan, Function.update_of_ne hxa, Function.update_of_ne hxr]

omit [DecidableEq A] in
/-- Two neighbours of a row meet at the key of the right slot. -/
theorem Covers.neighbours {ka : K} {ys : List (K × A)} {hi : Bound K} :
    ∀ {xs : List (K × A)} {lo : Bound K}, Covers G l lo hi (xs ++ (ka, a) :: (b, r) :: ys) →
      ∃ la ha, G a = some ⟨l, la, key b⟩ ∧ G r = some ⟨l, key b, ha⟩ ∧ la < key b
        ∧ key b < ha := by
  have hhead : ∀ {lo : Bound K}, Covers G l lo hi ((ka, a) :: (b, r) :: ys) →
      ∃ la ha, G a = some ⟨l, la, key b⟩ ∧ G r = some ⟨l, key b, ha⟩ ∧ la < key b
        ∧ key b < ha := by
    intro lo hc
    obtain ⟨h1, h2, h3⟩ := hc
    cases ys with
    | nil => exact ⟨lo, hi, h2, h3.2, h1, h3.1⟩
    | cons s rest => exact ⟨lo, key s.1, h2, h3.2.1, h1, h3.1⟩
  intro xs lo hc
  cases xs with
  | nil => exact hhead hc
  | cons x xs =>
      have hc' : Covers G l lo hi ((x :: xs) ++ (ka, a) :: (b, r) :: ys) := hc
      rw [covers_append (by simp)] at hc'
      exact hhead hc'.2

/-- Joining two neighbours keeps the row a tiling. -/
theorem covers_join {ka : K} {ys : List (K × A)} {hi : Bound K} (hra : r ≠ a)
    (hGa : G a = some ⟨l, la, key b⟩) (hGr : G r = some ⟨l, key b, ha⟩) :
    ∀ {xs : List (K × A)} {lo : Bound K}, Covers G l lo hi (xs ++ (ka, a) :: (b, r) :: ys) →
      Covers (joinPlan G a r l la ha) l lo hi (xs ++ (ka, a) :: ys) := by
  intro xs lo hc
  have hnd := hc.nodup
  simp only [List.map_append, List.map_cons] at hnd
  have hna := List.nodup_cons.1 (List.nodup_middle.1 hnd)
  have hnr : r ∉ xs.map Prod.snd ++ ys.map Prod.snd := by
    have := List.nodup_cons.1 (List.nodup_middle.1 hna.2)
    exact this.1
  have hna' : a ∉ xs.map Prod.snd ++ ys.map Prod.snd := by
    intro hm
    apply hna.1
    rcases List.mem_append.1 hm with hm | hm
    · exact List.mem_append_left _ hm
    · exact List.mem_append_right _ (List.mem_cons_of_mem _ hm)
  have hkeep : ∀ s : K × A, (s ∈ xs ∨ s ∈ ys) → joinPlan G a r l la ha s.2 = G s.2 := by
    intro s hs
    have hmem : s.2 ∈ xs.map Prod.snd ++ ys.map Prod.snd := by
      rcases hs with hs | hs
      · exact List.mem_append_left _ (List.mem_map_of_mem hs)
      · exact List.mem_append_right _ (List.mem_map_of_mem hs)
    exact joinPlan_other (fun he => hna' (he ▸ hmem)) (fun he => hnr (he ▸ hmem))
  have htail : ∀ {lo : Bound K}, Covers G l lo hi ((ka, a) :: (b, r) :: ys) →
      Covers (joinPlan G a r l la ha) l lo hi ((ka, a) :: ys) := by
    intro lo hc
    obtain ⟨h1, h2, h3⟩ := hc
    rw [hGa] at h2
    cases h2
    cases ys with
    | nil =>
        obtain ⟨h4, h5⟩ := h3
        rw [hGr] at h5
        cases h5
        exact ⟨h1.trans h4, joinPlan_left hra⟩
    | cons s rest =>
        obtain ⟨h4, h5, h6⟩ := h3
        rw [hGr] at h5
        cases h5
        exact ⟨h1.trans h4, joinPlan_left hra,
          h6.congr (fun x y hm => hkeep (x, y) (Or.inr hm))⟩
  cases xs with
  | nil => exact htail hc
  | cons x xs =>
      have hc' : Covers G l lo hi ((x :: xs) ++ (ka, a) :: (b, r) :: ys) := hc
      rw [covers_append (by simp)] at hc'
      show Covers _ l lo hi ((x :: xs) ++ (ka, a) :: ys)
      rw [covers_append (by simp)]
      exact ⟨hc'.1.congr (fun k c hm => hkeep (k, c) (Or.inl hm)), htail hc'.2⟩

end Join

/-- The store after `a` took over its right neighbour, in the row of `p`. -/
def mergeStore (E : Store K V A) (p a : A) (sh : Shape K V A) (slots : List (K × A)) :
    Store K V A :=
  Function.update (Function.update E a (some sh)) p (some (.inner slots))

section Merge

variable {p a r : A} {sq : Span K} {xs ys : List (K × A)} {ka b : K} {la ha : Bound K} {l : Nat}
  {shL shR sh : Shape K V A}

omit [LinearOrder K] in
theorem mergeStore_left {slots : List (K × A)} (hpa : a ≠ p) :
    mergeStore E p a sh slots a = some sh := by
  simp [mergeStore, Function.update_of_ne hpa]

omit [LinearOrder K] in
theorem mergeStore_row {slots : List (K × A)} :
    mergeStore E p a sh slots p = some (.inner slots) := by
  simp [mergeStore]

omit [LinearOrder K] in
theorem mergeStore_other {slots : List (K × A)} {x : A} (hxa : x ≠ a) (hxp : x ≠ p) :
    mergeStore E p a sh slots x = E x := by
  simp [mergeStore, Function.update_of_ne hxa, Function.update_of_ne hxp]

/-- The slots of every cell but the shrunken row stay low. -/
theorem Tree.merge_low (h : Tree E G row depth) (hp : G p = some sq)
    (hEp : E p = some (.inner (xs ++ (ka, a) :: (b, r) :: ys))) {x : A} {sx : Span K}
    {sl : List (K × A)} (hx : G x = some sx) (hEx : E x = some (.inner sl)) (hxp : x ≠ p) {k : K}
    {c : A} (hm : (k, c) ∈ sl) (hlow : LowKey E k c) :
    LowKey (mergeStore E p a sh (xs ++ (ka, a) :: ys)) k c := by
  have hca : c ≠ a := by
    rintro rfl
    exact hxp (h.parent_unique hx hp hEx hEp hm (show (ka, c) ∈ _ by simp))
  by_cases hcp : c = p
  · subst hcp
    intro sh' hsh' y hy
    rw [mergeStore_row] at hsh'
    cases hsh'
    refine hlow _ hEp y ?_
    simp only [Shape.keys, List.map_append, List.map_cons, List.mem_append, List.mem_cons] at hy ⊢
    tauto
  · unfold LowKey
    rw [mergeStore_other hca hcp]
    exact hlow

/-- Children of cells other than the row keep their place. -/
theorem Tree.join_child (h : Tree E G row depth) (hp : G p = some sq)
    (hEp : E p = some (.inner (xs ++ (ka, a) :: (b, r) :: ys))) {x : A} {sx : Span K}
    {sl : List (K × A)} (hx : G x = some sx) (hEx : E x = some (.inner sl)) (hxp : x ≠ p) {k : K}
    {c : A} (hm : (k, c) ∈ sl) : joinPlan G a r l la ha c = G c := by
  refine joinPlan_other ?_ ?_
  · rintro rfl
    exact hxp (h.parent_unique hx hp hEx hEp hm (show (ka, c) ∈ _ by simp))
  · rintro rfl
    exact hxp (h.parent_unique hx hp hEx hEp hm (show (b, c) ∈ _ by simp))

/-- The joined cell is well formed. -/
theorem Tree.merge_joined (h : Tree E G row depth) (hp : G p = some sq)
    (hEp : E p = some (.inner (xs ++ (ka, a) :: (b, r) :: ys))) (hGa : G a = some ⟨l, la, key b⟩)
    (hGr : G r = some ⟨l, key b, ha⟩) (hEa : E a = some shL) (hEr : E r = some shR)
    (hj : Joined shL shR sh) (hlt : ∀ x ∈ shL.keys, x < b) :
    NodeOk (mergeStore E p a sh (xs ++ (ka, a) :: ys)) (joinPlan G a r l la ha) ⟨l, la, ha⟩ sh := by
  have hokL := h.nodeOk hGa hEa
  have hokR := h.nodeOk hGr hEr
  have hlab := h.lo_lt_hi hGa
  have hbha := h.lo_lt_hi hGr
  have hpa : a ≠ p := h.child_ne hp hEp (show (ka, a) ∈ _ by simp)
  have hpr : r ≠ p := h.child_ne hp hEp (show (b, r) ∈ _ by simp)
  cases hj with
  | @leaf L R n n' =>
      have hge : ∀ e ∈ R, b ≤ e.1 := fun e he => key_le_key.1 (hokR.inside e he).1
      refine ⟨hokL.level, ?_, ?_, ?_⟩
      · rw [sortedKeys_append]
        refine ⟨hokL.sorted, hokR.sorted, fun x hx y hy => ?_⟩
        exact (hlt x.1 (List.mem_map_of_mem hx)).trans_le (hge y hy)
      · intro e he
        rcases List.mem_append.1 he with he | he
        · exact ⟨(hokL.inside e he).1, (hokL.inside e he).2.trans hbha⟩
        · exact ⟨hlab.le.trans (hokR.inside e he).1, (hokR.inside e he).2⟩
      · have hn := hokR.next
        cases n' with
        | none => exact hn
        | some y =>
            -- the next leaf starts where `r` ends: it is neither `a` nor `r`
            obtain ⟨hi', hy⟩ := hn
            refine ⟨hi', ?_⟩
            rw [joinPlan_other ?_ ?_]
            · exact hy
            · rintro rfl
              rw [hGa] at hy
              cases hy
              exact absurd (hlab.trans hbha) (lt_irrefl _)
            · rintro rfl
              rw [hGr] at hy
              cases hy
              exact absurd hbha (lt_irrefl _)
  | @inner L R =>
      obtain ⟨k', c', R', rfl, hkb⟩ : ∃ k' c' R', R = (k', c') :: R' ∧ key b = key k' := by
        rcases hokR.head with hbot | hh
        · exact absurd hbot (by simp)
        · exact hh
      rw [key_inj] at hkb
      subst hkb
      have hge : ∀ s ∈ (b, c') :: R', b ≤ s.1 := by
        intro s hs
        rcases List.mem_cons.1 hs with rfl | hs
        · exact le_rfl
        · exact ((sortedKeys_cons.1 hokR.sorted).1 s hs).le
      have hL : L ≠ [] := hokL.covers.ne_nil
      refine ⟨hokL.level, ?_, ?_, ?_, ?_⟩
      · rw [sortedKeys_append]
        refine ⟨hokL.sorted, hokR.sorted, fun x hx y hy => ?_⟩
        exact (hlt x.1 (List.mem_map_of_mem hx)).trans_le (hge y hy)
      · rw [covers_append hL]
        exact ⟨hokL.covers.congr (fun k c hm => h.join_child hp hEp hGa hEa hpa hm),
          hokR.covers.congr (fun k c hm => h.join_child hp hEp hGr hEr hpr hm)⟩
      · rcases hokL.head with hbot | ⟨k', c', rest', rfl, hlo⟩
        · exact Or.inl hbot
        · exact Or.inr ⟨k', c', _, rfl, hlo⟩
      · intro s hs
        rcases List.mem_append.1 hs with hs | hs
        · exact h.merge_low hp hEp hGa hEa hpa hs (hokL.low s hs)
        · exact h.merge_low hp hEp hGr hEr hpr hs (hokR.low s hs)

/-- The shrunken row is well formed. -/
theorem Tree.merge_owner (h : Tree E G row depth) (hp : G p = some sq)
    (hEp : E p = some (.inner (xs ++ (ka, a) :: (b, r) :: ys))) (hGa : G a = some ⟨l, la, key b⟩)
    (hGr : G r = some ⟨l, key b, ha⟩) (hEa : E a = some shL) (hEr : E r = some shR)
    (hj : Joined shL shR sh) (hra : r ≠ a) :
    InnerOk (mergeStore E p a sh (xs ++ (ka, a) :: ys)) (joinPlan G a r l la ha) sq
      (xs ++ (ka, a) :: ys) := by
  have hix := h.innerOk hp hEp
  have hpa : a ≠ p := h.child_ne hp hEp (show (ka, a) ∈ _ by simp)
  have hl : sq.level - 1 = l := by
    obtain ⟨sc, hc, hl, -⟩ := h.child hp hEp (show (ka, a) ∈ _ by simp)
    rw [hGa] at hc
    cases hc
    simp only at hl
    omega
  have hsub : List.Sublist (xs ++ (ka, a) :: ys) (xs ++ (ka, a) :: (b, r) :: ys) :=
    List.Sublist.append_left ((List.sublist_cons_self _ _).cons_cons _) _
  refine ⟨hix.level, List.Pairwise.sublist hsub hix.sorted, ?_, ?_, ?_⟩
  · have hc := hix.covers
    rw [hl] at hc ⊢
    exact covers_join hra hGa hGr hc
  · rcases hix.head with hbot | ⟨k', c', rest', heq, hlo⟩
    · exact Or.inl hbot
    · cases xs with
      | nil =>
          have heq' := (List.cons.inj heq).1
          cases heq'
          exact Or.inr ⟨_, _, _, rfl, hlo⟩
      | cons x' xs' =>
          obtain ⟨rfl, -⟩ := List.cons.inj heq
          exact Or.inr ⟨_, _, _, rfl, hlo⟩
  · rintro ⟨k, c⟩ hs
    have hs' := hsub.subset hs
    by_cases hca : c = a
    · -- the joined cell shows the keys of both, and those of `r` are above
      subst hca
      intro sh' hsh' y hy
      rw [mergeStore_left hpa] at hsh'
      cases hsh'
      rw [hj.keys] at hy
      rcases List.mem_append.1 hy with hy | hy
      · exact hix.low (k, c) hs' shL hEa y hy
      · have hby : b ≤ y := hix.low (b, r) (by simp) shR hEr y hy
        by_cases hne : k = ka
        · subst hne
          have hlt := (sortedKeys_append.1 hix.sorted).2.1
          exact ((sortedKeys_cons.1 hlt).1 (b, r) (by simp)).le.trans hby
        · -- one slot leads to `a`
          have hnd := hix.covers.nodup
          simp only [List.map_append, List.map_cons] at hnd
          have hna := (List.nodup_cons.1 (List.nodup_middle.1 hnd)).1
          exfalso
          apply hna
          rcases List.mem_append.1 hs with hs | hs
          · exact List.mem_append_left _ (List.mem_map_of_mem hs)
          · rcases List.mem_cons.1 hs with hs | hs
            · exact absurd (Prod.mk.inj hs).1 hne
            · exact List.mem_append_right _ (List.mem_cons_of_mem _ (List.mem_map_of_mem hs))
    · have hcp : c ≠ p := h.child_ne hp hEp hs'
      unfold LowKey
      rw [mergeStore_other hca hcp]
      exact hix.low (k, c) hs'

/-- **Joining two neighbours of a row.** -/
theorem Tree.merge (h : Tree E G row depth) (hp : G p = some sq)
    (hEp : E p = some (.inner (xs ++ (ka, a) :: (b, r) :: ys))) (hGa : G a = some ⟨l, la, key b⟩)
    (hGr : G r = some ⟨l, key b, ha⟩) (hEa : E a = some shL) (hEr : E r = some shR)
    (hj : Joined shL shR sh) (hlt : ∀ x ∈ shL.keys, x < b) :
    Tree (mergeStore E p a sh (xs ++ (ka, a) :: ys)) (joinPlan G a r l la ha) row depth := by
  have hlab := h.lo_lt_hi hGa
  have hbha := h.lo_lt_hi hGr
  have hra : r ≠ a := by
    rintro rfl
    rw [hGa] at hGr
    cases hGr
    exact absurd hlab (lt_irrefl _)
  have hpa : a ≠ p := h.child_ne hp hEp (show (ka, a) ∈ _ by simp)
  -- every span of the new plan is an old one, but for that of `a`
  have hinv : ∀ {x sx}, joinPlan G a r l la ha x = some sx →
      (x = a ∧ sx = ⟨l, la, ha⟩) ∨ (x ≠ a ∧ x ≠ r ∧ G x = some sx) := by
    intro x sx hx
    by_cases hxr : x = r
    · subst hxr; rw [joinPlan_right] at hx; cases hx
    · by_cases hxa : x = a
      · subst hxa
        rw [joinPlan_left hra] at hx
        exact Or.inl ⟨rfl, (Option.some.inj hx).symm⟩
      · rw [joinPlan_other hxa hxr] at hx
        exact Or.inr ⟨hxa, hxr, hx⟩
  have hapart : ∀ {x sx}, x ≠ a → x ≠ r → G x = some sx → l = sx.level →
      ha ≤ sx.lo ∨ sx.hi ≤ la := by
    intro x sx hxa hxr hx hl
    have hpos := h.lo_lt_hi hx
    rcases h.disjoint hGr hx hl hxr.symm with h1 | h1
    · exact Or.inl h1
    · rcases h.disjoint hGa hx hl hxa.symm with h2 | h2
      · exact absurd (hpos.trans_le h1) (not_lt.2 h2)
      · exact Or.inr h2
  refine ⟨?_, ?_, ?_, ?_, ?_⟩
  · refine h.top.congr (fun k c hm => joinPlan_other ?_ ?_)
    · rintro rfl
      exact h.top_not_child hp hEp hm (show (ka, c) ∈ _ by simp)
    · rintro rfl
      exact h.top_not_child hp hEp hm (show (b, c) ∈ _ by simp)
  · intro x sx hx
    rcases hinv hx with ⟨-, rfl⟩ | ⟨-, -, hx⟩
    · have := h.level_le hGa
      exact this
    · exact h.level_le hx
  · intro x sx hx
    rcases hinv hx with ⟨-, rfl⟩ | ⟨-, -, hx⟩
    · exact hlab.trans hbha
    · exact h.lo_lt_hi hx
  · intro x y sx sy hx hy hl hne
    rcases hinv hx with ⟨rfl, rfl⟩ | ⟨hxa, hxr, hx'⟩ <;>
      rcases hinv hy with ⟨rfl, rfl⟩ | ⟨hya, hyr, hy'⟩
    · exact absurd rfl hne
    · exact hapart hya hyr hy' hl
    · exact (hapart hxa hxr hx' hl.symm).symm
    · exact h.disjoint hx' hy' hl hne
  · intro x sx hx
    rcases hinv hx with ⟨rfl, rfl⟩ | ⟨hxa, hxr, hx'⟩
    · exact ⟨sh, mergeStore_left hpa, h.merge_joined hp hEp hGa hGr hEa hEr hj hlt⟩
    · by_cases hxp : x = p
      · subst hxp
        rw [hp] at hx'
        cases hx'
        exact ⟨_, mergeStore_row, h.merge_owner hp hEp hGa hGr hEa hEr hj hra⟩
      · obtain ⟨shx, hEx, hokx⟩ := h.node hx'
        refine ⟨shx, by rw [mergeStore_other hxa hxp]; exact hEx, hokx.mono ?_ ?_ ?_⟩
        · rintro es y hi' rfl hy
          by_cases hya : y = a
          · subst hya
            rw [hGa] at hy
            cases hy
            exact ⟨ha, joinPlan_left hra⟩
          · -- only `a` ends where `r` starts
            have hyr : y ≠ r := by
              rintro rfl
              rw [hGr] at hy
              have hs := Option.some.inj hy
              have hlev := hokx.level
              exact hxa (h.eq_of_hi hx' hGa (hlev.trans (congrArg Span.level hs).symm)
                (congrArg Span.lo hs).symm)
            exact ⟨hi', by rw [joinPlan_other hya hyr]; exact hy⟩
        · rintro slots rfl k c hm
          exact h.join_child hp hEp hx' hEx hxp hm
        · rintro slots rfl k c hm hlow
          exact h.merge_low hp hEp hx' hEx hxp hm hlow

/-- Joining cells moves entries, and changes none. -/
theorem Tree.holds_merge (h : Tree E G row depth) (hp : G p = some sq)
    (hEp : E p = some (.inner (xs ++ (ka, a) :: (b, r) :: ys))) (hGa : G a = some ⟨l, la, key b⟩)
    (hGr : G r = some ⟨l, key b, ha⟩) (hEa : E a = some shL) (hEr : E r = some shR)
    (hj : Joined shL shR sh) {k : K} {v : V} (slots : List (K × A)) :
    Holds (mergeStore E p a sh slots) (joinPlan G a r l la ha) k v ↔ Holds E G k v := by
  have hlab := h.lo_lt_hi hGa
  have hra : r ≠ a := by
    rintro rfl
    rw [hGa] at hGr
    cases hGr
    exact absurd hlab (lt_irrefl _)
  have hpa : a ≠ p := h.child_ne hp hEp (show (ka, a) ∈ _ by simp)
  constructor
  · rintro ⟨x, sx, es, next, hx, hEx, hm⟩
    by_cases hxa : x = a
    · subst hxa
      rw [mergeStore_left hpa] at hEx
      cases hj with
      | leaf =>
          cases hEx
          rcases List.mem_append.1 hm with hm | hm
          · exact ⟨x, _, _, _, hGa, hEa, hm⟩
          · exact ⟨r, _, _, _, hGr, hEr, hm⟩
      | inner => cases hEx
    · have hxp : x ≠ p := by
        rintro rfl
        rw [mergeStore_row] at hEx
        cases hEx
      have hxr : x ≠ r := by
        rintro rfl
        rw [joinPlan_right] at hx
        cases hx
      rw [mergeStore_other hxa hxp] at hEx
      rw [joinPlan_other hxa hxr] at hx
      exact ⟨x, sx, es, next, hx, hEx, hm⟩
  · rintro ⟨x, sx, es, next, hx, hEx, hm⟩
    by_cases hxa : x = a
    · subst hxa
      rw [hEa] at hEx
      cases hEx
      cases hj with
      | leaf => exact ⟨x, _, _, _, joinPlan_left hra, mergeStore_left hpa, List.mem_append_left _ hm⟩
    · by_cases hxr : x = r
      · subst hxr
        rw [hEr] at hEx
        cases hEx
        cases hj with
        | leaf =>
            exact ⟨a, _, _, _, joinPlan_left hra, mergeStore_left hpa, List.mem_append_right _ hm⟩
      · have hxp : x ≠ p := by
          rintro rfl
          rw [hEp] at hEx
          cases hEx
        exact ⟨x, sx, es, next, by rw [joinPlan_other hxa hxr]; exact hx,
          by rw [mergeStore_other hxa hxp]; exact hEx, hm⟩

omit [LinearOrder K] in
/-- The join changes the plan at one level. -/
theorem joinPlan_above (hGa : G a = some ⟨l, la, key b⟩) (hGr : G r = some ⟨l, key b, ha⟩)
    {x : A} {sx : Span K} (hl : l < sx.level) :
    joinPlan G a r l la ha x = some sx ↔ G x = some sx := by
  by_cases hxr : x = r
  · subst hxr
    rw [joinPlan_right, hGr]
    constructor
    · intro h; cases h
    · intro h; cases h; exact absurd hl (lt_irrefl _)
  · by_cases hxa : x = a
    · subst hxa
      rw [joinPlan_left (Ne.symm hxr), hGa]
      constructor
      · intro h; cases h; exact absurd hl (lt_irrefl _)
      · intro h; cases h; exact absurd hl (lt_irrefl _)
    · rw [joinPlan_other hxa hxr]

/-! ## §2. Moving entries between two neighbours. -/

variable {b' : K} {shL' shR' : Shape K V A}

omit [LinearOrder K] in
theorem splitStore_mergeStore {slots slots' : List (K × A)} :
    splitStore (mergeStore E p a sh slots) (some p) a r shL' shR' slots'
      = splitStore E (some p) a r shL' shR' slots' := by
  funext x
  by_cases hxp : x = p
  · subst hxp; rw [splitStore_row, splitStore_row]
  · by_cases hxr : x = r
    · subst hxr
      have hpx : some p ≠ some x := fun he => hxp (Option.some.inj he).symm
      rw [splitStore_right hpx, splitStore_right hpx]
    · have hpx : some p ≠ some x := fun he => hxp (Option.some.inj he).symm
      by_cases hxa : x = a
      · subst hxa
        rw [splitStore_left hpx (Ne.symm hxr), splitStore_left hpx (Ne.symm hxr)]
      · rw [splitStore_other hxa hxr hpx, splitStore_other hxa hxr hpx, mergeStore_other hxa hxp]

/-- **Moving the boundary between two neighbours** from `b` to `b'`. -/
theorem Tree.shift (h : Tree E G row depth) (hp : G p = some sq)
    (hEp : E p = some (.inner (xs ++ (ka, a) :: (b, r) :: ys))) (hGa : G a = some ⟨l, la, key b⟩)
    (hGr : G r = some ⟨l, key b, ha⟩) (hEa : E a = some shL) (hEr : E r = some shR)
    (hj : Joined shL shR sh) (hlt : ∀ x ∈ shL.keys, x < b) (hhalf : Halves r b' sh shL' shR') :
    Tree (splitStore E (some p) a r shL' shR' (xs ++ (ka, a) :: (b', r) :: ys))
        (cutPlan (joinPlan G a r l la ha) a r l la ha b') row depth
      ∧ ∀ k v, Holds (splitStore E (some p) a r shL' shR' (xs ++ (ka, a) :: (b', r) :: ys))
          (cutPlan (joinPlan G a r l la ha) a r l la ha b') k v ↔ Holds E G k v := by
  have hlab := h.lo_lt_hi hGa
  have hra : r ≠ a := by
    rintro rfl
    rw [hGa] at hGr
    cases hGr
    exact absurd hlab (lt_irrefl _)
  have hpa : a ≠ p := h.child_ne hp hEp (show (ka, a) ∈ _ by simp)
  have hpr : r ≠ p := h.child_ne hp hEp (show (b, r) ∈ _ by simp)
  have ht := h.merge hp hEp hGa hGr hEa hEr hj hlt
  have ho : IsRow (mergeStore E p a sh (xs ++ (ka, a) :: ys)) (joinPlan G a r l la ha) row (some p)
      (xs ++ (ka, a) :: ys) :=
    ⟨⟨sq, by rw [joinPlan_other hpa.symm hpr.symm]; exact hp⟩, mergeStore_row⟩
  have hG' : joinPlan G a r l la ha a = some ⟨l, la, ha⟩ := joinPlan_left hra
  have hE' : mergeStore E p a sh (xs ++ (ka, a) :: ys) a = some sh := mergeStore_left hpa
  have hs := ht.split ho hG' hE' hhalf joinPlan_right
  refine ⟨?_, fun k v => ?_⟩
  · rw [← splitStore_mergeStore]
    exact hs
  · rw [← splitStore_mergeStore]
    exact (ht.holds_split ho hG' hE' hhalf joinPlan_right _).trans
      (h.holds_merge hp hEp hGa hGr hEa hEr hj _)

end Merge

/-! ## §3. A root with one child. -/

section Collapse

variable {k kc : K} {root c : A}

/-- **A root with one child gives way to the child.** -/
theorem Tree.collapse (h : Tree E G [(k, root)] depth) (hE : E root = some (.inner [(kc, c)])) :
    Tree E (Function.update G root none) [(kc, c)] (depth - 1) := by
  have hroot : G root = some ⟨depth, ⊥, ⊤⟩ := h.top.2
  have hok := h.innerOk hroot hE
  have hc : G c = some ⟨depth - 1, ⊥, ⊤⟩ := hok.covers.2
  have hlev := hok.level
  have hcr : c ≠ root := h.child_ne hroot hE (show (kc, c) ∈ _ by simp)
  have hinv : ∀ {x sx}, Function.update G root none x = some sx → x ≠ root ∧ G x = some sx := by
    intro x sx hx
    by_cases hxr : x = root
    · subst hxr; rw [Function.update_self] at hx; cases hx
    · rw [Function.update_of_ne hxr] at hx
      exact ⟨hxr, hx⟩
  -- the root spans all keys, so it is alone at its level
  have hlt : ∀ {x sx}, x ≠ root → G x = some sx → sx.level < depth := by
    intro x sx hxr hx
    have hle := h.level_le hx
    have hpos := h.lo_lt_hi hx
    by_contra hge
    have hl : sx.level = depth := by omega
    rcases h.disjoint hx hroot hl hxr with hd | hd
    · exact absurd (bot_le.trans_lt hpos) (not_lt.2 hd)
    · exact absurd (hpos.trans_le le_top) (not_lt.2 hd)
  have hnext : ∀ {x hi hi'}, G x = some ⟨1, hi, hi'⟩ → Function.update G root none x = G x := by
    intro x hi hi' hx
    rw [Function.update_of_ne]
    rintro rfl
    rw [hroot] at hx
    have := congrArg Span.level (Option.some.inj hx)
    simp only at this hlev
    omega
  refine ⟨⟨h.lo_lt_hi hroot, by rw [Function.update_of_ne hcr]; exact hc⟩, ?_, ?_, ?_, ?_⟩
  · intro x sx hx
    obtain ⟨hxr, hx⟩ := hinv hx
    have := hlt hxr hx
    omega
  · intro x sx hx
    exact h.lo_lt_hi (hinv hx).2
  · intro x y sx sy hx hy hl hne
    exact h.disjoint (hinv hx).2 (hinv hy).2 hl hne
  · intro x sx hx
    obtain ⟨hxr, hx'⟩ := hinv hx
    obtain ⟨shx, hEx, hokx⟩ := h.node hx'
    refine ⟨shx, hEx, hokx.mono ?_ ?_ (fun _ _ _ _ _ hl => hl)⟩
    · intro es y hi' _ hy
      exact ⟨hi', by rw [hnext hy]; exact hy⟩
    · rintro slots rfl k' d hm
      rw [Function.update_of_ne]
      rintro rfl
      exact h.top_not_child hx' hEx (show (k, d) ∈ _ by simp) hm

omit [LinearOrder K] in
theorem holds_collapse {slots : List (K × A)} (hE : E root = some (.inner slots)) {k' : K} {v : V} :
    Holds E (Function.update G root none) k' v ↔ Holds E G k' v := by
  constructor
  · rintro ⟨x, sx, es, next, hx, hEx, hm⟩
    have hxr : x ≠ root := by
      rintro rfl
      rw [Function.update_self] at hx
      cases hx
    rw [Function.update_of_ne hxr] at hx
    exact ⟨x, sx, es, next, hx, hEx, hm⟩
  · rintro ⟨x, sx, es, next, hx, hEx, hm⟩
    have hxr : x ≠ root := by
      rintro rfl
      rw [hE] at hEx
      cases hEx
    exact ⟨x, sx, es, next, by rw [Function.update_of_ne hxr]; exact hx, hEx, hm⟩

end Collapse

end RangeTree
