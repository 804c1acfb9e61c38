/-
  NvmTree.RangeTree.Moves — what an agent may do to a shared tree.

  Each move is one change of the world.  Its lemma says that the world stays a
  tree (`Ok`), and that the move is within what the other agents rely on
  (`Guar`):

    * `Ok.remode`    — taking and dropping cells;
    * `Ok.writeRaw`  — writing a cell held in write mode;
    * `Ok.lower`, `Ok.setEntry` — deciding a new first key, a new entry;
    * `Ok.splitAt`   — linking the upper half of a cell into its parent's row;
    * `Ok.growAt`    — a new root over the two halves of the root.
-/
import NvmTree.RangeTree.World

namespace RangeTree

namespace World

variable {I K V A : Type*} [LinearOrder K]
variable {w w' : World I K V A} {m : K → Option V} {i : I} {a : A} {k : K}

/-! ## §1. Who holds what. -/

def withMode (w : World I K V A) (μ : I → A → Option Mode) : World I K V A :=
  { w with mode := μ }

/-- Who still holds what it held is where it was. -/
theorem At.withMode {μ : I → A → Option Mode} (h : w.At i a k)
    (hkeep : ∀ x, w.Held i x → μ i x ≠ none) : (w.withMode μ).At i a k :=
  ⟨h.plan, h.below, h.near.imp (hkeep a) fun ⟨p, hp, hh⟩ => ⟨p, hp, hkeep p hh⟩⟩

/-- Who holds a cell is there whatever else it holds. -/
theorem At.withMode_held {μ : I → A → Option Mode} (h : w.At i a k) (hheld : μ i a ≠ none) :
    (w.withMode μ).At i a k := ⟨h.plan, h.below, .inl hheld⟩

theorem Path.withMode {μ : I → A → Option Mode} {cap : Nat} {ins : Option (K × A)}
    {fs : List (Frame K A)} (h : w.Path i k cap ins fs a)
    (hkeep : ∀ f ∈ fs, μ i f.node = w.mode i f.node) (hself : fs = [] → μ i a = w.mode i a) :
    (w.withMode μ).Path i k cap ins fs a := by
  refine Path.congr (w := w) ?_ (fun f hf => ?_) hself h
  · rfl
  · exact ⟨rfl, rfl, hkeep f hf, fun sp hsp => ⟨sp, hsp⟩⟩

/-- A step that takes nothing from the others. -/
theorem guar_withMode {μ : I → A → Option Mode}
    (hother : ∀ j x ν, j ≠ i → w.mode j x = some ν → μ j x = some ν) :
    Guar i w (w.withMode μ) where
  store _ _ := ⟨rfl, rfl⟩
  plan _ _ := rfl
  planUnder _ _ _ _ := rfl
  level _ sp h := ⟨sp, h, rfl⟩
  below _ _ _ _ _ h := h
  low _ _ _ _ _ h := h
  mode j x ν hj h := hother j x ν hj h
  root _ := ⟨rfl, rfl⟩
  fresh := Or.inl ⟨rfl, rfl⟩

/-- Taking and dropping cells, by several agents at once: who holds a cell in write
mode holds it alone, and what `i` no longer holds so shows the tree. -/
theorem Ok.remode (h : w.Ok m) {μ : I → A → Option Mode}
    (hother : ∀ j x ν, j ≠ i → w.mode j x = some ν → μ j x = some ν)
    (hexcl : ∀ {j j' x}, μ j x = some .write → μ j' x ≠ none → j = j')
    (hclean : ∀ x sp, w.G x = some sp → w.Writes i x → μ i x ≠ some .write → w.raw x = w.E x) :
    (w.withMode μ).Ok m := by
  refine ⟨h.tree, h.map, fun hj hj' => hexcl hj hj', ?_⟩
  intro x sp hx hnone
  by_cases hi : w.Writes i x
  · exact hclean x sp hx hi (hnone i)
  · refine h.clean hx (fun j hj => ?_)
    by_cases hji : j = i
    · subst hji
      exact hi hj
    · exact hnone j (hother j x _ hji hj)

variable [DecidableEq A]

/-! ## §2. Writing a cell. -/

def writeRaw (w : World I K V A) (a : A) (sh : Shape K V A) : World I K V A :=
  { w with raw := Function.update w.raw a (some sh) }

theorem guar_writeRaw {sh : Shape K V A} (ha : w.Writes i a) : Guar i w (w.writeRaw a sh) where
  store x hx := by
    refine ⟨rfl, Function.update_of_ne ?_ ..⟩
    rintro rfl
    exact hx ha
  plan _ _ := rfl
  planUnder _ _ _ _ := rfl
  level _ sp h := ⟨sp, h, rfl⟩
  below _ _ _ _ _ h := h
  low _ _ _ _ _ h := h
  mode _ _ _ _ h := h
  root _ := ⟨rfl, rfl⟩
  fresh := Or.inl ⟨rfl, rfl⟩

theorem Ok.writeRaw (h : w.Ok m) {sh : Shape K V A} (ha : w.Writes i a) :
    (w.writeRaw a sh).Ok m := by
  refine ⟨h.tree, h.map, h.excl, ?_⟩
  intro x sp hx hnone
  have hxa : x ≠ a := by
    rintro rfl
    exact hnone i ha
  exact (Function.update_of_ne hxa ..).trans (h.clean hx hnone)

/-! ## §3. Deciding what a held cell shows. -/

def setE (w : World I K V A) (a : A) (sh : Shape K V A) : World I K V A :=
  { w with E := Function.update w.E a (some sh) }

/-- Another content for a cell, whose slots do not lead to their children with
greater keys. -/
theorem guar_setE {sh : Shape K V A} (ha : w.Writes i a)
    (hslots : ∀ sl', sh = .inner sl' → ∃ sl, w.E a = some (.inner sl)
      ∧ ∀ kc' c, (kc', c) ∈ sl' → ∃ kc, (kc, c) ∈ sl ∧ kc' ≤ kc)
    (hparent : ∀ sl' p, sh = .inner sl' → w.Parent p a → w.Writes i p) :
    Guar i w (w.setE a sh) where
  store x hx := by
    refine ⟨Function.update_of_ne ?_ .., rfl⟩
    rintro rfl
    exact hx ha
  plan _ _ := rfl
  planUnder _ _ _ _ := rfl
  level _ sp h := ⟨sp, h, rfl⟩
  below x k sp hG _ hB := by
    intro p sq sl ka hp hE hm
    by_cases hpa : p = a
    · subst hpa
      change Function.update w.E p (some sh) p = _ at hE
      rw [Function.update_self] at hE
      obtain ⟨sl₀, hE₀, hle⟩ := hslots sl (Option.some.inj hE)
      obtain ⟨kc, hkc, hkk⟩ := hle ka x hm
      exact hkk.trans (hB p sq sl₀ kc hp hE₀ hkc)
    · change Function.update w.E a (some sh) p = _ at hE
      rw [Function.update_of_ne hpa] at hE
      exact hB p sq sl ka hp hE hm
  low p x k hp hnw h := by
    intro sl hE s hs
    change Function.update w.E a (some sh) x = _ at hE
    by_cases hxa : x = a
    · subst hxa
      rw [Function.update_self] at hE
      exact absurd (hparent sl p (Option.some.inj hE) hp) hnw
    · rw [Function.update_of_ne hxa] at hE
      exact h sl hE s hs
  mode _ _ _ _ h := h
  root _ := ⟨rfl, rfl⟩
  fresh := Or.inl ⟨rfl, rfl⟩

/-- Another content for the cell at its end leaves a path as it was. -/
theorem Path.setE (h : w.Ok m) {cap : Nat} {fs : List (Frame K A)} {sh : Shape K V A}
    (hpath : w.Path i k cap none fs a) : (w.setE a sh).Path i k cap none fs a := by
  refine Path.congr (w := w) ?_ (fun f hf => ?_) (fun _ => rfl) hpath
  · rfl
  · exact ⟨Function.update_of_ne (hpath.ne h hf) .., rfl, rfl, fun sp hsp => ⟨sp, hsp⟩⟩

/-- So does a write to it. -/
theorem Path.writeRaw (h : w.Ok m) {cap : Nat} {fs : List (Frame K A)} {sh : Shape K V A}
    (hpath : w.Path i k cap none fs a) : (w.writeRaw a sh).Path i k cap none fs a := by
  refine Path.congr (w := w) ?_ (fun f hf => ?_) (fun _ => rfl) hpath
  · rfl
  · exact ⟨rfl, Function.update_of_ne (hpath.ne h hf) .., rfl, fun sp hsp => ⟨sp, hsp⟩⟩

/-- A cell held in write mode need not show the tree. -/
theorem Ok.setE (h : w.Ok m) {m' : K → Option V} {sh : Shape K V A} (ha : w.Writes i a)
    (ht : ∃ κ, Tree (Function.update w.E a (some sh)) w.G [(κ, w.root)] w.depth)
    (hm : Represents (Function.update w.E a (some sh)) w.G m') : (w.setE a sh).Ok m' := by
  refine ⟨ht, hm, h.excl, ?_⟩
  intro x sp hx hnone
  have hxa : x ≠ a := by
    rintro rfl
    exact hnone i ha
  exact (h.clean hx hnone).trans (Function.update_of_ne hxa ..).symm

/-- **A smaller first key** for a cell on the left edge. -/
theorem Ok.lower (h : w.Ok m) {c : A} {k₀ : K} {rest : List (K × A)} (ha : w.Writes i a)
    (hat : w.At i a k) (hE : w.E a = some (.inner ((k₀, c) :: rest))) (hlt : k < k₀)
    (hparent : ∀ p, w.Parent p a → w.Writes i p) :
    (w.setE a (.inner ((k, c) :: rest))).Ok m
      ∧ Guar i w (w.setE a (.inner ((k, c) :: rest))) := by
  obtain ⟨κ, ht⟩ := h.tree
  obtain ⟨sp, hG, hk⟩ := hat.plan
  refine ⟨h.setE ha ⟨κ, ht.lower hG hE hk hlt hat.below⟩
    (h.map.congr fun k v => holds_update_inner hE), guar_setE ha ?_ (fun _ p _ => hparent p)⟩
  rintro sl' hsl'
  cases hsl'
  refine ⟨_, hE, fun kc' c' hm => ?_⟩
  rcases List.mem_cons.1 hm with he | hm
  · cases he
    exact ⟨k₀, by simp, hlt.le⟩
  · exact ⟨kc', List.mem_cons_of_mem _ hm, le_rfl⟩

/-- **A new entry** in the leaf responsible for its key. -/
theorem Ok.setEntry (h : w.Ok m) {es : List (K × V)} {next : Option A} {v : V}
    (ha : w.Writes i a) (hat : w.At i a k) (hE : w.E a = some (.leaf es next)) :
    (w.setE a (.leaf (setEntry k v es) next)).Ok (Function.update m k (some v))
      ∧ Guar i w (w.setE a (.leaf (RangeTree.setEntry k v es) next)) := by
  obtain ⟨κ, ht⟩ := h.tree
  obtain ⟨sp, hG, hk⟩ := hat.plan
  obtain ⟨ht', hm'⟩ := ht.setEntry (v := v) h.map hG hE hk hat.below
  exact ⟨h.setE ha ⟨κ, ht'⟩ hm', guar_setE ha nofun nofun⟩

/-! ## §4. Linking the upper half of a cell. -/

/-- The cell `a` is cut in two, and `slots` is the new row of its parent `p`. -/
def splitAt (w : World I K V A) (p a r : A) (shL shR : Shape K V A) (slots : List (K × A))
    (sp : Span K) (b : K) : World I K V A :=
  { w with
    E := splitStore w.E (some p) a r shL shR slots
    G := cutPlan w.G a r sp.level sp.lo sp.hi b }

/-- Cutting keeps the keys with which slots lead to the cells that are there. -/
theorem below_split {E : Store K V A} {G : Plan K A} {o : Option A} {r : A} {b : K} {sp : Span K}
    {sh shL shR : Shape K V A} {slots' : List (K × A)} (hGa : G a = some sp)
    (hEa : E a = some sh) (hhalf : Halves r b sh shL shR) (hr : G r = none)
    (hoa : o ≠ some a) (hor : o ≠ some r)
    (hrow : ∀ p, o = some p → ∃ slots, E p = some (.inner slots)
      ∧ ∀ s ∈ slots', s ∈ slots ∨ s.2 = r)
    {x : A} {sx : Span K} {k : K} (hx : G x = some sx) (hB : Below E G x k) :
    Below (splitStore E o a r shL shR slots') (cutPlan G a r sp.level sp.lo sp.hi b) x k := by
  have hra : r ≠ a := by rintro rfl; rw [hr] at hGa; cases hGa
  intro q sq sl kx hq hEq hm
  by_cases hqa : q = a
  · subst hqa
    rw [splitStore_left hoa hra] at hEq
    cases hhalf with
    | leaf hL => cases hEq
    | inner hL =>
        cases hEq
        exact hB q sp _ kx hGa hEa (List.mem_append_left _ hm)
  · by_cases hqr : q = r
    · subst hqr
      rw [splitStore_right hor] at hEq
      cases hhalf with
      | leaf hL => cases hEq
      | inner hL =>
          cases hEq
          exact hB a sp _ kx hGa hEa (List.mem_append_right _ hm)
    · rw [cutPlan_other hqa hqr] at hq
      by_cases hqo : o = some q
      · subst hqo
        rw [splitStore_row] at hEq
        cases hEq
        obtain ⟨slots, hEq, hsub⟩ := hrow q rfl
        rcases hsub _ hm with hm | hxr
        · exact hB q sq _ kx hq hEq hm
        · change x = r at hxr
          subst hxr
          rw [hr] at hx
          cases hx
      · rw [splitStore_other hqa hqr hqo] at hEq
        exact hB q sq sl kx hq hEq hm

omit [DecidableEq A] in
/-- A child has a place. -/
theorem Ok.plan_of_parent (h : w.Ok m) {p : A} (hp : w.Parent p a) : ∃ sp, w.G a = some sp := by
  obtain ⟨κ, ht⟩ := h.tree
  obtain ⟨sp, slots, k, hG, hE, hm⟩ := hp
  obtain ⟨sc, hc, -⟩ := ht.child hG hE hm
  exact ⟨sc, hc⟩

omit [DecidableEq A] in
theorem Ok.parent_unique (h : w.Ok m) {p q : A} (hp : w.Parent p a) (hq : w.Parent q a) :
    p = q := by
  obtain ⟨κ, ht⟩ := h.tree
  obtain ⟨sp, slots, k, hG, hE, hm⟩ := hp
  obtain ⟨sq, slots', k', hG', hE', hm'⟩ := hq
  exact ht.parent_unique hG hG' hE hE' hm hm'

section Split

variable {p r : A} {b ka : K} {sp : Span K} {sh shL shR : Shape K V A} {xs ys : List (K × A)}

/-- **Linking the upper half of a cell into its parent's row.** -/
theorem Ok.splitAt (h : w.Ok m) (hp : ∃ sq, w.G p = some sq)
    (hEp : w.E p = some (.inner (xs ++ (ka, a) :: ys))) (hGa : w.G a = some sp)
    (hEa : w.E a = some sh) (hhalf : Halves r b sh shL shR) (hr : w.Fresh i r)
    (hwa : w.Writes i a) (hwp : w.Writes i p) :
    (w.splitAt p a r shL shR (xs ++ (ka, a) :: (b, r) :: ys) sp b).Ok m
      ∧ Guar i w (w.splitAt p a r shL shR (xs ++ (ka, a) :: (b, r) :: ys) sp b) := by
  obtain ⟨κ, ht⟩ := h.tree
  obtain ⟨sq, hGp⟩ := hp
  have hrow : IsRow w.E w.G [(κ, w.root)] (some p) (xs ++ (ka, a) :: ys) := ⟨⟨sq, hGp⟩, hEp⟩
  have hra : r ≠ a := by rintro rfl; rw [hr.2] at hGa; cases hGa
  have hpa := ht.owner_ne hrow
  have hpr : some p ≠ some r := hrow.ne_fresh hr.2
  have hpar : w.Parent p a := ⟨sq, _, ka, hGp, hEp, by simp⟩
  have hcell : ∀ x, ¬ w.Writes i x → x ≠ a ∧ x ≠ r ∧ some p ≠ some x := by
    intro x hx
    refine ⟨?_, ?_, ?_⟩
    · rintro rfl; exact hx hwa
    · rintro rfl; exact hx hr.1
    · intro he; cases he; exact hx hwp
  constructor
  · refine ⟨⟨κ, ht.split hrow hGa hEa hhalf hr.2⟩, ?_, h.excl, ?_⟩
    · exact h.map.congr fun k v => ht.holds_split hrow hGa hEa hhalf hr.2 _
    · intro x sx hx hnone
      obtain ⟨h1, h2, h3⟩ := hcell x (hnone i)
      change cutPlan w.G a r sp.level sp.lo sp.hi b x = some sx at hx
      rw [cutPlan_other h1 h2] at hx
      exact (h.clean hx hnone).trans (splitStore_other h1 h2 h3).symm
  · refine ⟨?_, ?_, ?_, ?_, ?_, ?_, fun _ _ _ _ h => h, fun _ => ⟨rfl, rfl⟩, Or.inl ⟨rfl, rfl⟩⟩
    · intro x hx
      obtain ⟨h1, h2, h3⟩ := hcell x hx
      exact ⟨splitStore_other h1 h2 h3, rfl⟩
    · intro x hx
      obtain ⟨h1, h2, -⟩ := hcell x hx
      exact cutPlan_other h1 h2
    · intro q x hq hnw
      obtain ⟨sx, hx⟩ := h.plan_of_parent hq
      refine cutPlan_other ?_ ?_
      · rintro rfl
        exact hnw (h.parent_unique hpar hq ▸ hwp)
      · rintro rfl
        rw [hr.2] at hx
        cases hx
    · intro x sx hx
      by_cases hxa : x = a
      · subst hxa
        rw [hGa] at hx
        cases hx
        exact ⟨_, cutPlan_left hra, rfl⟩
      · have hxr : x ≠ r := by rintro rfl; rw [hr.2] at hx; cases hx
        exact ⟨sx, (cutPlan_other hxa hxr).trans hx, rfl⟩
    · intro x k sx hx _ hB
      refine below_split hGa hEa hhalf hr.2 hpa hpr ?_ hx hB
      rintro q he
      cases he
      refine ⟨_, hEp, fun s hs => ?_⟩
      simp only [List.mem_append, List.mem_cons] at hs ⊢
      rcases hs with hs | rfl | rfl | hs
      · exact Or.inl (Or.inl hs)
      · exact Or.inl (Or.inr (Or.inl rfl))
      · exact Or.inr rfl
      · exact Or.inl (Or.inr (Or.inr hs))
    · -- only the row of `p` is seen by somebody, and its new slot is above an old one
      intro q x k hq hnw hlow sl hE s hs
      obtain ⟨sx, hx⟩ := h.plan_of_parent hq
      have hxa : x ≠ a := by
        rintro rfl
        exact hnw (h.parent_unique hpar hq ▸ hwp)
      have hxr : x ≠ r := by rintro rfl; rw [hr.2] at hx; cases hx
      change splitStore w.E (some p) a r shL shR _ x = _ at hE
      by_cases hxp : x = p
      · subst hxp
        rw [splitStore_row] at hE
        cases hE
        have hka : ka < b := ht.slot_lt_cut hrow hGa hEa hhalf x rfl
        have hold : ∀ t ∈ xs ++ (ka, a) :: ys, k < t.1 := hlow _ hEp
        simp only [List.mem_append, List.mem_cons] at hs hold
        rcases hs with hs | rfl | rfl | hs
        · exact hold s (Or.inl hs)
        · exact hold _ (Or.inr (Or.inl rfl))
        · exact (hold (ka, a) (Or.inr (Or.inl rfl))).trans hka
        · exact hold s (Or.inr (Or.inr hs))
      · rw [splitStore_other hxa hxr (fun he => hxp (Option.some.inj he).symm)] at hE
        exact hlow sl hE s hs

end Split

/-- Linking keeps the path, whose first row gets the new slot. -/
theorem Ok.link (h : w.Ok m) {r : A} {b : K} {shL shR : Shape K V A} {cap : Nat}
    {f : Frame K A} {fs : List (Frame K A)} (hpath : w.Path i k cap none (f :: fs) a)
    (hcut : w.Cut i a r b shL shR) :
    ∃ E' G', ({ w with E := E', G := G' } : World I K V A).Ok m
      ∧ Guar i w { w with E := E', G := G' }
      ∧ ({ w with E := E', G := G' } : World I K V A).Path i k cap (some (b, r)) (f :: fs) a
      ∧ E' a = some shL ∧ E' r = some shR ∧ (∃ sp, G' a = some sp) ∧ (∃ sp, G' r = some sp)
      ∧ (∀ x, x ≠ a → x ≠ r → x ≠ f.node → E' x = w.E x)
      ∧ ∀ x, x ≠ a → x ≠ r → G' x = w.G x := by
  obtain ⟨hf, hrest⟩ := hpath
  obtain ⟨xs, ka, ys, hsl, hidx, hka, hE⟩ := hf.row
  obtain ⟨sp, hGa⟩ := Path.plan h (show w.Path i k cap none (f :: fs) a from ⟨hf, hrest⟩)
  obtain ⟨sh, hEa, hhalf⟩ := hcut.whole
  obtain ⟨hok, hguar⟩ := h.splitAt hf.plan hE hGa hEa hhalf hcut.fresh hcut.writes hf.writes
  have hra : r ≠ a := by rintro rfl; rw [hcut.fresh.2] at hGa; cases hGa
  have hne : ∀ g ∈ f :: fs, g.node ≠ a := fun g hg =>
    Path.ne h (show w.Path i k cap none (f :: fs) a from ⟨hf, hrest⟩) hg
  have hfr : f.node ≠ r := by
    intro he
    obtain ⟨sf, hsf⟩ := hf.plan
    rw [he, hcut.fresh.2] at hsf
    cases hsf
  refine ⟨_, _, hok, hguar, ⟨?_, ?_⟩, ?_, ?_, ⟨_, cutPlan_left hra⟩, ⟨_, cutPlan_right⟩, ?_,
    fun x h1 h2 => cutPlan_other h1 h2⟩
  · obtain ⟨sf, hsf⟩ := hf.plan
    refine ⟨⟨sf, (cutPlan_other (hne f (by simp)) hfr).trans hsf⟩, hf.writes,
      ⟨xs, ka, ys, hsl, hidx, hka, splitStore_row⟩, hf.size, hf.raw⟩
  · rcases hrest with hp | hloose
    · left
      refine Path.congr (w := w) ?_ (fun g hg => ?_) (fun _ => ?_) hp
      · rfl
      swap
      · rfl
      obtain ⟨sf, hsf⟩ := hf.plan
      obtain ⟨sg, hsg, -⟩ := hp.level_lt h hsf g hg
      have hga := hne g (List.mem_cons_of_mem _ hg)
      have hgr : g.node ≠ r := by rintro he; rw [he, hcut.fresh.2] at hsg; cases hsg
      have hgf : some f.node ≠ some g.node := fun he => hp.ne h hg (Option.some.inj he).symm
      exact ⟨splitStore_other hga hgr hgf, rfl, rfl, fun sp' hsp' =>
        ⟨sp', (cutPlan_other hga hgr).trans hsp'⟩⟩
    · exact Or.inr hloose
  · exact splitStore_left (fun he => hne f (by simp) (Option.some.inj he)) hra
  · exact splitStore_right (fun he => hfr (Option.some.inj he))
  · intro x h1 h2 h3
    exact splitStore_other h1 h2 (fun he => h3 (Option.some.inj he).symm)

/-! ## §5. A new root. -/

/-- The root is cut in two, and `ρ` is the root over both halves. -/
def growAt (w : World I K V A) (r ρ : A) (shL shR : Shape K V A) (k₀ b : K) : World I K V A :=
  { w with
    E := Function.update (splitStore w.E none w.root r shL shR []) ρ
      (some (.inner [(k₀, w.root), (b, r)]))
    G := Function.update (cutPlan w.G w.root r w.depth ⊥ ⊤ b) ρ (some ⟨w.depth + 1, ⊥, ⊤⟩)
    root := ρ
    depth := w.depth + 1 }

section Grow

variable {r ρ : A} {b k₀ : K} {sh shL shR : Shape K V A}

/-- **A new root over the two halves of the root.** -/
theorem Ok.growAt (h : w.Ok m) (hEa : w.E w.root = some sh) (hhalf : Halves r b sh shL shR)
    (hr : w.Fresh i r) (hρ : w.Fresh i ρ) (hrρ : r ≠ ρ) (hk₀ : k₀ ∈ shL.keys)
    (hmin : ∀ x ∈ shL.keys, k₀ ≤ x) (hwa : w.Writes i w.root) :
    (w.growAt r ρ shL shR k₀ b).Ok m ∧ Guar i w (w.growAt r ρ shL shR k₀ b) := by
  obtain ⟨κ, ht⟩ := h.tree
  have hGa := h.plan_root
  have hra : r ≠ w.root := by intro he; rw [← he, hr.2] at hGa; cases hGa
  obtain ⟨ht', hm'⟩ := ht.growSplit hEa hhalf hr.2 hρ.2 hrρ hk₀ hmin
  have hcell : ∀ x, ¬ w.Writes i x → x ≠ w.root ∧ x ≠ r ∧ x ≠ ρ := by
    intro x hx
    refine ⟨?_, ?_, ?_⟩
    · rintro rfl; exact hx hwa
    · rintro rfl; exact hx hr.1
    · rintro rfl; exact hx hρ.1
  have hE : ∀ x, ¬ w.Writes i x → (w.growAt r ρ shL shR k₀ b).E x = w.E x := by
    intro x hx
    obtain ⟨h1, h2, h3⟩ := hcell x hx
    exact (Function.update_of_ne h3 ..).trans (splitStore_other h1 h2 nofun)
  have hG : ∀ x, x ≠ w.root → x ≠ r → x ≠ ρ → (w.growAt r ρ shL shR k₀ b).G x = w.G x := by
    intro x h1 h2 h3
    exact (Function.update_of_ne h3 ..).trans (cutPlan_other h1 h2)
  constructor
  · refine ⟨⟨k₀, ht'⟩, h.map.congr hm', h.excl, ?_⟩
    intro x sx hx hnone
    obtain ⟨h1, h2, h3⟩ := hcell x (hnone i)
    rw [hG x h1 h2 h3] at hx
    exact (h.clean hx hnone).trans (hE x (hnone i)).symm
  · have hne : ∀ {x sx}, w.G x = some sx → x ≠ r ∧ x ≠ ρ := by
      intro x sx hx
      constructor
      · rintro rfl; rw [hr.2] at hx; cases hx
      · rintro rfl; rw [hρ.2] at hx; cases hx
    refine ⟨fun x hx => ⟨hE x hx, rfl⟩, ?_, ?_, ?_, ?_, ?_, fun _ _ _ _ h => h,
      fun hn => absurd hwa hn, Or.inr hρ.2⟩
    · intro x hx
      obtain ⟨h1, h2, h3⟩ := hcell x hx
      exact hG x h1 h2 h3
    · intro q x hq _
      obtain ⟨sx, hx⟩ := h.plan_of_parent hq
      refine hG x ?_ (hne hx).1 (hne hx).2
      rintro rfl
      exact h.root_no_parent hq
    · intro x sx hx
      by_cases hxa : x = w.root
      · subst hxa
        rw [hGa] at hx
        cases hx
        exact ⟨_, (Function.update_of_ne (hne hGa).2 ..).trans (cutPlan_left hra), rfl⟩
      · exact ⟨sx, (hG x hxa (hne hx).1 (hne hx).2).trans hx, rfl⟩
    · intro x k sx hx hxa hB q sq sl kx hq hEq hm
      by_cases hqρ : q = ρ
      · subst hqρ
        change Function.update _ q _ q = _ at hEq
        rw [Function.update_self] at hEq
        cases hEq
        simp only [List.mem_cons, Prod.mk.injEq, List.not_mem_nil, or_false] at hm
        rcases hm with ⟨-, rfl⟩ | ⟨-, rfl⟩
        · exact absurd rfl hxa
        · exact absurd rfl (hne hx).1
      · change Function.update _ ρ _ q = _ at hEq hq
        rw [Function.update_of_ne hqρ] at hEq hq
        exact below_split hGa hEa hhalf hr.2 (o := none) nofun nofun nofun hx hB
          q sq sl kx hq hEq hm
    · intro q x k hq _ hlow sl hEx s hs
      obtain ⟨sx, hx⟩ := h.plan_of_parent hq
      have hxa : x ≠ w.root := by
        rintro rfl
        exact h.root_no_parent hq
      change Function.update (splitStore w.E none w.root r shL shR []) ρ _ x = _ at hEx
      rw [Function.update_of_ne (hne hx).2] at hEx
      have hsame : splitStore w.E none w.root r shL shR [] x = w.E x :=
        splitStore_other hxa (hne hx).1 nofun
      exact hlow sl (hsame.symm.trans hEx) s hs

end Grow

end World

end RangeTree
