/-
  NvmTree.RangeTree.Flush — what was decided is written.

  Each lemma is a whole change of the tree as an agent makes it, put together from
  moves: the new world is given with all its parts, it is a tree, the change is
  within what the other agents rely on, and the agent knows where it stands.

  Main results:
    * `Ok.writeNode`  — a cell is written as it is in the tree.
    * `Ok.writeSplit` — a cell is cut and its upper half linked, and both are written.
    * `Ok.cutRoot`    — the root is cut and both halves are written.
    * `Ok.newRoot`    — a new root over the halves of the root.
-/
import NvmTree.RangeTree.Descent

namespace RangeTree

namespace World

variable {I K V A : Type*} [LinearOrder K] [DecidableEq A]
variable {w w' : World I K V A} {m : K → Option V} {i : I} {a r : A} {k b : K} {cap : Nat}
  {sh shL shR : Shape K V A} {f : Frame K A} {fs : List (Frame K A)}

/-! ## §1. One cell. -/

/-- **A cell is written as it is in the tree.** -/
theorem Ok.writeNode (h : w.Ok m) (ha : w.Writes i a) (hE : w.E a = some sh)
    (hw' : { w with raw := Function.update w.raw a (some sh) } = w') :
    w'.Ok m ∧ Guars i w w' ∧ w'.Clean i a ∧ (∀ x, w.Clean i x → w'.Clean i x)
      ∧ ∀ k cap fs, w.Path i k cap none fs a → w'.Path i k cap none fs a := by
  have hok' : w'.Ok m := by
    rw [← hw']
    exact h.writeRaw (i := i) ha
  have hguar : Guar i w w' := by
    rw [← hw']
    exact guar_writeRaw ha
  have hraw : w'.raw a = w'.E a := by
    rw [← hw']
    exact (Function.update_self ..).trans hE.symm
  refine ⟨hok', .one h hok' hguar, ⟨?_, hraw⟩, fun x hx => ⟨?_, ?_⟩, fun k cap fs hpath => ?_⟩
  · rw [← hw']
    exact ha.held
  · rw [← hw']
    exact hx.1
  · by_cases hxa : x = a
    · rw [hxa]
      exact hraw
    · rw [← hw']
      exact (Function.update_of_ne hxa ..).trans hx.2
  · rw [← hw']
    exact hpath.writeRaw h

/-! ## §2. A cell and its new upper half. -/

/-- **A new cell is taken**, which nobody holds. -/
theorem Ok.takeFresh (h : w.Ok m) (hr : w.G r = none) (hfree : ∀ j, w.mode j r = none)
    {μ : I → A → Option Mode} (hμ : ∀ j x, j ≠ i ∨ x ≠ r → μ j x = w.mode j x)
    (hμr : μ i r = some .write) :
    (w.withMode μ).Ok m ∧ Guar i w (w.withMode μ) ∧ (w.withMode μ).Fresh i r := by
  have hother : ∀ j x ν, j ≠ i → w.mode j x = some ν → μ j x = some ν :=
    fun j x ν hj hm => (hμ j x (.inl hj)).trans hm
  refine ⟨h.remode hother ?_ ?_, guar_withMode hother, hμr, hr⟩
  · intro j j' x hj hj'
    by_cases hx : x = r
    · subst hx
      have hone : ∀ e, μ e x ≠ none → e = i := by
        intro e he
        by_contra hne
        exact he ((hμ e x (.inl hne)).trans (hfree e))
      rw [hone j (by rw [hj]; nofun), hone j' hj']
    · rw [hμ j x (.inr hx)] at hj
      rw [hμ j' x (.inr hx)] at hj'
      exact h.excl hj hj'
  · intro x sp hx hw hne
    by_cases hxr : x = r
    · subst hxr
      exact absurd hμr hne
    · exact absurd ((hμ i x (.inr hxr)).trans hw) hne

omit [LinearOrder K] [DecidableEq A] in
theorem Cut.ne (hcut : w.Cut i a r b shL shR) (ha : ∃ sp, w.G a = some sp) : r ≠ a := by
  rintro rfl
  obtain ⟨sp, hsp⟩ := ha
  cases hcut.fresh.2.symm.trans hsp

omit [DecidableEq A] in
/-- The halves of a cut cell begin with the least key and with the cut. -/
theorem Ok.cut_heads (h : w.Ok m) (hcut : w.Cut i a r b shL shR) (ha : ∃ sp, w.G a = some sp) :
    shR.keys.head? = some b
      ∧ ∃ k₀, shL.keys.head? = some k₀ ∧ k₀ ∈ shL.keys ∧ ∀ x ∈ shL.keys, k₀ ≤ x := by
  obtain ⟨sh, hE, hhalf⟩ := hcut.whole
  obtain ⟨sp, hsp⟩ := ha
  obtain ⟨κ, ht⟩ := h.tree
  obtain ⟨hkeys, hne, -⟩ := hhalf.keys
  have hsorted := (ht.nodeOk hsp hE).keys_sorted
  rw [hkeys, List.pairwise_append] at hsorted
  refine ⟨?_, ?_⟩
  · cases hhalf with
    | leaf hL => rfl
    | inner hL => rfl
  · obtain ⟨k₀, rest, hk₀⟩ := List.exists_cons_of_ne_nil hne
    rw [hk₀, List.pairwise_cons] at hsorted
    refine ⟨k₀, by rw [hk₀]; rfl, by rw [hk₀]; exact List.mem_cons_self, fun x hx => ?_⟩
    rw [hk₀] at hx
    rcases List.mem_cons.1 hx with rfl | hx
    · exact le_rfl
    · exact (hsorted.1.1 x hx).le

/-- **Both halves of a cut cell are written.** -/
theorem Ok.writeCut (h : w.Ok m) (hcut : w.Cut i a r b shL shR) (ha : ∃ sp, w.G a = some sp)
    (hw' : { w with
      raw := Function.update (Function.update w.raw a (some shL)) r (some shR) } = w') :
    w'.Ok m ∧ Guars i w w' ∧ w'.Cut i a r b shL shR
      ∧ w'.raw a = some shL ∧ w'.raw r = some shR
      ∧ ∀ x, x ≠ a → x ≠ r → w.Clean i x → w'.Clean i x := by
  have hok₁ : (w.writeRaw a shL).Ok m := h.writeRaw (i := i) hcut.writes
  have hok' : w'.Ok m := by
    rw [← hw']
    exact hok₁.writeRaw (i := i) hcut.fresh.1
  refine ⟨hok', .step h hok₁ (guar_writeRaw hcut.writes) (.one hok₁ hok' ?_), ?_, ?_, ?_, ?_⟩
  · rw [← hw']
    exact guar_writeRaw hcut.fresh.1
  · rw [← hw']
    exact ⟨hcut.writes, hcut.fresh, hcut.whole⟩
  · rw [← hw']
    exact (Function.update_of_ne (hcut.ne ha).symm ..).trans (Function.update_self ..)
  · rw [← hw']
    exact Function.update_self ..
  · rintro x hxa hxr ⟨hheld, hraw⟩
    rw [← hw']
    exact ⟨hheld, ((Function.update_of_ne hxr ..).trans (Function.update_of_ne hxa ..)).trans hraw⟩

/-- **Both halves are written and the new cell is linked**; the parent's row is still
to be written. -/
theorem Ok.writeLink (h : w.Ok m) (hpath : w.Path i k cap none (f :: fs) a)
    (hcut : w.Cut i a r b shL shR) {μ : I → A → Option Mode}
    (hμ : ∀ j x, j ≠ i ∨ x ≠ r → μ j x = w.mode j x) (hμr : μ i r = none) :
    ∃ E' G', ∀ w', { w with
        raw := Function.update (Function.update w.raw a (some shL)) r (some shR)
        E := E'
        G := G'
        mode := μ } = w' →
      w'.Ok m ∧ Guars i w w' ∧ w'.Path i k cap (some (b, r)) (f :: fs) a ∧ w'.Clean i a
      ∧ (∀ x, x ≠ a → x ≠ r → x ≠ f.node → w.Clean i x → w'.Clean i x)
      ∧ ∀ x, x ≠ r → w.G x = none → G' x = none := by
  have hga := hpath.plan h
  have hra := hcut.ne hga
  obtain ⟨E', G', hok₁, hguar₁, hpath₁, hEa, hEr, ⟨sa, hsa⟩, ⟨sr, hsr⟩, hEother, hGother⟩ :=
    h.link hpath hcut
  refine ⟨E', G', fun w' hw' => ?_⟩
  have hok₂ : (({ w with E := E', G := G' } : World I K V A).writeRaw a shL).Ok m :=
    hok₁.writeRaw (i := i) hcut.writes
  have hok₃ : ((({ w with E := E', G := G' } : World I K V A).writeRaw a shL).writeRaw r shR).Ok m :=
    hok₂.writeRaw (i := i) hcut.fresh.1
  have hother : ∀ j x ν, j ≠ i → w.mode j x = some ν → μ j x = some ν :=
    fun j x ν hj hm => (hμ j x (.inl hj)).trans hm
  have hok' : w'.Ok m := by
    rw [← hw']
    refine hok₃.remode (i := i) hother ?_ ?_
    · intro j j' x hj hj'
      have hne : ∀ e, μ e x ≠ none → e ≠ i ∨ x ≠ r := by
        intro e he
        by_contra hnot
        obtain ⟨rfl, rfl⟩ := not_or.1 hnot |>.imp not_not.1 not_not.1
        exact he hμr
      rw [hμ j x (hne j (by rw [hj]; nofun))] at hj
      rw [hμ j' x (hne j' hj')] at hj'
      exact h.excl hj hj'
    · intro x sp hx hwx hne
      by_cases hxr : x = r
      · subst hxr
        exact (Function.update_self ..).trans hEr.symm
      · exact absurd ((hμ i x (.inr hxr)).trans hwx) hne
  have hguar₄ : Guar i (((({ w with E := E', G := G' } : World I K V A)).writeRaw a
      shL).writeRaw r shR) w' := by
    rw [← hw']
    exact guar_withMode hother
  refine ⟨hok', .step h hok₁ hguar₁ (.step hok₁ hok₂ (guar_writeRaw hcut.writes)
    (.step hok₂ hok₃ (guar_writeRaw hcut.fresh.1) (.one hok₃ hok' hguar₄))), ?_, ⟨?_, ?_⟩, ?_, ?_⟩
  · -- the frames are other cells than the halves
    have hframes : ∀ g ∈ f :: fs, g.node ≠ r := by
      rintro g hg rfl
      obtain ⟨sp, hsp⟩ := hga
      obtain ⟨sg, hsg, -⟩ := hpath.level_lt h hsp g hg
      cases hcut.fresh.2.symm.trans hsg
    rw [← hw']
    refine Path.congr (w := { w with E := E', G := G' }) ?_ (fun g hg => ?_) (fun hnil => ?_) hpath₁
    · rfl
    · have h1 := hpath.ne h hg
      have h2 := hframes g hg
      exact ⟨rfl, (Function.update_of_ne h2 ..).trans (Function.update_of_ne h1 ..),
        hμ i g.node (.inr h2), fun sp hsp => ⟨sp, hsp⟩⟩
    · cases hnil
  · rw [← hw']
    show μ i a ≠ none
    rw [hμ i a (.inr hra.symm)]
    exact hcut.writes.held
  · rw [← hw']
    exact ((Function.update_of_ne hra.symm ..).trans (Function.update_self ..)).trans hEa.symm
  · rintro x hxa hxr hxf ⟨hheld, hraw⟩
    rw [← hw']
    refine ⟨?_, ?_⟩
    · show μ i x ≠ none
      rw [hμ i x (.inr hxr)]
      exact hheld
    · show Function.update (Function.update w.raw a (some shL)) r (some shR) x = E' x
      rw [Function.update_of_ne hxr, Function.update_of_ne hxa, hEother x hxa hxr hxf]
      exact hraw
  · intro x hxr hx
    rw [hGother x ?_ hxr]
    · exact hx
    · rintro rfl
      obtain ⟨sp, hsp⟩ := hga
      cases hx.symm.trans hsp

/-! ## §3. A new root. -/

/-- **A new root is written** over the halves of the root, which are. -/
theorem Ok.writeRoot {ρ : A} {k₀ : K} (h : w.Ok m) (hcut : w.Cut i w.root r b shL shR)
    (hρ : w.Fresh i ρ) (hrρ : r ≠ ρ) (hk₀ : k₀ ∈ shL.keys) (hmin : ∀ x ∈ shL.keys, k₀ ≤ x)
    (hraw : w.raw w.root = some shL) (hrawr : w.raw r = some shR) {μ : I → A → Option Mode}
    (hμ : ∀ j x, j ≠ i ∨ (x ≠ r ∧ x ≠ ρ) → μ j x = w.mode j x) (hμr : μ i r = none)
    (hμρ : μ i ρ = none)
    (hw' : ((w.growAt r ρ shL shR k₀ b).writeRaw ρ
      (.inner [(k₀, w.root), (b, r)])).withMode μ = w') :
    w'.Ok m ∧ Guars i w w' ∧ w'.Clean i w.root
      ∧ (∀ x, x ≠ w.root → x ≠ r → x ≠ ρ → w.Clean i x → w'.Clean i x)
      ∧ ∀ x, x ≠ r → x ≠ ρ → w.G x = none → w'.G x = none := by
  obtain ⟨sh, hEa, hhalf⟩ := hcut.whole
  obtain ⟨hok₁, hguar₁⟩ := h.growAt hEa hhalf hcut.fresh hρ hrρ hk₀ hmin hcut.writes
  have hGroot := h.plan_root
  have hra := hcut.ne ⟨_, hGroot⟩
  have hρa : ρ ≠ w.root := by
    rintro rfl
    cases hρ.2.symm.trans hGroot
  have hok₂ : ((w.growAt r ρ shL shR k₀ b).writeRaw ρ (.inner [(k₀, w.root), (b, r)])).Ok m :=
    hok₁.writeRaw (i := i) hρ.1
  have hEroot : (w.growAt r ρ shL shR k₀ b).E w.root = some shL :=
    (Function.update_of_ne hρa.symm ..).trans (splitStore_left nofun hra)
  have hEρ : (w.growAt r ρ shL shR k₀ b).E ρ = some (.inner [(k₀, w.root), (b, r)]) :=
    Function.update_self ..
  have hEr : (w.growAt r ρ shL shR k₀ b).E r = some shR :=
    (Function.update_of_ne hrρ ..).trans (splitStore_right nofun)
  have hother : ∀ j x ν, j ≠ i → w.mode j x = some ν → μ j x = some ν :=
    fun j x ν hj hm => (hμ j x (.inl hj)).trans hm
  have hok' : w'.Ok m := by
    rw [← hw']
    refine hok₂.remode (i := i) hother ?_ ?_
    · intro j j' x hj hj'
      have hne : ∀ e, μ e x ≠ none → e ≠ i ∨ (x ≠ r ∧ x ≠ ρ) := by
        intro e he
        by_cases hei : e = i
        · subst hei
          refine .inr ⟨?_, ?_⟩
          · rintro rfl
            exact he hμr
          · rintro rfl
            exact he hμρ
        · exact .inl hei
      rw [hμ j x (hne j (by rw [hj]; nofun))] at hj
      rw [hμ j' x (hne j' hj')] at hj'
      exact h.excl hj hj'
    · intro x sp hx hwx hne
      by_cases hxρ : x = ρ
      · subst hxρ
        exact (Function.update_self ..).trans hEρ.symm
      · by_cases hxr : x = r
        · subst hxr
          exact ((Function.update_of_ne hxρ ..).trans hrawr).trans hEr.symm
        · exact absurd ((hμ i x (.inr ⟨hxr, hxρ⟩)).trans hwx) hne
  have hguar₃ : Guar i ((w.growAt r ρ shL shR k₀ b).writeRaw ρ (.inner [(k₀, w.root), (b, r)])) w' := by
    rw [← hw']
    exact guar_withMode hother
  refine ⟨hok', .step h hok₁ hguar₁ (.step hok₁ hok₂ (guar_writeRaw hρ.1)
    (.one hok₂ hok' hguar₃)), ⟨?_, ?_⟩, ?_, ?_⟩
  · rw [← hw']
    show μ i w.root ≠ none
    rw [hμ i w.root (.inr ⟨hra.symm, hρa.symm⟩)]
    exact hcut.writes.held
  · rw [← hw']
    exact ((Function.update_of_ne hρa.symm ..).trans hraw).trans hEroot.symm
  · rintro x hxa hxr hxρ ⟨hheld, hx⟩
    rw [← hw']
    refine ⟨?_, ?_⟩
    · show μ i x ≠ none
      rw [hμ i x (.inr ⟨hxr, hxρ⟩)]
      exact hheld
    · have hE : (w.growAt r ρ shL shR k₀ b).E x = w.E x :=
        (Function.update_of_ne hxρ ..).trans (splitStore_other hxa hxr nofun)
      exact ((Function.update_of_ne hxρ ..).trans hx).trans hE.symm
  · intro x hxr hxρ hx
    rw [← hw']
    have hxa : x ≠ w.root := by
      rintro rfl
      cases hx.symm.trans hGroot
    exact ((Function.update_of_ne hxρ ..).trans (cutPlan_other hxa hxr)).trans hx

/-! ## §4. Cells that are new and linked at once. -/

section Take

variable [DecidableEq I]

/-- The modes with the cell `r` taken by `i`. -/
def taking (w : World I K V A) (i : I) (r : A) : I → A → Option Mode :=
  Function.update w.mode i (Function.update (w.mode i) r (some .write))

omit [LinearOrder K] in
theorem taking_other {j : I} {x : A} (h : j ≠ i ∨ x ≠ r) : w.taking i r j x = w.mode j x := by
  unfold taking
  by_cases hj : j = i
  · subst hj
    rw [Function.update_self, Function.update_of_ne (h.resolve_left (fun hn => hn rfl))]
  · rw [Function.update_of_ne hj]

omit [LinearOrder K] in
theorem taking_self : w.taking i r i r = some .write := by
  unfold taking
  rw [Function.update_self, Function.update_self]

/-- **A cell is cut, its upper half linked and both halves are written.** -/
theorem Ok.writeSplit (h : w.Ok m) (hr : w.G r = none) (hfree : ∀ j, w.mode j r = none)
    (hpath : w.Path i k cap none (f :: fs) a) (ha : w.Writes i a) (hE : w.E a = some sh)
    (hhalf : Halves r b sh shL shR) :
    ∃ E' G', ∀ w', { w with
        raw := Function.update (Function.update w.raw a (some shL)) r (some shR)
        E := E'
        G := G' } = w' →
      w'.Ok m ∧ Guars i w w' ∧ w'.Path i k cap (some (b, r)) (f :: fs) a ∧ w'.Clean i a
      ∧ (∀ x, x ≠ a → x ≠ r → x ≠ f.node → w.Clean i x → w'.Clean i x)
      ∧ ∀ x, x ≠ r → w.G x = none → G' x = none := by
  have hga := hpath.plan h
  have hra : a ≠ r := by
    rintro rfl
    obtain ⟨sp, hsp⟩ := hga
    cases hr.symm.trans hsp
  obtain ⟨hok₁, hguar₁, hfresh⟩ := h.takeFresh hr hfree (μ := w.taking i r)
    (fun _ _ hne => taking_other hne) taking_self
  have hframes : ∀ g ∈ f :: fs, g.node ≠ r := by
    rintro g hg rfl
    obtain ⟨sp, hsp⟩ := hga
    obtain ⟨sg, hsg, -⟩ := hpath.level_lt h hsp g hg
    cases hr.symm.trans hsg
  have hpath₁ : (w.withMode (w.taking i r)).Path i k cap none (f :: fs) a := by
    refine Path.congr (w := w) ?_ (fun g hg => ?_) (fun hnil => ?_) hpath
    · rfl
    · exact ⟨rfl, rfl, taking_other (.inr (hframes g hg)), fun sp hsp => ⟨sp, hsp⟩⟩
    · cases hnil
  have hcut : (w.withMode (w.taking i r)).Cut i a r b shL shR :=
    ⟨(taking_other (.inr hra)).trans ha, hfresh, sh, hE, hhalf⟩
  obtain ⟨E', G', hlink⟩ := hok₁.writeLink hpath₁ hcut (μ := w.mode)
    (fun _ _ hne => (taking_other hne).symm) (hfree i)
  refine ⟨E', G', fun w' hw' => ?_⟩
  obtain ⟨hok', hguars, hpath', hclean, hkeep, hplan⟩ := hlink w' hw'
  refine ⟨hok', .step h hok₁ hguar₁ hguars, hpath', hclean, fun x hxa hxr hxf hx => ?_, hplan⟩
  refine hkeep x hxa hxr hxf ⟨?_, hx.2⟩
  show w.taking i r i x ≠ none
  rw [taking_other (.inr hxr)]
  exact hx.1

omit [DecidableEq I] in
/-- **The root is cut and both halves are written**; the upper one stays with `i`. -/
theorem Ok.cutRoot (h : w.Ok m) (hr : w.G r = none) (hfree : ∀ j, w.mode j r = none)
    (ha : w.Writes i w.root) (hE : w.E w.root = some sh) (hhalf : Halves r b sh shL shR)
    {μ : I → A → Option Mode} (hμ : ∀ j x, j ≠ i ∨ x ≠ r → μ j x = w.mode j x)
    (hμr : μ i r = some .write)
    (hw' : { w with
      raw := Function.update (Function.update w.raw w.root (some shL)) r (some shR)
      mode := μ } = w') :
    w'.Ok m ∧ Guars i w w' ∧ w'.Cut i w.root r b shL shR
      ∧ w'.raw w.root = some shL ∧ w'.raw r = some shR
      ∧ ∀ x, x ≠ w.root → x ≠ r → w.Clean i x → w'.Clean i x := by
  have hra : w.root ≠ r := by
    intro he
    have hroot := h.plan_root
    rw [he, hr] at hroot
    cases hroot
  obtain ⟨hok₁, hguar₁, hfresh⟩ := h.takeFresh hr hfree hμ hμr
  have hcut : (w.withMode μ).Cut i w.root r b shL shR :=
    ⟨(hμ i _ (.inr hra)).trans ha, hfresh, sh, hE, hhalf⟩
  obtain ⟨hok', hguars, hcut', hleft, hright, hkeep⟩ :=
    hok₁.writeCut hcut ⟨_, h.plan_root⟩ hw'
  refine ⟨hok', .step h hok₁ hguar₁ hguars, hcut', hleft, hright, fun x hxa hxr hx => ?_⟩
  refine hkeep x hxa hxr ⟨?_, hx.2⟩
  show μ i x ≠ none
  rw [hμ i x (.inr hxr)]
  exact hx.1

/-- **A new cell becomes the root** over the halves of the old one. -/
theorem Ok.newRoot {ρ : A} {k₀ : K} (h : w.Ok m) (hcut : w.Cut i w.root r b shL shR)
    (hρ : w.G ρ = none) (hfree : ∀ j, w.mode j ρ = none) (hk₀ : k₀ ∈ shL.keys)
    (hmin : ∀ x ∈ shL.keys, k₀ ≤ x) (hraw : w.raw w.root = some shL) (hrawr : w.raw r = some shR)
    {μ : I → A → Option Mode} (hμ : ∀ j x, j ≠ i ∨ x ≠ r → μ j x = w.mode j x)
    (hμr : μ i r = none)
    (hw' : ((w.growAt r ρ shL shR k₀ b).writeRaw ρ
      (.inner [(k₀, w.root), (b, r)])).withMode μ = w') :
    w'.Ok m ∧ Guars i w w' ∧ w'.Clean i w.root
      ∧ (∀ x, x ≠ w.root → x ≠ r → x ≠ ρ → w.Clean i x → w'.Clean i x)
      ∧ ∀ x, x ≠ r → x ≠ ρ → w.G x = none → w'.G x = none := by
  have hrρ : r ≠ ρ := by
    rintro rfl
    cases (hfree i).symm.trans hcut.fresh.1
  have hρa : w.root ≠ ρ := by
    intro he
    have hroot := h.plan_root
    rw [he, hρ] at hroot
    cases hroot
  obtain ⟨hok₁, hguar₁, hfresh⟩ := h.takeFresh hρ hfree (μ := w.taking i ρ)
    (fun _ _ hne => taking_other hne) taking_self
  have hcut₁ : (w.withMode (w.taking i ρ)).Cut i w.root r b shL shR :=
    ⟨(taking_other (.inr hρa)).trans hcut.writes,
      ⟨(taking_other (.inr hrρ)).trans hcut.fresh.1, hcut.fresh.2⟩, hcut.whole⟩
  have hμ₁ : ∀ j x, j ≠ i ∨ (x ≠ r ∧ x ≠ ρ) → μ j x = (w.withMode (w.taking i ρ)).mode j x := by
    rintro j x hne
    rw [hμ j x (hne.imp_right And.left)]
    exact (taking_other (hne.imp_right And.right)).symm
  have hμρ : μ i ρ = none := (hμ i ρ (.inr hrρ.symm)).trans (hfree i)
  obtain ⟨hok', hguars, hclean, hkeep, hplan⟩ :=
    hok₁.writeRoot hcut₁ hfresh hrρ hk₀ hmin hraw hrawr hμ₁ hμr hμρ hw'
  refine ⟨hok', .step h hok₁ hguar₁ hguars, hclean, fun x hxa hxr hxρ hx => ?_, hplan⟩
  refine hkeep x hxa hxr hxρ ⟨?_, hx.2⟩
  show w.taking i ρ i x ≠ none
  rw [taking_other (.inr hxρ)]
  exact hx.1

end Take

end World

end RangeTree
