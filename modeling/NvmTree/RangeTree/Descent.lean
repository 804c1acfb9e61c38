/-
  NvmTree.RangeTree.Descent — what an agent learns from a cell it holds.

  An agent at a cell that is responsible for its key goes to the child whose
  slot it finds by comparing keys, and is at that child; at a leaf it learns
  whether the key is bound.  With write mode it may keep the cell as a frame of
  its path, and lower the first key on the way.

  Main results: `Ok.descend`, `Ok.lookup`, `Ok.lookup_below`, `Path.push`,
  `Ok.push_lower`.
-/
import NvmTree.RangeTree.Moves

namespace RangeTree

namespace World

variable {I K V A : Type*} [LinearOrder K]
variable {w : World I K V A} {m : K → Option V} {i : I} {a c : A} {k ki : K}

/-- **Down to the child whose slot was found.** -/
theorem Ok.descend (h : w.Ok m) (hat : w.At i a k) (hheld : w.Held i a) {xs ys : List (K × A)}
    (hE : w.E a = some (.inner (xs ++ (ki, c) :: ys))) (hki : ki ≤ k) (hys : ∀ s ∈ ys, k < s.1) :
    w.At i c k := by
  obtain ⟨κ, ht⟩ := h.tree
  obtain ⟨sp, hG, hk⟩ := hat.plan
  obtain ⟨sc, hc, -, hkc⟩ := ht.locate hG hE hk (fun _ => hki) hys
  exact ⟨⟨sc, hc, hkc⟩, ht.below_child hG hE (by simp) hki,
    Or.inr ⟨a, ⟨sp, _, ki, hG, hE, by simp⟩, hheld⟩⟩

/-- The child is one level down. -/
theorem Ok.level_child (h : w.Ok m) {sp : Span K} (hG : w.G a = some sp) {slots : List (K × A)}
    (hE : w.E a = some (.inner slots)) (hm : (ki, c) ∈ slots) :
    ∃ sc, w.G c = some sc ∧ sc.level + 1 = sp.level := by
  obtain ⟨κ, ht⟩ := h.tree
  obtain ⟨sc, hc, hl, -⟩ := ht.child hG hE hm
  exact ⟨sc, hc, hl⟩

theorem Ok.child_ne (h : w.Ok m) {sp : Span K} (hG : w.G a = some sp) {slots : List (K × A)}
    (hE : w.E a = some (.inner slots)) (hm : (ki, c) ∈ slots) : c ≠ a := by
  obtain ⟨κ, ht⟩ := h.tree
  exact ht.child_ne hG hE hm

theorem Ok.sorted_inner (h : w.Ok m) {sp : Span K} (hG : w.G a = some sp) {slots : List (K × A)}
    (hE : w.E a = some (.inner slots)) : SortedKeys slots ∧ slots ≠ [] ∧ 2 ≤ sp.level := by
  obtain ⟨κ, ht⟩ := h.tree
  have hin := ht.innerOk hG hE
  exact ⟨hin.sorted, hin.covers.ne_nil, hin.level⟩

theorem Ok.sorted_leaf (h : w.Ok m) {sp : Span K} (hG : w.G a = some sp) {es : List (K × V)}
    {next : Option A} (hE : w.E a = some (.leaf es next)) : SortedKeys es ∧ sp.level = 1 := by
  obtain ⟨κ, ht⟩ := h.tree
  have hl := ht.leafOk hG hE
  exact ⟨hl.sorted, hl.level⟩

/-- **A leaf decides its keys.** -/
theorem Ok.lookup (h : w.Ok m) (hat : w.At i a k) {es : List (K × V)} {next : Option A}
    (hE : w.E a = some (.leaf es next)) (v : V) : m k = some v ↔ (k, v) ∈ es := by
  obtain ⟨κ, ht⟩ := h.tree
  obtain ⟨sp, hG, hk⟩ := hat.plan
  rw [h.map k v, ht.holds_iff hG hE hk]

/-- A key below all slots is not bound. -/
theorem Ok.lookup_below (h : w.Ok m) (hat : w.At i a k) {slots : List (K × A)}
    (hE : w.E a = some (.inner slots)) (hlt : ∀ s ∈ slots, k < s.1) : m k = none := by
  obtain ⟨κ, ht⟩ := h.tree
  obtain ⟨sp, hG, hk⟩ := hat.plan
  cases hm : m k with
  | none => rfl
  | some v =>
      refine (ht.not_holds_of_below sp.level rfl hG hE hk ?_ ((h.map k v).1 hm)).elim
      intro x hx
      obtain ⟨s, hs, rfl⟩ := List.mem_map.1 hx
      exact hlt s hs

variable {cap : Nat} {fs : List (Frame K A)}

/-- **Keeping a cell as a frame.** -/
theorem Path.push (hpath : w.Path i k cap none fs a) (hG : ∃ sp, w.G a = some sp)
    (hw : w.Writes i a) (hclean : w.Clean i a) {xs ys : List (K × A)}
    (hE : w.E a = some (.inner (xs ++ (ki, c) :: ys))) (hki : ki ≤ k)
    (hsize : (xs ++ (ki, c) :: ys).length ≤ cap) :
    w.Path i k cap none (⟨a, xs ++ (ki, c) :: ys, xs.length, false⟩ :: fs) c :=
  ⟨⟨hG, hw, ⟨xs, ki, ys, rfl, rfl, hki, by simpa using hE⟩, hsize,
    fun _ => hclean.2.trans hE⟩, Or.inl hpath⟩

variable [DecidableEq A]

/-- **Lowering the first key on the way**: the frame is modified. -/
theorem Ok.push_lower (h : w.Ok m) (hat : w.At i a k) (hw : w.Writes i a)
    (hpath : w.Path i k cap none fs a) {k₀ : K} {rest : List (K × A)}
    (hE : w.E a = some (.inner ((k₀, c) :: rest))) (hlt : ∀ s ∈ (k₀, c) :: rest, k < s.1)
    (hsize : ((k₀, c) :: rest).length ≤ cap) :
    (w.setE a (.inner ((k, c) :: rest))).Ok m
      ∧ Guar i w (w.setE a (.inner ((k, c) :: rest)))
      ∧ (w.setE a (.inner ((k, c) :: rest))).At i c k
      ∧ (w.setE a (.inner ((k, c) :: rest))).Path i k cap none
          (⟨a, (k, c) :: rest, 0, true⟩ :: fs) c := by
  have hk₀ : k < k₀ := hlt (k₀, c) (by simp)
  have hparent : ∀ p, w.Parent p a → w.Writes i p := by
    intro p hp
    cases fs with
    | nil => exact (h.root_no_parent (hpath.2.1 ▸ hp)).elim
    | cons f fs => exact h.parent_unique hpath.1.parent hp ▸ hpath.1.writes
  obtain ⟨hok, hguar⟩ := h.lower hw hat hE hk₀ hparent
  have hE' : (w.setE a (.inner ((k, c) :: rest))).E a = some (.inner ((k, c) :: rest)) :=
    Function.update_self ..
  have hat' : (w.setE a (.inner ((k, c) :: rest))).At i a k := by
    obtain ⟨sp, hG, hk⟩ := hat.plan
    refine ⟨⟨sp, hG, hk⟩, ?_, Or.inl hw.held⟩
    by_cases hroot : a = w.root
    · subst hroot
      exact hok.below_root
    · exact hguar.below a k sp hG hroot hat.below
  refine ⟨hok, hguar, ?_, ?_⟩
  · have hfirst : (w.setE a (.inner ((k, c) :: rest))).E a
        = some (.inner ([] ++ (k, c) :: rest)) := hE'
    refine hok.descend hat' hw.held hfirst le_rfl ?_
    exact fun s hs => hlt s (List.mem_cons_of_mem _ hs)
  · refine ⟨⟨hat.plan.imp fun _ hsp => hsp.1, hw, ⟨[], k, rest, rfl, rfl, le_rfl, hE'⟩, ?_, nofun⟩,
      Or.inl (hpath.setE h)⟩
    simpa using hsize

end World

end RangeTree
