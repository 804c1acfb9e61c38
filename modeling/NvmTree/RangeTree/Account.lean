/-
  NvmTree.RangeTree.Account — the cells in use are those the walk reaches.

  `Accounted` is what it means for a store to have neither leaks nor dangling
  references: the cells in use are those reached from the root, one slot leads to
  each of them but the root, and `next` leads to a leaf that is reached.

  Main results:
    * `Tree.accounted` — a tree whose cells are the cells in use.
    * `Accounted.rename` — the same after the addresses are renamed.
-/
import NvmTree.RangeTree.Walk

namespace RangeTree

variable {K V A B : Type*}

/-! ## §1. Slots and accounts. -/

/-- Slot `i` of the reached cell `p` leads to `x`. -/
def SlotOf (E : Store K V A) (root x p : A) (i : Nat) : Prop :=
  ∃ n slots k, Reach E root n p ∧ E p = some (.inner slots) ∧ slots[i]? = some (k, x)

/-- **Nothing leaks and nothing dangles.** -/
structure Accounted (E : Store K V A) (root : A) (used : A → Prop) : Prop where
  used_iff : ∀ x, used x ↔ ∃ n, Reach E root n x
  /-- No slot leads to the root. -/
  root_slot : ∀ p i, ¬ SlotOf E root root p i
  /-- One slot leads to every other cell. -/
  slot : ∀ x n, Reach E root n x → x ≠ root →
    ∃ p i, SlotOf E root x p i ∧ ∀ q j, SlotOf E root x q j → q = p ∧ j = i
  next : ∀ x n es y, Reach E root n x → E x = some (.leaf es (some y)) →
    ∃ n' es' next', Reach E root n' y ∧ E y = some (.leaf es' next')

/-- A cell other than the root is reached through a slot. -/
theorem Reach.exists_slot {E : Store K V A} {root x : A} {n : Nat} (hr : Reach E root n x)
    (hx : x ≠ root) : ∃ p i, SlotOf E root x p i := by
  cases hr with
  | root => exact absurd rfl hx
  | child hp hE hm =>
      obtain ⟨i, hi⟩ := List.mem_iff_getElem?.1 hm
      exact ⟨_, i, _, _, _, hp, hE, hi⟩

variable [LinearOrder K] {E : Store K V A} {G : Plan K A} {depth : Nat}

/-- **A tree is accounted for** when the cells in use are those of its plan. -/
theorem Tree.accounted {κ : K} {root : A} (h : Tree E G [(κ, root)] depth) :
    Accounted E root (fun x => ∃ sp, G x = some sp) := by
  refine ⟨fun x => ?_, fun p i => ?_, fun x n hr hx => ?_, fun x n es y hr hE => ?_⟩
  · constructor
    · rintro ⟨sp, hG⟩
      exact h.reach_of_plan hG
    · rintro ⟨n, hr⟩
      obtain ⟨sp, hG, -⟩ := h.reach_plan hr
      exact ⟨sp, hG⟩
  · rintro ⟨n, slots, k, hp, hE, hi⟩
    obtain ⟨sp, hG, -⟩ := h.reach_plan hp
    exact h.top_not_child hG hE (show (κ, root) ∈ _ by simp) (List.mem_of_getElem? hi)
  · obtain ⟨p, i, hp⟩ := hr.exists_slot hx
    refine ⟨p, i, hp, fun q j hq => ?_⟩
    obtain ⟨n₁, slots, k₁, hr₁, hE₁, hi⟩ := hp
    obtain ⟨n₂, slots', k₂, hr₂, hE₂, hj⟩ := hq
    obtain ⟨sp, hG₁, -⟩ := h.reach_plan hr₁
    obtain ⟨sq, hG₂, -⟩ := h.reach_plan hr₂
    obtain rfl : q = p := h.parent_unique hG₂ hG₁ hE₂ hE₁ (List.mem_of_getElem? hj)
      (List.mem_of_getElem? hi)
    rw [hE₁] at hE₂
    cases hE₂
    -- the children of a cell are distinct, so the slot is the same too
    have hnd := (h.innerOk hG₁ hE₁).covers.nodup
    have hi' : (slots.map Prod.snd)[i]? = some x := by rw [List.getElem?_map, hi]; rfl
    have hj' : (slots.map Prod.snd)[j]? = some x := by rw [List.getElem?_map, hj]; rfl
    exact ⟨rfl, (List.getElem?_inj (List.getElem?_eq_some_iff.1 hj').1 hnd).1 (hj'.trans hi'.symm)⟩
  · obtain ⟨sp, hG, -⟩ := h.reach_plan hr
    obtain ⟨hi', hy⟩ := (h.leafOk hG hE).next
    obtain ⟨n', hr'⟩ := h.reach_of_plan hy
    rcases h.cases hy with ⟨es', next', hE', -⟩ | ⟨slots, -, hl⟩
    · exact ⟨n', es', next', hr', hE'⟩
    · simp only at hl
      omega

omit [LinearOrder K] in
/-- One empty leaf is accounted for, whatever the keys are. -/
theorem accounted_single {root : A} (hE : E root = some (.leaf [] none)) :
    Accounted E root (fun x => x = root) := by
  refine ⟨fun x => ?_, fun p i => ?_, fun x n hr hx => ?_, fun x n es y hr hEx => ?_⟩
  · constructor
    · rintro rfl
      exact ⟨1, Reach.root⟩
    · rintro ⟨n, hr⟩
      exact (hr.of_leaf hE).2
  · rintro ⟨n, slots, k, hp, hEp, -⟩
    rw [(hp.of_leaf hE).2, hE] at hEp
    cases hEp
  · exact absurd (hr.of_leaf hE).2 hx
  · rw [(hr.of_leaf hE).2, hE] at hEx
    cases hEx

/-! ## §2. Renaming the addresses. -/

/-- A cell with its addresses renamed. -/
def Shape.map (f : A → B) : Shape K V A → Shape K V B
  | .leaf es next => .leaf es (next.map f)
  | .inner slots => .inner (slots.map (Prod.map id f))

section Rename

variable {E : Store K V A} {E' : Store K V B} {root : A} {used : A → Prop} {f : A → B}

omit [LinearOrder K] in
/-- Every reached cell is in `E'`, renamed. -/
def Renames (f : A → B) (E : Store K V A) (E' : Store K V B) (root : A) : Prop :=
  ∀ n x, Reach E root n x → ∃ sh, E x = some sh ∧ E' (f x) = some (sh.map f)

omit [LinearOrder K] in
theorem Renames.reach (hf : Renames f E E' root) {n : Nat} {x : A} (hr : Reach E root n x) :
    Reach E' (f root) n (f x) := by
  induction hr with
  | root => exact Reach.root
  | child hp hE hm ih =>
      obtain ⟨sh, hE₁, hE'⟩ := hf _ _ hp
      rw [hE] at hE₁
      cases hE₁
      exact Reach.child ih hE' (List.mem_map_of_mem hm)

omit [LinearOrder K] in
/-- What is reached in `E'` is a renamed cell. -/
theorem Renames.reach_inv (hf : Renames f E E' root) {n : Nat} {y : B}
    (hr : Reach E' (f root) n y) : ∃ x, y = f x ∧ Reach E root n x := by
  induction hr with
  | root => exact ⟨root, rfl, Reach.root⟩
  | child hp hE hm ih =>
      obtain ⟨p, rfl, hrp⟩ := ih
      obtain ⟨sh, hEp, hE'⟩ := hf _ _ hrp
      rw [hE] at hE'
      cases sh with
      | leaf es next => cases hE'
      | inner slots =>
          cases hE'
          obtain ⟨⟨k, c⟩, hs, he⟩ := List.mem_map.1 hm
          cases he
          exact ⟨c, rfl, Reach.child hrp hEp hs⟩

omit [LinearOrder K] in
theorem Renames.slotOf (hf : Renames f E E' root) {x p : A} {i : Nat} (h : SlotOf E root x p i) :
    SlotOf E' (f root) (f x) (f p) i := by
  obtain ⟨n, slots, k, hr, hE, hi⟩ := h
  obtain ⟨sh, hE₁, hE'⟩ := hf _ _ hr
  rw [hE] at hE₁
  cases hE₁
  exact ⟨n, slots.map (Prod.map id f), k, hf.reach hr, hE', by rw [List.getElem?_map, hi]; rfl⟩

omit [LinearOrder K] in
theorem Renames.slotOf_inv (hf : Renames f E E' root) {y q : B} {i : Nat}
    (h : SlotOf E' (f root) y q i) :
    ∃ x p, y = f x ∧ q = f p ∧ SlotOf E root x p i := by
  obtain ⟨n, slots', k, hr, hE', hi⟩ := h
  obtain ⟨p, rfl, hrp⟩ := hf.reach_inv hr
  obtain ⟨sh, hE, hE₁⟩ := hf _ _ hrp
  rw [hE'] at hE₁
  cases sh with
  | leaf es next => cases hE₁
  | inner slots =>
      cases hE₁
      rw [List.getElem?_map] at hi
      obtain ⟨⟨k', c⟩, hc, he⟩ := Option.map_eq_some_iff.1 hi
      cases he
      exact ⟨c, p, rfl, rfl, n, slots, k', hrp, hE, hc⟩

omit [LinearOrder K] in
/-- **Accounts survive a renaming** that keeps the reached cells apart. -/
theorem Accounted.rename (h : Accounted E root used) (hf : Renames f E E' root)
    (hinj : ∀ x y, used x → used y → f x = f y → x = y) :
    Accounted E' (f root) (fun y => ∃ x, used x ∧ f x = y) := by
  have hused : ∀ {n x}, Reach E root n x → used x := fun hr => (h.used_iff _).2 ⟨_, hr⟩
  have hslot : ∀ {x p i}, SlotOf E root x p i → used x ∧ used p := by
    rintro x p i ⟨n, slots, k, hr, hE, hi⟩
    exact ⟨hused (hr.child hE (List.mem_of_getElem? hi)), hused hr⟩
  refine ⟨fun y => ?_, fun q i hq => ?_, fun y n hr hy => ?_, fun y n es z hr hE' => ?_⟩
  · constructor
    · rintro ⟨x, hx, rfl⟩
      obtain ⟨n, hr⟩ := (h.used_iff x).1 hx
      exact ⟨n, hf.reach hr⟩
    · rintro ⟨n, hr⟩
      obtain ⟨x, rfl, hrx⟩ := hf.reach_inv hr
      exact ⟨x, hused hrx, rfl⟩
  · obtain ⟨x, p, hx, rfl, hp⟩ := hf.slotOf_inv hq
    have hroot := hinj root x (hused Reach.root) (hslot hp).1 hx
    exact h.root_slot p i (hroot ▸ hp)
  · obtain ⟨x, rfl, hrx⟩ := hf.reach_inv hr
    obtain ⟨p, i, hp, huniq⟩ := h.slot x n hrx (fun he => hy (by rw [he]))
    refine ⟨f p, i, hf.slotOf hp, fun q j hq => ?_⟩
    obtain ⟨x', p', hx, rfl, hp'⟩ := hf.slotOf_inv hq
    obtain rfl := hinj x x' (hused hrx) (hslot hp').1 hx
    obtain ⟨rfl, rfl⟩ := huniq p' j hp'
    exact ⟨rfl, rfl⟩
  · obtain ⟨x, rfl, hrx⟩ := hf.reach_inv hr
    obtain ⟨sh, hE, hE₁⟩ := hf _ _ hrx
    rw [hE'] at hE₁
    cases sh with
    | inner slots => cases hE₁
    | leaf es' next =>
        cases next with
        | none => cases hE₁
        | some w =>
            cases hE₁
            obtain ⟨n', es₁, next₁, hr', hEw⟩ := h.next x n es w hrx hE
            obtain ⟨sh, hEw', hE₁⟩ := hf _ _ hr'
            rw [hEw] at hEw'
            cases hEw'
            exact ⟨n', es₁, next₁.map f, hf.reach hr', hE₁⟩

end Rename

end RangeTree
