/-
  NvmTree.RangeTree.World — a tree that several agents change at once.

  The agents hold cells in read or write mode.  `raw` is what the cells contain;
  `E` is the store of the tree as it will be when the agents have written what
  they have decided.  The two differ only in cells held in write mode, so an
  agent that gets hold of a cell sees the tree.  A cell that an agent created and
  has not linked yet counts as held in write mode.

  `Guar j w w'` says what a step of agent `j` may do to the world, whoever
  watches: it changes cells that `j` holds in write mode, and it changes the span
  of a cell, or lowers the first key of its row, only when `j` also holds the parent
  so.  What another agent knows is stable under it:

    * `At i a k`     — cell `a` is responsible for key `k`, and `i` holds it or
      its parent;
    * `Near i a`     — the same without the key;
    * `Path … fs a`  — the cells of `fs`, held in write mode, lead to `a`, and
      their rows are the copies in `fs`;
    * `Fresh i r`    — a cell that `i` has created and not linked.

  Main results: the `stable` lemmas, one for each.
-/
import NvmTree.RangeTree.Update

namespace RangeTree

inductive Mode where
  | read
  | write
  deriving Repr, DecidableEq

/-- The cells, the tree in them, and who holds what. -/
structure World (I K V A : Type*) where
  raw : Store K V A
  E : Store K V A
  G : Plan K A
  root : A
  depth : Nat
  mode : I → A → Option Mode

namespace World

variable {I K V A : Type*} [LinearOrder K]

def Held (w : World I K V A) (i : I) (x : A) : Prop := w.mode i x ≠ none

def Writes (w : World I K V A) (i : I) (x : A) : Prop := w.mode i x = some .write

/-- `a` is in the row of the cell `p`. -/
def Parent (w : World I K V A) (p a : A) : Prop :=
  ∃ sp slots k, w.G p = some sp ∧ w.E p = some (.inner slots) ∧ (k, a) ∈ slots

/-- `k` is below every slot of `x`, if that is an inner cell. -/
def BelowSlots (w : World I K V A) (k : K) (x : A) : Prop :=
  ∀ slots, w.E x = some (.inner slots) → ∀ s ∈ slots, k < s.1

/-- The world holds a tree of the map `m`. -/
structure Ok (w : World I K V A) (m : K → Option V) : Prop where
  tree : ∃ κ, Tree w.E w.G [(κ, w.root)] w.depth
  map : Represents w.E w.G m
  excl : ∀ {i j x}, w.Writes i x → w.Held j x → i = j
  clean : ∀ {x sp}, w.G x = some sp → (∀ i, ¬ w.Writes i x) → w.raw x = w.E x

/-- **What a step of agent `j` may do.** -/
structure Guar (j : I) (w w' : World I K V A) : Prop where
  store : ∀ x, ¬ w.Writes j x → w'.E x = w.E x ∧ w'.raw x = w.raw x
  plan : ∀ x, ¬ w.Writes j x → w'.G x = w.G x
  planUnder : ∀ p x, w.Parent p x → ¬ w.Writes j p → w'.G x = w.G x
  level : ∀ x sp, w.G x = some sp → ∃ sp', w'.G x = some sp' ∧ sp'.level = sp.level
  below : ∀ x k sp, w.G x = some sp → x ≠ w.root → Below w.E w.G x k → Below w'.E w'.G x k
  low : ∀ p x k, w.Parent p x → ¬ w.Writes j p → w.BelowSlots k x → w'.BelowSlots k x
  mode : ∀ i x μ, i ≠ j → w.mode i x = some μ → w'.mode i x = some μ
  root : ¬ w.Writes j w.root → w'.root = w.root ∧ w'.depth = w.depth
  fresh : (w'.root = w.root ∧ w'.depth = w.depth) ∨ w.G w'.root = none

/-- Several such steps. -/
inductive Guars (j : I) : World I K V A → World I K V A → Prop
  | refl (w : World I K V A) : Guars j w w
  | step {w w₁ w' : World I K V A} {m m₁ : K → Option V} (hw : w.Ok m) (hw₁ : w₁.Ok m₁)
      (hg : Guar j w w₁) (hs : Guars j w₁ w') : Guars j w w'

/-! ## §1. Reading the world. -/

variable {w w' : World I K V A} {m m' : K → Option V} {i j : I} {a p : A} {k : K}

theorem Ok.plan_root (h : w.Ok m) : w.G w.root = some ⟨w.depth, ⊥, ⊤⟩ := by
  obtain ⟨κ, ht⟩ := h.tree
  exact ht.top.2

/-- The root has no parent. -/
theorem Ok.root_no_parent (h : w.Ok m) : ¬ w.Parent p w.root := by
  rintro ⟨sp, slots, k, hp, hE, hm⟩
  obtain ⟨κ, ht⟩ := h.tree
  exact ht.top_not_child hp hE (List.mem_singleton.2 rfl) hm

theorem Ok.below_root (h : w.Ok m) : Below w.E w.G w.root k := by
  intro p sp sl ka hp hE hm
  exact (h.root_no_parent ⟨sp, sl, ka, hp, hE, hm⟩).elim

omit [LinearOrder K] in
theorem Writes.held (h : w.Writes i a) : w.Held i a := by
  unfold Held
  rw [h]
  nofun

/-- What another agent holds is not changed. -/
theorem Ok.not_writes (h : w.Ok m) (hij : i ≠ j) (hi : w.Held i a) : ¬ w.Writes j a :=
  fun hj => hij (h.excl hj hi).symm

theorem Guar.held (hg : Guar j w w') (hij : i ≠ j) (h : w.Held i a) : w'.Held i a := by
  obtain ⟨μ, hμ⟩ := Option.ne_none_iff_exists'.1 h
  unfold Held
  rw [hg.mode i a μ hij hμ]
  nofun

theorem Guar.writes (hg : Guar j w w') (hij : i ≠ j) (h : w.Writes i a) : w'.Writes i a :=
  hg.mode i a _ hij h

/-- A cell held in read mode shows the tree. -/
theorem Ok.raw_of_held (h : w.Ok m) {sp : Span K} (hG : w.G a = some sp) (hi : w.Held i a)
    (hr : ¬ w.Writes i a) : w.raw a = w.E a := by
  refine h.clean hG (fun j hj => ?_)
  have := h.excl hj hi
  subst this
  exact hr hj

/-- **When nobody writes, the cells are the tree.** -/
theorem Ok.at_rest (h : w.Ok m) (hrest : ∀ i x, ¬ w.Writes i x) :
    (∃ κ, Tree w.raw w.G [(κ, w.root)] w.depth) ∧ Represents w.raw w.G m := by
  have hraw : ∀ x sp, w.G x = some sp → w.raw x = w.E x :=
    fun x sp hx => h.clean hx (fun i => hrest i x)
  obtain ⟨κ, ht⟩ := h.tree
  refine ⟨⟨κ, ht.congr hraw⟩, h.map.congr (fun k v => ?_)⟩
  constructor
  · rintro ⟨a, sp, es, next, hG, hE, hm⟩
    exact ⟨a, sp, es, next, hG, (hraw a sp hG) ▸ hE, hm⟩
  · rintro ⟨a, sp, es, next, hG, hE, hm⟩
    exact ⟨a, sp, es, next, hG, (hraw a sp hG).trans hE, hm⟩

/-! ## §2. What an agent knows. -/

/-- `a` is a cell of the tree, and `i` holds it or its parent. -/
structure Near (w : World I K V A) (i : I) (a : A) : Prop where
  plan : ∃ sp, w.G a = some sp
  near : w.Held i a ∨ ∃ p, w.Parent p a ∧ w.Held i p

/-- `a` is responsible for `k`, with slots of at most `k` leading to it, and `i`
holds it or its parent. -/
structure At (w : World I K V A) (i : I) (a : A) (k : K) : Prop where
  plan : ∃ sp, w.G a = some sp ∧ sp.Has k
  below : Below w.E w.G a k
  near : w.Held i a ∨ ∃ p, w.Parent p a ∧ w.Held i p

/-- `a` is a cell of the tree. -/
def Knows (w : World I K V A) (a : A) : Prop := ∃ sp, w.G a = some sp

/-- `a` is a cell of the tree at level `l`. -/
def LevelIs (w : World I K V A) (a : A) (l : Nat) : Prop := ∃ sp, w.G a = some sp ∧ sp.level = l

/-- A cell that `i` has created and not linked. -/
def Fresh (w : World I K V A) (i : I) (r : A) : Prop := w.Writes i r ∧ w.G r = none

/-- A held cell that shows the tree. -/
def Clean (w : World I K V A) (i : I) (a : A) : Prop := w.Held i a ∧ w.raw a = w.E a

theorem Guar.parent (hg : Guar j w w') (hp : w.Parent p a) (hnw : ¬ w.Writes j p) :
    w'.Parent p a := by
  obtain ⟨sp, slots, k, hG, hE, hm⟩ := hp
  exact ⟨sp, slots, k, (hg.plan p hnw).trans hG, (hg.store p hnw).1.trans hE, hm⟩

/-- The place of `a` is kept while `i` holds it or its parent. -/
theorem Guar.plan_near (hw : w.Ok m) (hg : Guar j w w') (hij : i ≠ j)
    (hn : w.Held i a ∨ ∃ p, w.Parent p a ∧ w.Held i p) : w'.G a = w.G a := by
  rcases hn with ha | ⟨p, hp, hh⟩
  · exact hg.plan a (hw.not_writes hij ha)
  · exact hg.planUnder p a hp (hw.not_writes hij hh)

theorem Guar.near (hw : w.Ok m) (hg : Guar j w w') (hij : i ≠ j)
    (hn : w.Held i a ∨ ∃ p, w.Parent p a ∧ w.Held i p) :
    w'.Held i a ∨ ∃ p, w'.Parent p a ∧ w'.Held i p := by
  rcases hn with ha | ⟨p, hp, hh⟩
  · exact Or.inl (hg.held hij ha)
  · exact Or.inr ⟨p, hg.parent hp (hw.not_writes hij hh), hg.held hij hh⟩

theorem At.stable (hw : w.Ok m) (hw' : w'.Ok m') (hg : Guar j w w') (hij : i ≠ j)
    (h : w.At i a k) : w'.At i a k := by
  obtain ⟨sp, hG, hk⟩ := h.plan
  refine ⟨⟨sp, (hg.plan_near hw hij h.near).trans hG, hk⟩, ?_, hg.near hw hij h.near⟩
  by_cases hroot : a = w.root
  · -- whoever holds the root keeps it the root, and nothing leads to it
    rcases h.near with ha | ⟨p, hp, -⟩
    · subst hroot
      rw [← (hg.root (hw.not_writes hij ha)).1]
      exact hw'.below_root
    · exact absurd (hroot ▸ hp) hw.root_no_parent
  · exact hg.below a k sp hG hroot h.below

/-- The root is responsible for every key. -/
theorem Ok.at_root (h : w.Ok m) (hheld : w.Held i w.root) (k : K) : w.At i w.root k :=
  ⟨⟨_, h.plan_root, bot_le, WithBot.coe_lt_coe.2 (WithTop.coe_lt_top k)⟩, h.below_root,
    .inl hheld⟩

theorem At.toNear (h : w.At i a k) : w.Near i a :=
  ⟨h.plan.imp fun _ hsp => hsp.1, h.near⟩

theorem Knows.stable (hg : Guar j w w') (h : w.Knows a) : w'.Knows a := by
  obtain ⟨sp, hG⟩ := h
  obtain ⟨sp', hG', -⟩ := hg.level a sp hG
  exact ⟨sp', hG'⟩

omit [LinearOrder K] in
theorem LevelIs.unique {l l' : Nat} (h : w.LevelIs a l) (h' : w.LevelIs a l') : l = l' := by
  obtain ⟨sp, hsp, rfl⟩ := h
  obtain ⟨sp', hsp', rfl⟩ := h'
  rw [hsp] at hsp'
  cases hsp'
  rfl

theorem LevelIs.stable {l : Nat} (hg : Guar j w w') (h : w.LevelIs a l) : w'.LevelIs a l := by
  obtain ⟨sp, hG, hl⟩ := h
  obtain ⟨sp', hG', hl'⟩ := hg.level a sp hG
  exact ⟨sp', hG', hl'.trans hl⟩

/-- Who has seen the root with its depth knows when it is the root no more. -/
theorem Guar.root_depth (hg : Guar j w w') {d : Nat} (ha : w.Knows a)
    (h : a = w.root → d = w.depth) : a = w'.root → d = w'.depth := by
  intro he
  rcases hg.fresh with ⟨hr, hd⟩ | hn
  · rw [hd]
    exact h (he.trans hr)
  · obtain ⟨sp, hG⟩ := ha
    rw [he, hn] at hG
    cases hG

theorem Fresh.stable (hw : w.Ok m) (hg : Guar j w w') (hij : i ≠ j) (h : w.Fresh i a) :
    w'.Fresh i a :=
  ⟨hg.writes hij h.1, (hg.plan a (hw.not_writes hij h.1.held)).trans h.2⟩

theorem Clean.stable (hw : w.Ok m) (hg : Guar j w w') (hij : i ≠ j) (h : w.Clean i a) :
    w'.Clean i a := by
  obtain ⟨hE, hraw⟩ := hg.store a (hw.not_writes hij h.1)
  exact ⟨hg.held hij h.1, by rw [hE, hraw]; exact h.2⟩

/-- Nobody lowers the first key of a row under a parent that is held so. -/
theorem BelowSlots.stable (hw : w.Ok m) (hg : Guar j w w') (hij : i ≠ j) (hp : w.Parent p a)
    (hh : w.Held i p) (h : w.BelowSlots k a) : w'.BelowSlots k a :=
  hg.low p a k hp (hw.not_writes hij hh) h

/-! ## §3. A path of cells held in write mode. -/

/-- A cell on the way down, with the agent's copy of its row and the place of
the slot it took. -/
structure Frame (K A : Type*) where
  node : A
  slots : List (K × A)
  index : Nat
  modified : Bool

/-- The row of `f` is its copy, with the slot `ins` added after the one that
leads to `a`; an unmodified copy is what the cell contains. -/
structure FrameOk (w : World I K V A) (i : I) (k : K) (cap : Nat) (ins : Option (K × A))
    (f : Frame K A) (a : A) : Prop where
  plan : ∃ sp, w.G f.node = some sp
  writes : w.Writes i f.node
  row : ∃ xs ka ys, f.slots = xs ++ (ka, a) :: ys ∧ f.index = xs.length ∧ ka ≤ k
    ∧ w.E f.node = some (.inner (xs ++ (ka, a) :: (ins.toList ++ ys)))
  size : f.slots.length ≤ cap
  raw : f.modified = false → w.raw f.node = some (.inner f.slots)

/-- The cells of the frames lead from the root to `a`, or from a cell that has
room for one more slot. -/
def Path (w : World I K V A) (i : I) (k : K) (cap : Nat) :
    Option (K × A) → List (Frame K A) → A → Prop
  | ins, [], a => ins = none ∧ a = w.root ∧ w.Held i a
  | ins, f :: fs, a => w.FrameOk i k cap ins f a
      ∧ (w.Path i k cap none fs f.node ∨ (fs = [] ∧ f.slots.length < cap))

variable {cap : Nat} {ins : Option (K × A)} {f : Frame K A} {fs : List (Frame K A)}

theorem FrameOk.stable (hw : w.Ok m) (hg : Guar j w w') (hij : i ≠ j)
    (h : w.FrameOk i k cap ins f a) : w'.FrameOk i k cap ins f a := by
  have hnw := hw.not_writes hij h.writes.held
  obtain ⟨hE, hraw⟩ := hg.store f.node hnw
  obtain ⟨xs, ka, ys, h1, h2, h3, h4⟩ := h.row
  obtain ⟨sp, hG⟩ := h.plan
  exact ⟨⟨sp, (hg.plan _ hnw).trans hG⟩, hg.writes hij h.writes,
    ⟨xs, ka, ys, h1, h2, h3, hE.trans h4⟩, h.size, fun hm => hraw.trans (h.raw hm)⟩

theorem Path.stable (hw : w.Ok m) (hg : Guar j w w') (hij : i ≠ j) :
    ∀ {fs : List (Frame K A)} {ins : Option (K × A)} {a : A},
      w.Path i k cap ins fs a → w'.Path i k cap ins fs a := by
  intro fs
  induction fs with
  | nil =>
      rintro ins a ⟨hins, rfl, hh⟩
      exact ⟨hins, (hg.root (hw.not_writes hij hh)).1.symm, hg.held hij hh⟩
  | cons f fs ih =>
      rintro ins a ⟨hf, hrest⟩
      exact ⟨hf.stable hw hg hij, hrest.imp_left ih⟩

/-- A stable fact survives any number of steps of another agent. -/
theorem Guars.induct {P : World I K V A → Prop} (hs : Guars j w w')
    (hstep : ∀ {w w' : World I K V A} {m m' : K → Option V}, w.Ok m → w'.Ok m' → Guar j w w' →
      P w → P w') (h : P w) : P w' := by
  induction hs with
  | refl => exact h
  | step hw hw₁ hg _ ih => exact ih (hstep hw hw₁ hg h)

theorem Guars.one (hw : w.Ok m) (hw' : w'.Ok m') (hg : Guar j w w') : Guars j w w' :=
  .step hw hw' hg (.refl w')

theorem Guars.trans {w₁ : World I K V A} (h₁ : Guars j w w₁) (h₂ : Guars j w₁ w') :
    Guars j w w' := by
  induction h₁ with
  | refl => exact h₂
  | step hw hw₁ hg _ ih => exact .step hw hw₁ hg (ih h₂)

/-- The first frame is the parent. -/
theorem FrameOk.parent (h : w.FrameOk i k cap ins f a) : w.Parent f.node a := by
  obtain ⟨sp, hG⟩ := h.plan
  obtain ⟨xs, ka, ys, -, -, -, hE⟩ := h.row
  exact ⟨sp, _, ka, hG, hE, by simp⟩

theorem Path.plan (hw : w.Ok m) (h : w.Path i k cap ins fs a) : ∃ sp, w.G a = some sp := by
  cases fs with
  | nil => exact ⟨_, h.2.1 ▸ hw.plan_root⟩
  | cons f fs =>
      obtain ⟨κ, ht⟩ := hw.tree
      obtain ⟨sp, slots, k', hG, hE, hm⟩ := h.1.parent
      obtain ⟨sc, hc, -⟩ := ht.child hG hE hm
      exact ⟨sc, hc⟩

/-- The frames are above `a`. -/
theorem Path.level_lt (hw : w.Ok m) : ∀ {fs : List (Frame K A)} {ins : Option (K × A)} {a : A}
    {sa : Span K}, w.Path i k cap ins fs a → w.G a = some sa →
      ∀ f ∈ fs, ∃ sf, w.G f.node = some sf ∧ sa.level < sf.level := by
  obtain ⟨κ, ht⟩ := hw.tree
  intro fs
  induction fs with
  | nil => intro ins a sa _ _ f hf; cases hf
  | cons g fs ih =>
      rintro ins a sa ⟨hg, hrest⟩ ha f hf
      obtain ⟨sp, slots, k', hG, hE, hm⟩ := hg.parent
      obtain ⟨sc, hc, hl, -⟩ := ht.child hG hE hm
      rw [ha] at hc
      cases hc
      rcases List.mem_cons.1 hf with rfl | hf
      · exact ⟨sp, hG, by omega⟩
      · rcases hrest with hrest | ⟨rfl, -⟩
        · obtain ⟨sf, hsf, hlt⟩ := ih hrest hG f hf
          exact ⟨sf, hsf, by omega⟩
        · cases hf

theorem Path.ne (hw : w.Ok m) (h : w.Path i k cap ins fs a) (hf : f ∈ fs) : f.node ≠ a := by
  intro he
  obtain ⟨sa, ha⟩ := h.plan hw
  obtain ⟨sf, hsf, hlt⟩ := h.level_lt hw ha f hf
  rw [he, ha] at hsf
  cases hsf
  omega

/-- A path only depends on its own cells and on the root. -/
theorem Path.congr (hroot : w'.root = w.root) :
    ∀ {fs : List (Frame K A)} {ins : Option (K × A)} {a : A},
      (∀ f ∈ fs, w'.E f.node = w.E f.node ∧ w'.raw f.node = w.raw f.node
        ∧ w'.mode i f.node = w.mode i f.node
        ∧ ∀ sp, w.G f.node = some sp → ∃ sp', w'.G f.node = some sp') →
      (fs = [] → w'.mode i a = w.mode i a) →
      w.Path i k cap ins fs a → w'.Path i k cap ins fs a := by
  intro fs
  induction fs with
  | nil =>
      rintro ins a - ha ⟨h1, h2, h3⟩
      refine ⟨h1, h2.trans hroot.symm, ?_⟩
      unfold Held
      rw [ha rfl]
      exact h3
  | cons f fs ih =>
      rintro ins a hsame - ⟨hf, hrest⟩
      obtain ⟨hE, hraw, hmode, hG⟩ := hsame f (by simp)
      obtain ⟨sp, hsp⟩ := hf.plan
      obtain ⟨xs, ka, ys, h1, h2, h3, h4⟩ := hf.row
      refine ⟨⟨hG sp hsp, hmode.trans hf.writes, ⟨xs, ka, ys, h1, h2, h3, hE.trans h4⟩, hf.size,
        fun hm => hraw.trans (hf.raw hm)⟩, ?_⟩
      exact hrest.imp_left (ih (fun g hg => hsame g (List.mem_cons_of_mem _ hg)) (fun _ => hmode))

/-- A copy that nothing is added to is the row. -/
theorem FrameOk.row_eq (h : w.FrameOk i k cap none f a) : w.E f.node = some (.inner f.slots) := by
  obtain ⟨xs, ka, ys, hsl, -, -, hE⟩ := h.row
  rw [hE, hsl]
  rfl

/-- The cell of an unmodified copy shows the tree. -/
theorem FrameOk.clean (h : w.FrameOk i k cap none f a) (hm : f.modified = false) :
    w.Clean i f.node := ⟨h.writes.held, (h.raw hm).trans h.row_eq.symm⟩

theorem Path.clean : ∀ {fs : List (Frame K A)} {a : A}, w.Path i k cap none fs a →
    ∀ f ∈ fs, f.modified = false → w.Clean i f.node := by
  intro fs
  induction fs with
  | nil => intro a _ f hf; cases hf
  | cons g fs ih =>
      rintro a ⟨hg, hrest⟩ f hf hm
      rcases List.mem_cons.1 hf with rfl | hf
      · exact hg.clean hm
      · rcases hrest with hrest | ⟨rfl, -⟩
        · exact ih hrest f hf hm
        · cases hf

/-- A cell that is going to be cut: the two halves, and the new cell for the
upper one. -/
structure Cut (w : World I K V A) (i : I) (a r : A) (b : K) (shL shR : Shape K V A) : Prop where
  writes : w.Writes i a
  fresh : w.Fresh i r
  whole : ∃ sh, w.E a = some sh ∧ Halves r b sh shL shR

theorem Cut.stable {r : A} {b : K} {shL shR : Shape K V A} (hw : w.Ok m) (hg : Guar j w w')
    (hij : i ≠ j) (h : w.Cut i a r b shL shR) : w'.Cut i a r b shL shR := by
  obtain ⟨sh, hE, hh⟩ := h.whole
  exact ⟨hg.writes hij h.writes, h.fresh.stable hw hg hij,
    sh, (hg.store a (hw.not_writes hij h.writes.held)).1.trans hE, hh⟩

end World

end RangeTree
