/-
  NvmTree.RangeTree.Basic — spans, slots and how a row of slots tiles an interval.

  A search tree kept in numbered cells is described here by two maps: a STORE
  `E` that gives the shape of each cell (a leaf with its entries, an inner cell
  with its `(key, child)` slots) and a PLAN `G` that gives each cell of the tree
  its level and the half-open interval of keys it is responsible for.  Nothing
  below depends on who changes the cells, or on how wide a cell may become.

  Main results:
    * `covers_append` — cutting a row of slots at a slot cuts the interval at
      that slot's key, and conversely.
    * `covers_locate` — the slot chosen by comparing keys is responsible for
      the key searched.
    * `covers_insert` — splitting one child's interval and adding a slot for the
      upper part keeps the row a tiling.
-/
import Mathlib.Order.WithBot
import Mathlib.Data.List.Basic
import Mathlib.Data.List.Nodup
import Mathlib.Tactic.Order
import Mathlib.Tactic.Common

namespace RangeTree

/-! ## §1. Bounds: keys with an end on either side. -/

/-- A key, or one of the two ends of the key order. -/
abbrev Bound (K : Type*) := WithBot (WithTop K)

/-- A key as a bound. -/
def key {K : Type*} (k : K) : Bound K := ((k : WithTop K) : WithBot (WithTop K))

section Bounds

variable {K : Type*}

@[simp] theorem key_inj {a b : K} : key a = key b ↔ a = b := by simp [key]

variable [LinearOrder K]

@[simp] theorem key_lt_key {a b : K} : key a < key b ↔ a < b := by simp [key]

@[simp] theorem key_le_key {a b : K} : key a ≤ key b ↔ a ≤ b := by simp [key]

@[simp] theorem bot_lt_key (a : K) : (⊥ : Bound K) < key a := by simp [key]

@[simp] theorem key_lt_top (a : K) : key a < (⊤ : Bound K) :=
  WithBot.coe_lt_coe.2 (WithTop.coe_lt_top a)

@[simp] theorem key_ne_bot (a : K) : key a ≠ (⊥ : Bound K) := (bot_lt_key a).ne'

@[simp] theorem key_ne_top (a : K) : key a ≠ (⊤ : Bound K) := (key_lt_top a).ne

end Bounds

/-! ## §2. Shapes, spans and the two maps. -/

/-- What one cell holds. -/
inductive Shape (K V A : Type*) where
  /-- A leaf: its entries in key order and the cell of the next leaf. -/
  | leaf (entries : List (K × V)) (next : Option A)
  /-- An inner cell: one `(key, child)` slot per child. -/
  | inner (slots : List (K × A))

/-- The part of the tree a cell is responsible for: its level (leaves are at
level 1) and the keys `lo ≤ k < hi`. -/
structure Span (K : Type*) where
  level : Nat
  lo : Bound K
  hi : Bound K

/-- `k` lies in the interval of `sp`. -/
def Span.Has {K : Type*} [LinearOrder K] (sp : Span K) (k : K) : Prop :=
  sp.lo ≤ key k ∧ key k < sp.hi

abbrev Store (K V A : Type*) := A → Option (Shape K V A)
abbrev Plan (K A : Type*) := A → Option (Span K)

/-- Strictly increasing keys. -/
def SortedKeys {K β : Type*} [LinearOrder K] (l : List (K × β)) : Prop :=
  l.Pairwise (fun x y => x.1 < y.1)

variable {K V A β : Type*} [LinearOrder K]

@[simp] theorem sortedKeys_nil : SortedKeys ([] : List (K × β)) := List.Pairwise.nil

@[simp] theorem sortedKeys_singleton (x : K × β) : SortedKeys [x] := List.pairwise_singleton _ _

theorem sortedKeys_cons {x : K × β} {l : List (K × β)} :
    SortedKeys (x :: l) ↔ (∀ y ∈ l, x.1 < y.1) ∧ SortedKeys l := List.pairwise_cons

theorem sortedKeys_append {l₁ l₂ : List (K × β)} :
    SortedKeys (l₁ ++ l₂) ↔ SortedKeys l₁ ∧ SortedKeys l₂ ∧ ∀ x ∈ l₁, ∀ y ∈ l₂, x.1 < y.1 :=
  List.pairwise_append

/-! ## §3. A row of slots that tiles an interval.

The key of the first slot is not compared with `lo`: the first child takes the
row's lower end, whatever its slot says.  -/

/-- The children of `slots` are the level-`l` cells that tile `[lo, hi)`. -/
def Covers (G : Plan K A) (l : Nat) : Bound K → Bound K → List (K × A) → Prop
  | _, _, [] => False
  | lo, hi, [(_, c)] => lo < hi ∧ G c = some ⟨l, lo, hi⟩
  | lo, hi, (_, c) :: (k', c') :: rest =>
      lo < key k' ∧ G c = some ⟨l, lo, key k'⟩ ∧ Covers G l (key k') hi ((k', c') :: rest)

variable {G G' : Plan K A} {l : Nat} {lo hi : Bound K}

theorem Covers.ne_nil {slots : List (K × A)} (h : Covers G l lo hi slots) : slots ≠ [] := by
  rintro rfl; exact h

theorem Covers.lo_lt_hi : ∀ {slots : List (K × A)} {lo : Bound K},
    Covers G l lo hi slots → lo < hi
  | [(_, _)], _, h => h.1
  | (_, _) :: (_, _) :: _, _, h => h.1.trans (Covers.lo_lt_hi h.2.2)

/-- Every child is at level `l`, inside `[lo, hi)`. -/
theorem Covers.mem : ∀ {slots : List (K × A)} {lo : Bound K},
    Covers G l lo hi slots → ∀ {k c}, (k, c) ∈ slots →
      ∃ lo' hi', G c = some ⟨l, lo', hi'⟩ ∧ lo ≤ lo' ∧ lo' < hi' ∧ hi' ≤ hi
  | [(_, _)], lo, h, k, c, hm => by
      simp only [List.mem_singleton, Prod.mk.injEq] at hm
      exact ⟨lo, hi, hm.2 ▸ h.2, le_rfl, h.1, le_rfl⟩
  | (_, c₀) :: (k', c') :: rest, lo, h, k, c, hm => by
      obtain ⟨hlt, hG, hrest⟩ := h
      rcases List.mem_cons.1 hm with hm | hm
      · simp only [Prod.mk.injEq] at hm
        exact ⟨lo, key k', hm.2 ▸ hG, le_rfl, hlt, hrest.lo_lt_hi.le⟩
      · obtain ⟨lo', hi', h₁, h₂, h₃, h₄⟩ := Covers.mem hrest hm
        exact ⟨lo', hi', h₁, hlt.le.trans h₂, h₃, h₄⟩

/-- The tiling only depends on the plan at the children. -/
theorem Covers.congr : ∀ {slots : List (K × A)} {lo : Bound K},
    Covers G l lo hi slots → (∀ k c, (k, c) ∈ slots → G' c = G c) → Covers G' l lo hi slots
  | [(k, c)], _, h, he => ⟨h.1, (he k c (by simp)).trans h.2⟩
  | (k, c) :: (k', c') :: rest, _, h, he =>
      ⟨h.1, (he k c (by simp)).trans h.2.1,
        Covers.congr h.2.2 (fun x y hm => he x y (List.mem_cons_of_mem _ hm))⟩

/-- Only the key of the first slot may be changed freely. -/
theorem Covers.head_irrel {k k' : K} {c : A} {rest : List (K × A)}
    (h : Covers G l lo hi ((k, c) :: rest)) : Covers G l lo hi ((k', c) :: rest) := by
  cases rest with
  | nil => exact h
  | cons s rest => exact h

/-- Cutting the row at the slot `(b, c)` cuts the interval at `b`. -/
theorem covers_append {b : K} {c : A} {ys : List (K × A)} :
    ∀ {xs : List (K × A)} {lo : Bound K}, xs ≠ [] →
      (Covers G l lo hi (xs ++ (b, c) :: ys)
        ↔ Covers G l lo (key b) xs ∧ Covers G l (key b) hi ((b, c) :: ys))
  | [(k, d)], lo, _ => by
      simp only [List.cons_append, List.nil_append, Covers]
      tauto
  | (k, d) :: (k', d') :: xs, lo, _ => by
      have ih : Covers G l (key k') hi (((k', d') :: xs) ++ (b, c) :: ys) ↔ _ :=
        covers_append (List.cons_ne_nil _ _)
      simp only [List.cons_append, Covers] at ih ⊢
      rw [ih]
      tauto

/-- The children of a tiling are distinct. -/
theorem Covers.nodup : ∀ {slots : List (K × A)} {lo : Bound K},
    Covers G l lo hi slots → (slots.map Prod.snd).Nodup
  | [(_, _)], _, _ => by simp
  | (k, c) :: (k', c') :: rest, lo, h => by
      obtain ⟨hlt, hG, hrest⟩ := h
      rw [List.map_cons, List.nodup_cons]
      refine ⟨?_, Covers.nodup hrest⟩
      rintro hm
      obtain ⟨⟨k'', c''⟩, hs, rfl⟩ := List.mem_map.1 hm
      obtain ⟨lo', hi', hG', hle, -, -⟩ := hrest.mem hs
      rw [hG] at hG'
      simp only [Option.some.injEq, Span.mk.injEq] at hG'
      exact absurd hle (by rw [← hG'.2.1]; exact not_le.2 hlt)

/-- One slot leads to a child. -/
theorem Covers.slot_unique {slots : List (K × A)} {lo : Bound K} (h : Covers G l lo hi slots)
    {k k' : K} {c : A} (hm : (k, c) ∈ slots) (hm' : (k', c) ∈ slots) : k = k' := by
  have heq := List.inj_on_of_nodup_map h.nodup hm hm' rfl
  exact (Prod.mk.inj heq).1

/-- The keys after the first one lie below the row's upper end. -/
theorem Covers.tail_lt : ∀ {rest : List (K × A)} {s : K × A} {lo : Bound K},
    Covers G l lo hi (s :: rest) → ∀ t ∈ rest, key t.1 < hi
  | [], _, _, _, t, ht => by cases ht
  | (k', c') :: rest, (_, _), _, h, t, ht => by
      rcases List.mem_cons.1 ht with rfl | ht
      · exact h.2.2.lo_lt_hi
      · exact Covers.tail_lt h.2.2 t ht

/-- The first child takes the row's lower end. -/
theorem Covers.head_lo {k : K} {c : A} {rest : List (K × A)} {lo : Bound K}
    (h : Covers G l lo hi ((k, c) :: rest)) : ∃ hi', G c = some ⟨l, lo, hi'⟩ := by
  cases rest with
  | nil => exact ⟨hi, h.2⟩
  | cons s rest => exact ⟨key s.1, h.2.1⟩

/-- **The slot found by comparing keys is responsible for the key.** -/
theorem covers_locate {k ki : K} {c : A} {ys : List (K × A)} :
    ∀ {xs : List (K × A)} {lo : Bound K}, Covers G l lo hi (xs ++ (ki, c) :: ys) →
      lo ≤ key k → key k < hi → (xs ≠ [] → ki ≤ k) → (∀ s ∈ ys, k < s.1) →
      ∃ lo' hi', G c = some ⟨l, lo', hi'⟩ ∧ lo' ≤ key k ∧ key k < hi' := by
  intro xs lo h hlo hhi hki hys
  have hhead : ∀ {lo : Bound K}, lo ≤ key k → Covers G l lo hi ((ki, c) :: ys) →
      ∃ lo' hi', G c = some ⟨l, lo', hi'⟩ ∧ lo' ≤ key k ∧ key k < hi' := by
    intro lo hlo h
    cases ys with
    | nil => exact ⟨lo, hi, h.2, hlo, hhi⟩
    | cons s ys =>
        exact ⟨lo, key s.1, h.2.1, hlo, key_lt_key.2 (hys s (by simp))⟩
  cases xs with
  | nil => exact hhead hlo h
  | cons x xs =>
      rw [covers_append (by simp)] at h
      exact hhead (key_le_key.2 (hki (by simp))) h.2

/-- Adding a slot `(b, r)` right after the slot of `a`, with the interval of `a`
cut at `b`, keeps the tiling. -/
theorem covers_insert [DecidableEq A] {ka b : K} {a r : A} {ys : List (K × A)}
    {la ha : Bound K} (hGa : G a = some ⟨l, la, ha⟩) (hlb : la < key b) (hbh : key b < ha)
    (hra : r ≠ a) :
    ∀ {xs : List (K × A)} {lo : Bound K}, Covers G l lo hi (xs ++ (ka, a) :: ys) →
      (∀ s ∈ xs, s.2 ≠ r) → (∀ s ∈ ys, s.2 ≠ r) →
      Covers (Function.update (Function.update G a (some ⟨l, la, key b⟩)) r
          (some ⟨l, key b, ha⟩)) l lo hi (xs ++ (ka, a) :: (b, r) :: ys) := by
  intro xs lo h hxs hys
  set G' := Function.update (Function.update G a (some ⟨l, la, key b⟩)) r
    (some ⟨l, key b, ha⟩) with hG'
  have hG'a : G' a = some ⟨l, la, key b⟩ := by simp [hG', Function.update_of_ne hra.symm]
  have hG'r : G' r = some ⟨l, key b, ha⟩ := by simp [hG']
  have hnd := h.nodup
  simp only [List.map_append, List.map_cons] at hnd
  have hna := (List.nodup_middle.1 hnd)
  rw [List.nodup_cons] at hna
  have hkeep : ∀ s : K × A, (s ∈ xs ∨ s ∈ ys) → G' s.2 = G s.2 := by
    intro s hs
    have h1 : s.2 ≠ a := by
      rintro rfl
      apply hna.1
      rcases hs with hs | hs
      · exact List.mem_append_left _ (List.mem_map_of_mem hs)
      · exact List.mem_append_right _ (List.mem_map_of_mem hs)
    have h2 : s.2 ≠ r := by
      rcases hs with hs | hs
      · exact hxs s hs
      · exact hys s hs
    simp [hG', Function.update_of_ne h1, Function.update_of_ne h2]
  -- the row from `a` on, whatever the lower end of the row is
  have htail : ∀ {lo : Bound K}, Covers G l lo hi ((ka, a) :: ys) →
      Covers G' l lo hi ((ka, a) :: (b, r) :: ys) := by
    intro lo h
    cases ys with
    | nil =>
        obtain ⟨-, h2⟩ := h
        rw [hGa] at h2
        simp only [Option.some.injEq, Span.mk.injEq, true_and] at h2
        obtain ⟨rfl, rfl⟩ := h2
        exact ⟨hlb, hG'a, hbh, hG'r⟩
    | cons s ys =>
        obtain ⟨-, h2, h3⟩ := h
        rw [hGa] at h2
        simp only [Option.some.injEq, Span.mk.injEq, true_and] at h2
        obtain ⟨rfl, rfl⟩ := h2
        exact ⟨hlb, hG'a, hbh, hG'r, h3.congr (fun x y hm => hkeep (x, y) (Or.inr hm))⟩
  cases xs with
  | nil => exact htail h
  | cons x xs =>
      have hc : Covers G l lo hi ((x :: xs) ++ (ka, a) :: ys) := h
      rw [covers_append (by simp)] at hc
      show Covers G' l lo hi ((x :: xs) ++ (ka, a) :: ((b, r) :: ys))
      rw [covers_append (by simp)]
      exact ⟨hc.1.congr (fun k c hm => hkeep (k, c) (Or.inl hm)), htail hc.2⟩

end RangeTree
