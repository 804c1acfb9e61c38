/-
  NvmTree.Pull.Tokens — barriers and the tokens of the contexts.

  `Tokens` is the balance of the barrier manager: for each node and each type, the
  counter is the number of tokens of that type in the hands of the contexts, and a
  write barrier excludes every other one.  `held` is what the contexts have in
  `obtained_barriers_`.

  Main results: the balance is kept when a token is taken (`Tokens.take`) and when
  one is given back (`Tokens.drop`).
-/
import Mathlib.Algebra.Order.BigOperators.Group.Finset
import NvmTree.Pull.Tree

namespace NvmTree

open RangeTree

namespace PullBasedBPlusTree

/-! ## §1. Sums over all contexts. -/

def ContextId.index : ContextId → Nat
  | .search i => i
  | .insert i => i

/-- The contexts created by `create_free_contexts`. -/
def allContexts (q : Nat) : Finset ContextId :=
  (Finset.range q).image ContextId.search ∪ (Finset.range q).image ContextId.insert

theorem mem_allContexts {q : Nat} {c : ContextId} : c ∈ allContexts q ↔ c.index < q := by
  cases c <;> simp [allContexts, ContextId.index]

/-- A sum in which one summand changes. -/
theorem sum_change {q : Nat} {c : ContextId} (hc : c.index < q) {f g : ContextId → Nat}
    (h : ∀ d, d ≠ c → g d = f d) :
    (∑ d ∈ allContexts q, g d) + f c = (∑ d ∈ allContexts q, f d) + g c := by
  have hm := mem_allContexts.2 hc
  have h1 := Finset.add_sum_erase _ g hm
  have h2 := Finset.add_sum_erase _ f hm
  have h3 : ∑ d ∈ (allContexts q).erase c, g d = ∑ d ∈ (allContexts q).erase c, f d :=
    Finset.sum_congr rfl (fun d hd => h d (Finset.ne_of_mem_erase hd))
  omega

/-- Two contexts have their share of a sum. -/
theorem add_le_sum {q : Nat} {c d : ContextId} (hc : c.index < q) (hd : d.index < q) (hne : c ≠ d)
    (f : ContextId → Nat) : f c + f d ≤ ∑ e ∈ allContexts q, f e := by
  have hsub : {c, d} ⊆ allContexts q := by
    intro e he
    rcases Finset.mem_insert.1 he with rfl | he
    · exact mem_allContexts.2 hc
    · rw [Finset.mem_singleton.1 he]
      exact mem_allContexts.2 hd
  have hle := Finset.sum_le_sum_of_subset (f := f) hsub
  rwa [Finset.sum_pair hne] at hle

/-! ## §2. The balance. -/

/-- The counter of a type. -/
def ContextBarrier.counter {C : Type*} (b : ContextBarrier C) : BarrierType → Int
  | .read => b.readBarriers
  | .write => b.writeBarriers

/-- How many of the tokens are of that node and type. -/
def tokenCount (q : Nat) (held : ContextId → List BarrierToken) (x : BlkAddress)
    (type : BarrierType) : Nat :=
  ∑ c ∈ allContexts q, (held c).count ⟨x, type⟩

structure Tokens (q : Nat) (barriers : BlkAddress → ContextBarrier ContextId)
    (held : ContextId → List BarrierToken) : Prop where
  count : ∀ x type, (barriers x).counter type = tokenCount q held x type
  write_le : ∀ x, (barriers x).writeBarriers ≤ 1
  excl : ∀ x, (barriers x).writeBarriers = 1 → (barriers x).readBarriers = 0

variable {q : Nat} {barriers : BlkAddress → ContextBarrier ContextId}
  {held held' : ContextId → List BarrierToken} {c : ContextId} {x : BlkAddress}
  {type : BarrierType}

theorem Tokens.write_cases (h : Tokens q barriers held) (x : BlkAddress) :
    (barriers x).writeBarriers = 0 ∨ (barriers x).writeBarriers = 1 := by
  have h1 := h.count x .write
  have h2 := h.write_le x
  simp only [ContextBarrier.counter] at h1
  omega

/-- The balance does not depend on the queues. -/
theorem Tokens.setQueue (h : Tokens q barriers held) {b : ContextBarrier ContextId}
    (hr : b.readBarriers = (barriers x).readBarriers)
    (hw : b.writeBarriers = (barriers x).writeBarriers) :
    Tokens q (Function.update barriers x b) held := by
  have hb : ∀ y, (Function.update barriers x b y).readBarriers = (barriers y).readBarriers
      ∧ (Function.update barriers x b y).writeBarriers = (barriers y).writeBarriers := by
    intro y
    by_cases hy : y = x
    · subst hy
      rw [Function.update_self]
      exact ⟨hr, hw⟩
    · rw [Function.update_of_ne hy]
      exact ⟨rfl, rfl⟩
  refine ⟨fun y t => ?_, fun y => ?_, fun y => ?_⟩
  · rw [← h.count y t]
    cases t
    · exact (hb y).1
    · exact (hb y).2
  · rw [(hb y).2]
    exact h.write_le y
  · rw [(hb y).1, (hb y).2]
    exact h.excl y

/-- What one token more or less does to the number of tokens. -/
theorem tokenCount_cons (hc : c.index < q) (hself : (held' c).Perm (⟨x, type⟩ :: held c))
    (hother : ∀ d, d ≠ c → held' d = held d) (y : BlkAddress) (t : BarrierType) :
    tokenCount q held' y t = tokenCount q held y t + if y = x ∧ t = type then 1 else 0 := by
  have hsum := sum_change hc (f := fun d => (held d).count ⟨y, t⟩)
    (g := fun d => (held' d).count ⟨y, t⟩) (fun d hd => by rw [hother d hd])
  have hcount : (held' c).count ⟨y, t⟩
      = (held c).count ⟨y, t⟩ + if y = x ∧ t = type then 1 else 0 := by
    rw [hself.count_eq, List.count_cons]
    by_cases hyt : y = x ∧ t = type
    · rw [if_pos hyt, hyt.1, hyt.2]
      simp
    · have hne : ¬ ((⟨x, type⟩ : BarrierToken) == ⟨y, t⟩) = true := by
        rw [beq_iff_eq]
        rintro ⟨⟩
        exact hyt ⟨rfl, rfl⟩
      rw [if_neg hyt, if_neg hne]
  unfold tokenCount
  omega

/-- **A token is taken**, when the barrier grants it. -/
theorem Tokens.take (h : Tokens q barriers held) (queue : List (ContextId × BarrierType))
    (hc : c.index < q)
    (hgrant : (barriers x).grants type = true) (hself : (held' c).Perm (⟨x, type⟩ :: held c))
    (hother : ∀ d, d ≠ c → held' d = held d) :
    Tokens q (Function.update barriers x { (barriers x).add type with
      pendingBarrierRequests := queue }) held' := by
  have hcount := tokenCount_cons hc hself hother
  have hpos := h.count x .read
  simp only [ContextBarrier.counter] at hpos
  refine ⟨fun y t => ?_, fun y => ?_, fun y => ?_⟩
  · rw [hcount y t]
    by_cases hy : y = x
    · subst hy
      have hb := h.count y t
      rw [Function.update_self]
      cases type <;> cases t <;> simp [ContextBarrier.counter, ContextBarrier.add] at hb ⊢ <;> omega
    · rw [Function.update_of_ne hy, h.count y t]
      simp [hy]
  · by_cases hy : y = x
    · subst hy
      have hle := h.write_le y
      rw [Function.update_self]
      cases type <;> simp [ContextBarrier.grants, ContextBarrier.add] at hgrant hle ⊢ <;> omega
    · rw [Function.update_of_ne hy]
      exact h.write_le y
  · by_cases hy : y = x
    · subst hy
      have hex := h.excl y
      rw [Function.update_self]
      cases type <;> simp [ContextBarrier.grants, ContextBarrier.add] at hgrant hex ⊢ <;> omega
    · rw [Function.update_of_ne hy]
      exact h.excl y

/-- **A token is given back.** -/
theorem Tokens.drop (h : Tokens q barriers held) (hc : c.index < q)
    (hself : (held c).Perm (⟨x, type⟩ :: held' c)) (hother : ∀ d, d ≠ c → held' d = held d) :
    Tokens q (Function.update barriers x ((barriers x).sub type)) held' := by
  have hcount := tokenCount_cons hc hself (fun d hd => (hother d hd).symm)
  refine ⟨fun y t => ?_, fun y => ?_, fun y => ?_⟩
  · have hy' := hcount y t
    by_cases hy : y = x
    · subst hy
      have hb := h.count y t
      rw [Function.update_self]
      cases type <;> cases t <;>
        simp [ContextBarrier.counter, ContextBarrier.sub] at hb hy' ⊢ <;> omega
    · rw [Function.update_of_ne hy, h.count y t]
      simp [hy] at hy'
      omega
  · by_cases hy : y = x
    · subst hy
      have hle := h.write_le y
      rw [Function.update_self]
      cases type <;> simp [ContextBarrier.sub] at hle ⊢ <;> omega
    · rw [Function.update_of_ne hy]
      exact h.write_le y
  · by_cases hy : y = x
    · subst hy
      have hex := h.excl y
      have hle := h.write_le y
      have h1 := hcount y type
      have h2 := h.count y type
      have h3 := h.count y .write
      rw [Function.update_self]
      cases type <;>
        simp [ContextBarrier.sub, ContextBarrier.counter] at hex hle h1 h2 h3 ⊢ <;> omega
    · rw [Function.update_of_ne hy]
      exact h.excl y

/-- A context that has a token. -/
theorem Tokens.pos (h : Tokens q barriers held) (hc : c.index < q)
    (hm : (⟨x, type⟩ : BarrierToken) ∈ held c) : 0 < (barriers x).counter type := by
  rw [h.count]
  have hle : (held c).count ⟨x, type⟩ ≤ tokenCount q held x type :=
    Finset.single_le_sum (f := fun d => (held d).count ⟨x, type⟩) (fun _ _ => Nat.zero_le _)
      (mem_allContexts.2 hc)
  have hpos := List.count_pos_iff.2 hm
  omega

/-- Where the counter is positive there is a token. -/
theorem Tokens.exists_token (h : Tokens q barriers held) (hpos : 0 < (barriers x).counter type) :
    ∃ c, c.index < q ∧ (⟨x, type⟩ : BarrierToken) ∈ held c := by
  rw [h.count] at hpos
  have hne : tokenCount q held x type ≠ 0 := by omega
  obtain ⟨c, hc, hne⟩ := Finset.exists_ne_zero_of_sum_ne_zero hne
  exact ⟨c, mem_allContexts.1 hc, List.count_pos_iff.1 (Nat.pos_of_ne_zero hne)⟩

/-- **A write token excludes every other token of its node.** -/
theorem Tokens.unique (h : Tokens q barriers held) {d : ContextId} (hc : c.index < q)
    (hd : d.index < q) (hw : (⟨x, .write⟩ : BarrierToken) ∈ held c)
    (hm : (⟨x, type⟩ : BarrierToken) ∈ held d) : c = d ∧ type = .write := by
  have h1 := h.pos hc hw
  have h2 := h.pos hd hm
  have h3 := h.write_cases x
  have h4 := h.excl x
  simp only [ContextBarrier.counter] at h1
  have ht : type = .write := by
    cases type
    · simp only [ContextBarrier.counter] at h2
      omega
    · rfl
  subst ht
  refine ⟨?_, rfl⟩
  by_contra hne
  -- two contexts with a write token make two write barriers
  have hsum : (held c).count ⟨x, .write⟩ + (held d).count ⟨x, .write⟩
      ≤ tokenCount q held x .write :=
    add_le_sum hc hd hne (fun e => (held e).count ⟨x, .write⟩)
  have hcw := List.count_pos_iff.2 hw
  have hdw := List.count_pos_iff.2 hm
  have hcount := h.count x .write
  simp only [ContextBarrier.counter] at hcount
  omega

end PullBasedBPlusTree

end NvmTree
