/-
  NvmTree.Pull.Prompt — nothing waits that need not wait.

  A barrier is offered to its queue whenever one is removed, and only then: so the
  request at the front of a queue is one that cannot be granted (`Blocked`).  A reader
  may overtake it, which leaves it blocked; no wake-up is lost.  And without delay of
  the I/O, every read or write that is outstanding has taken effect.

  Main result: `ctxCase_prompt`, for every `case` of the two state machines.
-/
import NvmTree.Pull.Conserve

namespace NvmTree

open RangeTree

namespace PullBasedBPlusTree

variable {K V : Type*} {deferred : Bool} {s s' : State K V} {c : ContextId} {x : BlkAddress}
  {type : BarrierType} {i : Nat}

/-! ## §1. Barriers that block. -/

/-- The request at the front of the queue cannot be granted. -/
def ContextBarrier.Blocked {C : Type*} (b : ContextBarrier C) : Prop :=
  ∀ p ∈ b.pendingBarrierRequests.head?, b.grants p.2 = false

/-- A request that is granted past the queue is a read, and only a write waits. -/
theorem ContextBarrier.Blocked.add {C : Type*} {b : ContextBarrier C} (h : b.Blocked)
    (hpos : 0 ≤ b.readBarriers) (hg : b.grants type = true) : (b.add type).Blocked := by
  intro p hp
  rw [ContextBarrier.pending_add] at hp
  have hblocked := h p hp
  cases type with
  | read =>
      cases hp2 : p.2 with
      | read => simp_all [ContextBarrier.grants]
      | write =>
          have hread : b.readBarriers ≠ 0 := by
            intro hzero
            simp_all [ContextBarrier.grants]
          have hmore : b.readBarriers + 1 ≠ 0 := by omega
          simp [ContextBarrier.grants, ContextBarrier.add, hmore]
  | write =>
      cases hp2 : p.2 <;> simp_all [ContextBarrier.grants]

/-- A request that cannot be granted goes to the end of the queue. -/
theorem ContextBarrier.Blocked.push {C : Type*} {b : ContextBarrier C} (h : b.Blocked) (d : C)
    (hg : b.grants type = false) : (b.push d type).Blocked := by
  intro p hp
  have hgrants : (b.push d type).grants p.2 = b.grants p.2 := by
    unfold ContextBarrier.grants ContextBarrier.push
    rfl
  rw [hgrants]
  cases hq : b.pendingBarrierRequests with
  | nil =>
      simp only [ContextBarrier.push, hq, List.nil_append, List.head?_cons, Option.mem_some_iff] at hp
      rw [← hp]
      exact hg
  | cons p' rest =>
      refine h p ?_
      simpa [ContextBarrier.push, hq] using hp

/-- **Nothing waits that need not wait.** -/
structure Prompt (deferred : Bool) (s : State K V) : Prop where
  blocked : ∀ x, (s.barriers x).Blocked
  applied : deferred = false → ∀ io ∈ s.pendingIo, io.applied = true

theorem Prompt.congr (h : Prompt deferred s) (hb : s'.barriers = s.barriers)
    (hio : s'.pendingIo = s.pendingIo) : Prompt deferred s' := by
  refine ⟨?_, ?_⟩
  · rw [hb]
    exact h.blocked
  · rw [hio]
    exact h.applied

theorem Prompt.setBarrier (h : Prompt deferred s) {b : ContextBarrier ContextId}
    (hb : b.Blocked) : Prompt deferred (s.setBarrier x b) := by
  refine ⟨fun y => ?_, h.applied⟩
  show (Function.update s.barriers x b y).Blocked
  by_cases hy : y = x
  · subst hy
    rw [Function.update_self]
    exact hb
  · rw [Function.update_of_ne hy]
    exact h.blocked y

theorem State.apply_frame (s : State K V) (io : PendingIo K V) :
    (s.apply io).barriers = s.barriers ∧ (s.apply io).pendingIo = s.pendingIo := by
  unfold State.apply
  split
  · cases io.context <;> exact ⟨rfl, rfl⟩
  · exact ⟨rfl, rfl⟩

/-- An I/O is submitted. -/
theorem Prompt.submitIo (h : Prompt deferred s) (io : PendingIo K V) :
    Prompt deferred (s.submitIo deferred io) := by
  obtain ⟨hb, hio⟩ := s.apply_frame io
  cases deferred with
  | true =>
      refine ⟨h.blocked, fun hd => ?_⟩
      cases hd
  | false =>
      refine ⟨?_, fun _ io' hm => ?_⟩
      · show ∀ y, ((s.apply io).barriers y).Blocked
        rw [hb]
        exact h.blocked
      · rcases List.mem_append.1 hm with hm | hm
        · change io' ∈ (s.apply io).pendingIo at hm
          rw [hio] at hm
          exact h.applied rfl io' hm
        · rw [List.mem_singleton.1 hm]
          rfl

/-- The loop of `offer_barrier` ends with a front that is blocked. -/
theorem Prompt.offerBarrier {fuel : Nat} (hother : ∀ y, y ≠ x → (s.barriers y).Blocked)
    (hio : deferred = false → ∀ io ∈ s.pendingIo, io.applied = true)
    (hfuel : (s.barriers x).pendingBarrierRequests.length ≤ fuel) :
    Prompt deferred (State.offerBarrier x fuel s) := by
  -- each round takes one request off the queue of `x`
  have hdone : (s.barriers x).Blocked → Prompt deferred s := by
    intro hx
    refine ⟨fun y => ?_, hio⟩
    by_cases hy : y = x
    · exact hy ▸ hx
    · exact hother y hy
  induction fuel generalizing s with
  | zero =>
      have hnil : (s.barriers x).pendingBarrierRequests = [] :=
        List.length_eq_zero_iff.1 (by omega)
      rw [State.offerBarrier]
      exact hdone (fun p hp => by simp [hnil] at hp)
  | succ fuel ih =>
      rw [State.offerBarrier]
      split
      · next hnil => exact hdone (fun p hp => by simp [hnil] at hp)
      · next d t rest hq =>
          split
          · have hx : (s.fireContext x d t rest).barriers x
                = { (s.barriers x).add t with pendingBarrierRequests := rest } :=
              Function.update_self ..
            have hy : ∀ y, y ≠ x → (s.fireContext x d t rest).barriers y = s.barriers y :=
              fun y hy => Function.update_of_ne hy _ _
            refine ih (fun y hne => ?_) hio ?_ (fun hb => ⟨fun y => ?_, hio⟩)
            · rw [hy y hne]
              exact hother y hne
            · rw [hq, List.length_cons] at hfuel
              rw [hx]
              exact Nat.le_of_succ_le_succ hfuel
            · by_cases hne : y = x
              · exact hne ▸ hb
              · rw [hy y hne]
                exact hother y hne
          · next hg =>
              refine hdone (fun p hp => ?_)
              rw [hq] at hp
              cases hp
              simpa using hg

/-- **A barrier that is removed is offered to its queue.** -/
theorem Prompt.giveBack (h : Prompt deferred s) (kept : List BarrierToken) (token : BarrierToken) :
    Prompt deferred (s.giveBack c kept token) := by
  unfold State.giveBack State.removeBarrier
  refine Prompt.offerBarrier (fun y hy => ?_) h.applied ?_
  · show (Function.update s.barriers token.barrierId _ y).Blocked
    rw [Function.update_of_ne hy]
    exact h.blocked y
  · show (Function.update s.barriers token.barrierId _ token.barrierId).pendingBarrierRequests.length
      ≤ (s.barriers token.barrierId).pendingBarrierRequests.length
    rw [Function.update_self, ContextBarrier.pending_sub]
    rfl

theorem Prompt.releaseBarriers (n fuel : Nat) (h : Prompt deferred s) :
    Prompt deferred (State.releaseBarriers c n fuel s) := by
  induction fuel generalizing s with
  | zero => exact h
  | succ fuel ih =>
      rw [State.releaseBarriers]
      split
      · exact h
      · exact ih (h.giveBack _ _)

theorem Prompt.releaseAllBut (h : Prompt deferred s) (n : Nat) :
    Prompt deferred (s.releaseAllBut c n) := h.releaseBarriers n _

theorem Prompt.releaseFront (h : Prompt deferred s) : Prompt deferred (s.releaseFront c) := by
  unfold State.releaseFront
  split
  · exact h
  · exact h.giveBack _ _

theorem Prompt.releaseFronts (fuel : Nat) (h : Prompt deferred s) :
    Prompt deferred (State.releaseFronts c fuel s) := by
  induction fuel generalizing s with
  | zero => exact h
  | succ fuel ih => exact ih h.releaseFront

/-- A barrier is granted, or its request queued. -/
theorem Prompt.requestBarrier {granted : Bool} {s₀ : State K V} (h₀ : Prompt deferred s₀)
    (hpos : ∀ x, 0 ≤ (s₀.barriers x).readBarriers)
    (heq : s.requestBarrier c x type = (s', granted)) (hb : s.barriers = s₀.barriers)
    (hio : s.pendingIo = s₀.pendingIo) : Prompt deferred s' := by
  have h := h₀.congr hb hio
  rw [← hb] at hpos
  unfold State.requestBarrier at heq
  split at heq
  · next hg =>
      cases heq
      exact (h.setBarrier ((h.blocked x).add (hpos x) hg)).congr rfl rfl
  · next hg =>
      cases heq
      exact h.setBarrier ((h.blocked x).push c (by simpa using hg))

/-! ## §2. The cases of `run`. -/

/-- What a `case` leaves behind. -/
def Outcome.Prompt (deferred : Bool) : Outcome K V → Prop
  | .again s => PullBasedBPlusTree.Prompt deferred s
  | .stop s => PullBasedBPlusTree.Prompt deferred s
  | .fault _ => True

section Insert

theorem insertState0_prompt (h : Prompt deferred s) (hpos : ∀ x, 0 ≤ (s.barriers x).readBarriers) :
    (insertState0 s i).Prompt deferred := by
  unfold insertState0
  dsimp only
  split
  · next s₁ heq =>
      have hreq := h.requestBarrier hpos heq rfl rfl
      exact hreq.congr rfl rfl
  · next s₁ heq => exact h.requestBarrier hpos heq rfl rfl

theorem insertState10001_prompt (h : Prompt deferred s) :
    (insertState10001 s i).Prompt deferred := by
  have hrelease : ∀ (y : InsertContext K V) n st, Prompt deferred
      (((s.setInsert i y).releaseAllBut (.insert i) n).enter (.insert i) st) := fun y n st =>
    Prompt.congr ((h.congr rfl rfl : Prompt deferred (s.setInsert i y)).releaseAllBut n) rfl rfl
  unfold insertState10001
  dsimp only
  split
  · trivial
  · split
    · exact hrelease _ _ _
    · split
      · exact hrelease _ _ _
      · split
        · split
          · trivial
          · exact hrelease _ _ _
        · exact h.congr rfl rfl

theorem insertState1_prompt (h : Prompt deferred s) :
    (insertState1 deferred s i).Prompt deferred := by
  unfold insertState1
  dsimp only
  split
  · trivial
  · split
    · trivial
    · refine Prompt.submitIo ?_ _
      exact h.congr rfl rfl

/-- The context waits for one write. -/
theorem Prompt.write (h : Prompt deferred s) (y : InsertContext K V) (st : CtxState)
    (x : BlkAddress) (b : Block K V) : Prompt deferred
      (((s.setInsert i y).setNextState (.insert i) st).asynchWrite deferred (.insert i) x b) := by
  refine Prompt.submitIo ?_ _
  exact h.congr rfl rfl

theorem insertLeaf_prompt [LinearOrder K] {capacity : Nat} {y : InsertContext K V}
    {leaf : LeafNode K V} (h : Prompt deferred s) :
    (insertLeaf capacity deferred s i y leaf).Prompt deferred := by
  rw [insertLeaf.eq_def]
  split
  · split
    · exact h.congr rfl rfl
    · split
      · exact h.write _ _ _ _
      · have hs : Prompt deferred s.allocate := h.congr rfl rfl
        exact (hs.write _ _ _ _).submitIo _
  · trivial

theorem insertInner_prompt [LinearOrder K] {capacity : Nat} {y : InsertContext K V}
    {inner_node : InnerNode K} (h : Prompt deferred s) :
    (insertInner capacity s i y inner_node).Prompt deferred := by
  rw [insertInner.eq_def]
  split
  · trivial
  · dsimp only
    split
    · exact h.congr rfl rfl
    · split
      · trivial
      · exact h.congr rfl rfl

theorem insertState2_prompt [LinearOrder K] {capacity : Nat} (h : Prompt deferred s) :
    (insertState2 capacity deferred s i).Prompt deferred := by
  unfold insertState2
  dsimp only
  split
  · trivial
  · split
    · trivial
    · split
      · trivial
      · split
        · trivial
        · exact insertLeaf_prompt h
  · exact insertInner_prompt h

theorem insertAddSplit_prompt [LinearOrder K] {capacity : Nat} {y : InsertContext K V}
    {p : ParentNodeContext K} {parents : List (ParentNodeContext K)} (h : Prompt deferred s) :
    (insertAddSplit capacity deferred s i y p parents).Prompt deferred := by
  rw [insertAddSplit.eq_def]
  split
  · trivial
  · dsimp only
    split
    · exact h.write _ _ _ _
    · split
      · trivial
      · have hs : Prompt deferred s.allocate := h.congr rfl rfl
        exact (hs.write _ _ _ _).submitIo _

theorem insertFlush_prompt {y : InsertContext K V} {parents : List (ParentNodeContext K)}
    (h : Prompt deferred s) : (insertFlush deferred s i y parents).Prompt deferred := by
  induction parents with
  | nil => exact h.congr rfl rfl
  | cons p parents ih =>
      rw [insertFlush]
      split
      · exact h.write _ _ _ _
      · exact ih

theorem insertState9_prompt [LinearOrder K] {capacity : Nat} (h : Prompt deferred s) :
    (insertState9 capacity deferred s i).Prompt deferred := by
  unfold insertState9
  dsimp only
  split
  · split
    · trivial
    · exact insertAddSplit_prompt h
  · exact insertFlush_prompt h

theorem insertState10_prompt (h : Prompt deferred s) : (insertState10 s i).Prompt deferred := by
  unfold insertState10
  dsimp only
  split
  · exact h.congr rfl rfl
  · exact h.congr rfl rfl

theorem insertState11_prompt (h : Prompt deferred s) : (insertState11 s i).Prompt deferred := by
  unfold insertState11
  dsimp only
  split
  · trivial
  · next r _ =>
      have hs : Prompt deferred (s.setInsert i { s.inserts i with
          lastState1 := false, request := if r.ownership then none else some r }) := h.congr rfl rfl
      exact (hs.releaseAllBut 0).congr rfl rfl

theorem insertState12_prompt (h : Prompt deferred s) :
    (insertState12 deferred s i).Prompt deferred := by
  unfold insertState12
  dsimp only
  split
  · split
    · trivial
    · split
      · refine Prompt.submitIo ?_ _
        exact h.congr rfl rfl
      · trivial
  · exact h.congr rfl rfl

theorem insertState13_prompt (h : Prompt deferred s) : (insertState13 s i).Prompt deferred := by
  unfold insertState13
  dsimp only
  exact Prompt.congr ((h.congr rfl rfl : Prompt deferred (s.setInsert i _)).releaseAllBut 0) rfl rfl

end Insert

section Search

theorem searchState0_prompt (h : Prompt deferred s) (hpos : ∀ x, 0 ≤ (s.barriers x).readBarriers) :
    (searchState0 s i).Prompt deferred := by
  unfold searchState0
  dsimp only
  split
  · next s₁ heq =>
      have hreq := h.requestBarrier hpos heq rfl rfl
      exact hreq.congr rfl rfl
  · next s₁ heq => exact h.requestBarrier hpos heq rfl rfl

theorem searchState1_prompt (h : Prompt deferred s) :
    (searchState1 deferred s i).Prompt deferred := by
  unfold searchState1
  dsimp only
  split
  · trivial
  · split
    · refine Prompt.submitIo ?_ _
      exact h.releaseFront.congr rfl rfl
    · refine Prompt.submitIo ?_ _
      exact h.congr rfl rfl

theorem searchFinish_prompt {r : SearchRequest K} {found : Option V} (h : Prompt deferred s) :
    (searchFinish s i r found).Prompt deferred := by
  unfold searchFinish
  dsimp only
  refine Prompt.congr (Prompt.releaseFronts _ ?_) rfl rfl
  exact h.congr rfl rfl

theorem searchState2_prompt [LinearOrder K] (h : Prompt deferred s) :
    (searchState2 s i).Prompt deferred := by
  unfold searchState2
  split
  · trivial
  · split
    · trivial
    · exact searchFinish_prompt h
    · dsimp only
      split
      · exact searchFinish_prompt h
      · split
        · trivial
        · exact h.congr rfl rfl

end Search

/-- **Every `case` keeps the fronts of the queues blocked.** -/
theorem ctxCase_prompt [LinearOrder K] {capacity : Nat} (h : Prompt deferred s)
    (hpos : ∀ x, 0 ≤ (s.barriers x).readBarriers) :
    (ctxCase capacity deferred s c).Prompt deferred := by
  cases c with
  | search i =>
      show (searchCase deferred s i).Prompt deferred
      unfold searchCase
      split
      · exact searchState0_prompt h hpos
      · exact searchState1_prompt h
      · exact searchState2_prompt h
      · trivial
  | insert i =>
      show (insertCase capacity deferred s i).Prompt deferred
      unfold insertCase
      split
      · exact insertState0_prompt h hpos
      · exact insertState10001_prompt h
      · exact insertState1_prompt h
      · exact insertState2_prompt h
      · exact insertState9_prompt h
      · exact insertState10_prompt h
      · exact insertState11_prompt h
      · exact insertState12_prompt h
      · exact insertState13_prompt h

end PullBasedBPlusTree

end NvmTree
