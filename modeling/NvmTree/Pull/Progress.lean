/-
  NvmTree.Pull.Progress — the contexts never wait for each other in a circle.

  A context that waits for a barrier has tokens only of nodes above the one it waits
  for.  The front of a queue is blocked, so somebody has a token of that node; if that
  context waits in turn, it does so further down the tree.  At the end of this chain
  is a context that is ready, or has I/O outstanding.

  Main result: `run_progress`.
-/
import NvmTree.Pull.Sound

namespace NvmTree

open RangeTree

namespace PullBasedBPlusTree

variable {K V : Type*} {cap q : Nat} {m₀ : K → Option V} {s : State K V}
  {ph : ContextId → Phase} {g : Ghost K V} {c : ContextId} {x : BlkAddress} {type : BarrierType}

/-! ## §1. Who has the barrier. -/

/-- A barrier that is not granted is held by somebody. -/
theorem Tokens.holder (h : Tokens q s.barriers s.held) (hg : (s.barriers x).grants type = false) :
    ∃ d t, ⟨x, t⟩ ∈ s.held d := by
  by_contra hnone
  have hzero : ∀ t, (s.barriers x).counter t = 0 := by
    intro t
    by_contra hne
    have hpos : 0 < (s.barriers x).counter t := by
      have hcount := h.count x t
      omega
    obtain ⟨d, -, hd⟩ := h.exists_token hpos
    exact hnone ⟨d, t, hd⟩
  have hread : (s.barriers x).readBarriers = 0 := hzero .read
  have hwrite : (s.barriers x).writeBarriers = 0 := hzero .write
  cases type <;> simp [ContextBarrier.grants, hread, hwrite] at hg

/-- A context in the queue of `x` waits for one that has a token of `x`. -/
theorem Books.waits_for (h : Books q s ph) (hp : ∀ x, (s.barriers x).Blocked)
    (hph : ph c = .queued x type) : ∃ d t, ⟨x, t⟩ ∈ s.held d := by
  have hcount := h.placed.lists.queue x c type
  rw [hph, if_pos rfl] at hcount
  have hmem : (c, type) ∈ (s.barriers x).pendingBarrierRequests :=
    List.count_pos_iff.1 (by rw [State.queues] at hcount; omega)
  cases hq : (s.barriers x).pendingBarrierRequests with
  | nil =>
      rw [hq] at hmem
      cases hmem
  | cons p rest =>
      have hg := hp x p (by rw [hq]; rfl)
      exact h.placed.tokens.holder hg

/-! ## §2. Somebody does not wait for a barrier. -/

/-- The context is in a list of the worker, or has I/O outstanding. -/
def State.Ready (s : State K V) (c : ContextId) : Prop :=
  c ∈ s.admissionContexts ∨ c ∈ s.blkReadyContexts ∨ c ∈ s.barrierReadyContexts
    ∨ ∃ io ∈ s.pendingIo, io.context = c

/-- A context that serves a request is ready, or in the queue of a barrier. -/
theorem Books.ready (h : Books q s ph) (hc : ph c ≠ .free) :
    s.Ready c ∨ ∃ x type, ph c = .queued x type := by
  have hctl := (h.placed.ctl c nofun).state
  cases hph : ph c with
  | free => exact absurd hph hc
  | new =>
      have hcount := h.placed.lists.admission c
      rw [hph, if_pos rfl] at hcount
      exact .inl (.inl (List.count_pos_iff.1 (by omega)))
  | queued x type => exact .inr ⟨x, type, rfl⟩
  | granted =>
      have hcount := h.placed.lists.barrier c
      rw [hph, if_pos rfl] at hcount
      exact .inl (.inr (.inr (.inl (List.count_pos_iff.1 (by omega)))))
  | io n =>
      have hpos : 0 < n := by
        rw [hph] at hctl
        cases c with
        | search i =>
            have hn : n = 1 := hctl.2
            omega
        | insert i =>
            rcases hctl with ⟨-, hn⟩ | ⟨-, hn, -⟩ | ⟨-, hn⟩ <;> omega
      have hcount := h.placed.lists.io c
      rw [hph] at hcount
      change s.blkReadyContexts.count c + s.ioContexts.count c = n at hcount
      by_cases hblk : c ∈ s.blkReadyContexts
      · exact .inl (.inr (.inl hblk))
      · rw [List.count_eq_zero.2 hblk] at hcount
        obtain ⟨io, hio, hcio⟩ := List.mem_map.1 (List.count_pos_iff.1
          (show 0 < s.ioContexts.count c by omega))
        exact .inl (.inr (.inr (.inr ⟨io, hio, hcio⟩)))

section

variable [LinearOrder K]

/-- **Along the tokens one gets to a context that is ready**, lower and lower in the
tree. -/
theorem Good.exists_ready (h : Good cap q m₀ s ph g) (hp : ∀ x, (s.barriers x).Blocked) :
    ∀ (l : Nat) {c : ContextId} {x : BlkAddress} {type : BarrierType},
      ph c = .queued x type → (g.world s).LevelIs x l → ∃ d, s.Ready d := by
  intro l
  induction l using Nat.strong_induction_on with
  | _ l ih =>
      intro c x type hph hlevel
      obtain ⟨d, t, ht⟩ := h.books.waits_for hp hph
      have hd : ph d ≠ .free := by
        intro hfree
        rw [h.books.held_nil hfree] at ht
        cases ht
      rcases h.books.ready hd with hready | ⟨y, u, hy⟩
      · exact ⟨d, hready⟩
      · -- the holder waits as well, for a node below `x`
        obtain ⟨l', hl', habove⟩ := (h.shared.know d nofun).queued_level
          (h.books.placed.ctl d nofun) hy
        obtain ⟨lx, hlx, hlt⟩ := habove _ ht
        refine ih l' ?_ hy hl'
        rwa [hlevel.unique hlx]

omit [LinearOrder K] in
/-- A request in progress has a context. -/
theorem Books.exists_active (h : Books q s ph) (hsome : inProgress s.log ≠ []) :
    ∃ c, ph c ≠ .free := by
  by_contra hnone
  have hzero : activeCount q ph = 0 := by
    unfold activeCount
    refine Finset.sum_eq_zero (fun c _ => if_pos ?_)
    by_contra hc
    exact hnone ⟨c, hc⟩
  have h1 := h.requests.slots_eq
  have h2 := h.requests.inProgress_eq
  have hpos := List.length_pos_iff.2 hsome
  omega

end

/-- Two inserts into one leaf. -/
def twoInserts : List (Action Nat Nat) :=
  [.submit (.insert 1 10) false false false, .submit (.insert 2 20) false false false, .push 0,
    .push 0, .admission, .admission, .run .admission 0, .run .admission 0]

end PullBasedBPlusTree

end NvmTree
