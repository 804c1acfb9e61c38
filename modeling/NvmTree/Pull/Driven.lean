/-
  NvmTree.Pull.Driven — `run` goes on as intended.

  `Driven` is what holds inside `run`: the books are in order, the contexts share a
  tree, the running context knows what its state says, and the inserts that have
  taken effect are a linearization of what the clients saw (`Ledger`).  `Good` is the
  same between the steps.

  A `case` is `Fine` when it does not fail, keeps all this, and comes closer to its
  end (`rank`) when it calls `run` again.  The lemmas here are the ways a `case` ends:
  the context goes on, gives tokens back, takes one, or waits.
-/
import NvmTree.Pull.Ledger

namespace NvmTree

open RangeTree

namespace PullBasedBPlusTree

variable {K V : Type*}

/-! ## §1. Inside `run` and between the steps. -/

section

variable [LinearOrder K]

/-- Between the steps. -/
structure Good (cap q : Nat) (m₀ : K → Option V) (s : State K V) (ph : ContextId → Phase)
    (g : Ghost K V) : Prop where
  books : Books q s ph
  shared : Shared cap s ph g none
  ledger : Ledger m₀ s.log g

/-- Inside `run`, for the context `c`. -/
structure Driven (cap q : Nat) (m₀ : K → Option V) (s : State K V) (ph : ContextId → Phase)
    (g : Ghost K V) (c : ContextId) : Prop where
  running : Running q s ph c
  shared : Shared cap s ph g (some c)
  runs : Runs cap s g c
  ledger : Ledger m₀ s.log g

end

/-- A search waits for its first barrier. -/
def Waiting (s : State K V) (ph : ContextId → Phase) : Prop :=
  ∃ i, (ph (.search i)).waits = true ∧ s.held (.search i) = []

/-- How far a context is from the end of its `run`: a token of an old root leads back
to state 0. -/
def insertRank (root : BlkAddress) (x : InsertContext K V) (tokens : List BarrierToken) :
    CtxState → Nat
  | .s1 => 1
  | .s11 => 1
  | .s12 => 1
  | .s9 => 2
  | .s10001 =>
      if x.referToRoot = true ∧ tokens.head?.map BarrierToken.barrierId ≠ some root then 4 else 2
  | .s0 => 3
  | .s10 => 3
  | .s13 => 4
  | .s2 => 5

def searchRank : CtxState → Nat
  | .s1 => 1
  | .s0 => 2
  | _ => 3

def rank (s : State K V) : ContextId → Nat
  | .search i => searchRank (s.contexts (.search i)).currentState
  | .insert i => insertRank s.root (s.inserts i) (s.held (.insert i))
      (s.contexts (.insert i)).currentState

/-- A token of the root leads on. -/
theorem insertRank_fresh {root : BlkAddress} {x : InsertContext K V} {token : BarrierToken}
    (tokens : List BarrierToken) (h : x.referToRoot = true → token.barrierId = root) :
    insertRank root x (token :: tokens) .s10001 = 2 := by
  have hnot : ¬ (x.referToRoot = true ∧ (token :: tokens).head?.map BarrierToken.barrierId
      ≠ some root) := fun ⟨hr, hne⟩ => hne (by simp [h hr])
  rw [insertRank, if_neg hnot]

theorem rank_le (s : State K V) (c : ContextId) : rank s c ≤ 5 := by
  cases c with
  | search i =>
      simp only [rank]
      cases (s.contexts (.search i)).currentState <;> simp [searchRank]
  | insert i =>
      simp only [rank]
      cases (s.contexts (.insert i)).currentState
      case s10001 =>
        simp only [insertRank]
        split <;> omega
      all_goals simp [insertRank]

section

variable [LinearOrder K]

/-- **What a `case` should do.** -/
def Outcome.Fine (cap q : Nat) (m₀ : K → Option V) (s : State K V) (ph : ContextId → Phase)
    (g : Ghost K V) (c : ContextId) : Outcome K V → Prop
  | .again s' => ∃ ph' g', Driven cap q m₀ s' ph' g' c ∧ rank s' c < rank s c
      ∧ s'.root = s.root ∧ (g'.lost → g.lost) ∧ (Waiting s' ph' → Waiting s ph)
  | .stop s' => ∃ ph' g', Good cap q m₀ s' ph' g'
      ∧ (g'.lost → g.lost ∨ (s'.root ≠ s.root ∧ Waiting s ph))
  | .fault _ => False

variable {cap q : Nat} {m₀ : K → Option V} {s s' : State K V} {ph ph' : ContextId → Phase}
  {g g' : Ghost K V} {c : ContextId} {i : Nat}

theorem Outcome.Fine.again (h : ∃ ph' g', Driven cap q m₀ s' ph' g' c ∧ rank s' c < rank s c
    ∧ s'.root = s.root ∧ (g'.lost → g.lost) ∧ (Waiting s' ph' → Waiting s ph)) :
    (Outcome.again s').Fine cap q m₀ s ph g c := h

theorem Outcome.Fine.stop (h : ∃ ph' g', Good cap q m₀ s' ph' g'
    ∧ (g'.lost → g.lost ∨ (s'.root ≠ s.root ∧ Waiting s ph))) :
    (Outcome.stop s').Fine cap q m₀ s ph g c := h

/-! ## §2. An insert goes on. -/

theorem Driven.request (h : Driven cap q m₀ s ph g (.insert i)) :
    ∃ r, (s.inserts i).request = some r
      ∧ InsertRuns cap (g.world s) (.insert i) r.key (s.inserts i) (r ∈ g.order)
          (s.held (.insert i)) (g.fr (.insert i)) (s.contexts (.insert i)).currentState := h.runs

/-- The context sets its data and calls `run` again. -/
theorem Driven.setAgain {x : InsertContext K V} {st : CtxState} {r : InsertRequest K V}
    (h : Driven cap q m₀ s ph g (.insert i)) (hph : ph (.insert i) = .io 0)
    (hr : (s.inserts i).request = some r) (hx : x.request = (s.inserts i).request)
    (hst : st ≠ .s10 ∧ st ≠ .s12)
    (hruns : InsertRuns cap (g.world s) (.insert i) r.key x (r ∈ g.order) (s.held (.insert i))
      (g.fr (.insert i)) st)
    (hrank : insertRank s.root x (s.held (.insert i)) st < rank s (.insert i)) :
    (Outcome.again ((s.setInsert i x).enter (.insert i) st)).Fine cap q m₀ s ph g (.insert i) := by
  have hctx : ((s.setInsert i x).enter (.insert i) st).contexts (.insert i)
      = { s.contexts (.insert i) with currentState := st, nextState := some st } :=
    Function.update_self ..
  have hheld : ((s.setInsert i x).enter (.insert i) st).held = s.held :=
    (s.setInsert i x).held_enter _ _
  have hdata : ((s.setInsert i x).enter (.insert i) st).inserts i = x := Function.update_self ..
  have hworld : g.world ((s.setInsert i x).enter (.insert i) st) = g.world s :=
    g.world_enter _ _ _
  refine .again ⟨ph, g, ⟨h.running.setAgain hph hx hst, (h.shared.setInsert x).enter st, ?_,
    h.ledger⟩, ?_, rfl, id, ?_⟩
  · refine ⟨r, by rw [hdata, hx, hr], ?_⟩
    rw [hworld, hheld, hctx, hdata]
    exact hruns
  · rw [rank, hheld, hctx, hdata]
    exact hrank
  · rintro ⟨j, hj, hnil⟩
    rw [hheld] at hnil
    exact ⟨j, hj, hnil⟩

/-- Tokens that are not kept, when those kept are the last `n`. -/
theorem mem_drop_of_not_mem_take {tokens : List BarrierToken} {n : Nat} {t : BarrierToken}
    (ht : t ∈ tokens) (hnot : t ∉ tokens.take n) : t ∈ tokens.drop n := by
  rw [← List.take_append_drop n tokens] at ht
  exact (List.mem_append.1 ht).resolve_left hnot

omit [LinearOrder K] in
/-- A release makes no search wait. -/
theorem Released.waiting {kept : List BarrierToken} (h : Released q s s' ph c kept ph')
    (hc : (ph c).waits = false) (hw : Waiting s' ph') : Waiting s ph := by
  obtain ⟨j, hj, hnil⟩ := hw
  by_cases hd : ContextId.search j = c
  · rw [hd, h.phase, hc] at hj
    cases hj
  · rcases h.others _ hd with ⟨hp, hb⟩ | ⟨y, t, -, hp, -⟩
    · refine ⟨j, hp ▸ hj, ?_⟩
      rw [State.held, hb] at hnil
      exact hnil
    · rw [hp] at hj
      cases hj

/-- The world after a release, for the context that gave tokens back. -/
structure Kept (w w' : World ContextId K V BlkAddress) (m : K → Option V) (c : ContextId)
    (kept : List BarrierToken) : Prop where
  ok : w'.Ok m
  raw : w'.raw = w.raw
  E : w'.E = w.E
  G : w'.G = w.G
  root : w'.root = w.root
  depth : w'.depth = w.depth
  mode : ∀ t ∈ kept, w'.mode c t.barrierId = some t.type

section Kept

variable {w w' : World ContextId K V BlkAddress} {m : K → Option V} {kept : List BarrierToken}
  {a : BlkAddress} {key : K}

theorem Kept.held (h : Kept w w' m c kept) {t : BarrierToken} (ht : t ∈ kept) :
    w'.Held c t.barrierId := by
  have hm := h.mode t ht
  intro hnone
  cases hm.symm.trans hnone

theorem Kept.clean (h : Kept w w' m c kept) {t : BarrierToken} (ht : t ∈ kept)
    (hc : w.Clean c t.barrierId) : w'.Clean c t.barrierId :=
  ⟨h.held ht, by rw [h.raw, h.E]; exact hc.2⟩

theorem Kept.level (h : Kept w w' m c kept) {l : Nat} (ha : w.LevelIs a l) : w'.LevelIs a l := by
  obtain ⟨sp, hsp, hl⟩ := ha
  exact ⟨sp, by rw [h.G]; exact hsp, hl⟩

theorem Kept.at_node (h : Kept w w' m c kept) {t : BarrierToken} (ht : t ∈ kept)
    (hat : w.At c t.barrierId key) : w'.At c t.barrierId key := by
  obtain ⟨sp, hsp, hk⟩ := hat.plan
  refine ⟨⟨sp, by rw [h.G]; exact hsp, hk⟩, ?_, .inl (h.held ht)⟩
  rw [h.E, h.G]
  exact hat.below

/-- A frame whose token is kept. -/
theorem Kept.frame (h : Kept w w' m c kept) {p : ParentNodeContext K} (hp : p.token ∈ kept)
    (hf : w.FrameOk c key cap none p.copy a) : w'.FrameOk c key cap none p.copy a := by
  obtain ⟨sp, hsp⟩ := hf.plan
  obtain ⟨xs, ka, ys, h1, h2, h3, h4⟩ := hf.row
  refine ⟨⟨sp, by rw [h.G]; exact hsp⟩, h.mode _ hp, ⟨xs, ka, ys, h1, h2, h3, ?_⟩, hf.size,
    fun hm => ?_⟩
  · rw [h.E]
    exact h4
  · rw [h.raw]
    exact hf.raw hm

end Kept

/-- **The context gives back tokens** of nodes that show the tree, and calls `run`
again. -/
theorem Driven.releaseAgain {x : InsertContext K V} {st : CtxState} {r : InsertRequest K V}
    {n : Nat} (h : Driven cap q m₀ s ph g (.insert i)) (hph : ph (.insert i) = .io 0)
    (hr : (s.inserts i).request = some r) (hx : x.request = (s.inserts i).request)
    (hst : st ≠ .s10 ∧ st ≠ .s12)
    (hclean : ∀ t ∈ (s.held (.insert i)).drop n, (g.world s).Clean (.insert i) t.barrierId)
    (hruns : ∀ w', Kept (g.world s) w' g.m (.insert i) ((s.held (.insert i)).take n) →
      InsertRuns cap w' (.insert i) r.key x (r ∈ g.order) ((s.held (.insert i)).take n)
        (g.fr (.insert i)) st)
    (hrank : insertRank s.root x ((s.held (.insert i)).take n) st < rank s (.insert i)) :
    (Outcome.again (((s.setInsert i x).releaseAllBut (.insert i) n).enter (.insert i) st)).Fine
      cap q m₀ s ph g (.insert i) := by
  obtain ⟨ph', hrel, hrun⟩ := h.running.releaseAgain (n := n) hph hx hst
  have hshared := h.shared.setInsert x
  obtain ⟨hshared', -⟩ := hshared.release (h.running.placed.setInsert x) (by simp [hph]) hrel
    (List.take_sublist _ _) (fun t ht hnot => hclean t (mem_drop_of_not_mem_take ht hnot))
  obtain ⟨b, C, l, hs₁⟩ := hrel.frame
  generalize hs₁' : (s.setInsert i x).releaseAllBut (.insert i) n = s₁ at *
  have hheld₁ : s₁.held (.insert i) = (s.held (.insert i)).take n :=
    congrArg CallBackContext.obtainedBarriers hrel.self
  have hheld : (s₁.enter (.insert i) st).held = s₁.held := s₁.held_enter _ _
  have hctx : ((s₁.enter (.insert i) st).contexts (.insert i)).currentState = st := by
    simp [State.enter, State.setContext]
  have hdata : (s₁.enter (.insert i) st).inserts i = x := by
    rw [hs₁]
    exact Function.update_self ..
  have hworld : g.world (s₁.enter (.insert i) st) = g.world s₁ := g.world_enter _ _ _
  have hroot : (s₁.enter (.insert i) st).root = s.root := by
    rw [hs₁]
    rfl
  have hkept : Kept (g.world s) (g.world s₁) g.m (.insert i) ((s.held (.insert i)).take n) := by
    refine ⟨hshared'.ok, ?_, ?_, ?_, ?_, ?_, fun t ht => hshared'.mode_of_mem (hheld₁ ▸ ht)⟩ <;>
      rw [hs₁] <;> rfl
  refine .again ⟨ph', g, ⟨hrun, hshared'.enter st, ⟨r, ?_, ?_⟩, ?_⟩, ?_, hroot, id, fun hw => ?_⟩
  · rw [hdata, hx, hr]
  · rw [hworld, hheld, hctx, hdata, hheld₁]
    exact hruns _ hkept
  · have hlog : (s₁.enter (.insert i) st).log = s.log := by
      rw [hs₁]
      rfl
    rw [hlog]
    exact h.ledger
  · rw [rank, hheld, hctx, hdata, hheld₁, hroot]
    exact hrank
  · have hw₁ : Waiting s₁ ph' := by
      obtain ⟨j, hj, hnil⟩ := hw
      rw [hheld] at hnil
      exact ⟨j, hj, hnil⟩
    exact hrel.waiting (by rw [hph]; rfl) hw₁

/-! ## §3. A barrier is granted or waited for. -/

/-- The state after the barrier of `x` was granted to the running context. -/
structure Granted (q cap : Nat) (s s' : State K V) (ph : ContextId → Phase) (g : Ghost K V)
    (c : ContextId) (token : BarrierToken) (st : CtxState) : Prop where
  running : Running q s' ph c
  shared : Shared cap s' ph g (some c)
  clean : (g.world s').Clean c token.barrierId
  guar : ∃ j, c ≠ j ∧ World.Guar j (g.world s) (g.world s')
  held : s'.held c = token :: s.held c
  state : (s'.contexts c).currentState = st
  inserts : s'.inserts = s.inserts
  searches : s'.searches = s.searches
  root : s'.root = s.root
  log : s'.log = s.log
  waiting : Waiting s' ph → Waiting s ph

theorem Shared.granted {x : BlkAddress} {type : BarrierType} {st : CtxState} {s₀ : State K V}
    (h : Shared cap s ph g (some c)) (hrun : Running q s ph c) (hph : ph c = .io 0)
    (hst : st ≠ .s10 ∧ st ≠ .s12) (htype : ∀ j, c = .search j → type = .read)
    (hx : (g.world s).Knows x) (hnot : ∀ t ∈ s.held c, t.barrierId ≠ x)
    (hs₀ : s.setNextState c st = s₀) (hg : (s₀.barriers x).grants type = true) :
    Granted q cap s (((s₀.setBarrier x ((s₀.barriers x).add type)).addToken c
      ⟨x, type⟩).transition c) ph g c ⟨x, type⟩ st := by
  have hheld₀ : s₀.held = s.held := by
    rw [← hs₀]
    exact s.held_setNextState c st
  have hworld₀ : g.world s₀ = g.world s := by
    rw [← hs₀]
    exact g.world_setNextState s c st
  have hshared₀ := h.setNextState st
  have hplaced₀ := hrun.placed.setNextState st
  have hrunning := hrun.grant (x := x) (c := c) hph hst htype (by rw [hs₀]; exact hg)
  rw [hs₀] at hshared₀ hplaced₀ hrunning
  obtain ⟨hshared, hclean, j, hcj, hguar⟩ := hshared₀.grant hplaced₀ (by simp [hph])
    (hworld₀ ▸ hx) (hheld₀ ▸ hnot) hg rfl
  generalize hs₁ : (s₀.setBarrier x ((s₀.barriers x).add type)).addToken c ⟨x, type⟩ = s₁ at *
  have hheld₁ : (s₁.transition c).held = s₁.held := s₁.held_transition c
  have hself₁ : s₁.held c = ⟨x, type⟩ :: s.held c := by
    rw [← hs₁, ← hheld₀]
    simp [State.held, State.addToken, State.setContext, State.setBarrier]
  have hworld₁ : g.world (s₁.transition c) = g.world s₁ := g.world_transition s₁ c
  refine ⟨hrunning, hshared.transition, hworld₁ ▸ hclean, ⟨j, hcj, hworld₁ ▸ hworld₀ ▸ hguar⟩, ?_,
    ?_, ?_, ?_, ?_, ?_, ?_⟩
  · rw [hheld₁, hself₁]
  · rw [← hs₁, ← hs₀]
    simp [State.transition, State.addToken, State.setNextState, State.setContext, State.setBarrier]
  · rw [← hs₁, ← hs₀]
    rfl
  · rw [← hs₁, ← hs₀]
    rfl
  · rw [← hs₁, ← hs₀]
    rfl
  · rw [← hs₁, ← hs₀]
    rfl
  · rintro ⟨k, hk, hnil⟩
    refine ⟨k, hk, ?_⟩
    by_cases hkc : ContextId.search k = c
    · rw [hkc, hph] at hk
      cases hk
    · rw [hheld₁, ← hs₁] at hnil
      rw [← hheld₀]
      simpa [State.held, State.addToken, State.setContext, State.setBarrier, hkc] using hnil

/-- The request for a barrier is queued: the context waits, with what it knows. -/
theorem Shared.queued {x : BlkAddress} {type : BarrierType} {st : CtxState} {s₀ : State K V}
    (h : Shared cap s ph g (some c)) (hs₀ : s.setNextState c st = s₀)
    (hk : Know cap (s₀.setBarrier x ((s₀.barriers x).push c type))
      (Function.update ph c (.queued x type)) g c) :
    Shared cap (s₀.setBarrier x ((s₀.barriers x).push c type))
      (Function.update ph c (.queued x type)) g none := by
  have hshared := (h.setNextState st).phase (.queued x type)
  rw [hs₀] at hshared
  refine Shared.park (c := c) (hshared.self rfl rfl rfl rfl rfl (fun d hd => ⟨?_, rfl, rfl⟩)) hk
  cases d <;> rfl

/-! ## §4. A node is read. -/

/-- What is read from a node that shows the tree. -/
theorem Shared.shows {a : BlkAddress} {run : Option ContextId} (h : Shared cap s ph g run)
    (hk : (g.world s).Knows a) (hraw : (g.world s).raw a = (g.world s).E a) :
    ∃ b, s.blocks a = some b ∧ Shows cap (g.world s) a b := by
  obtain ⟨sp, hsp⟩ := hk
  obtain ⟨κ, ht⟩ := h.ok.tree
  obtain ⟨sh, hE, -⟩ := ht.node hsp
  rw [hE] at hraw
  obtain ⟨b, hb, hshape⟩ := Option.map_eq_some_iff.1 hraw
  obtain ⟨hself, hsize⟩ := h.blocks a b hb
  exact ⟨b, hb, hself, hsize, by rw [hE, hshape]⟩

end

end PullBasedBPlusTree

end NvmTree
