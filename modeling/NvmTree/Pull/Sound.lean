/-
  NvmTree.Pull.Sound — every run of the machine goes on as intended.

  From a stored tree, and without delay of the I/O, no step of the worker or of a
  client fails, and every state reached is `Good` and `Prompt`.  A search is lost only
  when a root is replaced while a search waits for its first barrier.

  Main results:
    * `runContext_fine` — `run` of a context ends, and without a fault.
    * `step_fine`       — every step that is possible succeeds.
    * `run_sound`       — the invariant after every run.
-/
import NvmTree.Pull.InsertUp
import NvmTree.Pull.Prompt
import NvmTree.Pull.SearchRun
import NvmTree.Pull.Worker

namespace NvmTree

open RangeTree

namespace PullBasedBPlusTree

variable {K V : Type*} [LinearOrder K] {cap q : Nat} {m₀ : K → Option V} {s s' : State K V}
  {ph ph' : ContextId → Phase} {g g' : Ghost K V} {c : ContextId} {i : Nat}

/-! ## §1. A context runs to the end of its `run`. -/

theorem ctxCase_fine (hcap : 2 ≤ cap) (h : Driven cap q m₀ s ph g c) :
    (ctxCase cap false s c).Fine cap q m₀ s ph g c := by
  cases c with
  | search i => exact searchCase_fine h
  | insert i =>
      show (insertCase cap false s i).Fine cap q m₀ s ph g (.insert i)
      unfold insertCase
      split
      · next hst => exact insertState0_fine h hst
      · next hst => exact insertState10001_fine h hst
      · next hst => exact insertState1_fine h hst
      · next hst => exact insertState2_fine hcap h hst
      · next hst => exact insertState9_fine hcap h hst
      · next hst => exact insertState10_fine h hst
      · next hst => exact insertState11_fine h hst
      · next hst => exact insertState12_fine hcap h hst
      · next hst => exact insertState13_fine h hst

/-- What a step may do to the searches that wait. -/
def Spares (s : State K V) (ph : ContextId → Phase) (g : Ghost K V) (s' : State K V)
    (g' : Ghost K V) : Prop :=
  g'.lost → g.lost ∨ (s'.root ≠ s.root ∧ Waiting s ph)

/-- The state after a step. -/
def Goes (cap q : Nat) (m₀ : K → Option V) (s : State K V) (ph : ContextId → Phase)
    (g : Ghost K V) (s' : State K V) : Prop :=
  ∃ ph' g', Good cap q m₀ s' ph' g' ∧ Prompt false s' ∧ Spares s ph g s' g'

omit [LinearOrder K] in
theorem Running.reads_nonneg (h : Running q s ph c) (x : BlkAddress) :
    0 ≤ (s.barriers x).readBarriers := by
  have hcount : (s.barriers x).readBarriers = tokenCount q s.held x .read :=
    h.placed.tokens.count x .read
  omega

/-- **`run` ends, and without a fault.** -/
theorem runContext_fine (hcap : 2 ≤ cap) {fuel : Nat} (h : Driven cap q m₀ s ph g c)
    (hprompt : Prompt false s) (hfuel : rank s c < fuel) :
    ∃ s', runContext cap false c fuel s = .ok s' ∧ Goes cap q m₀ s ph g s' := by
  -- each call of `run` by itself lowers the rank
  induction fuel generalizing s ph g with
  | zero => omega
  | succ fuel ih =>
      have hfine := ctxCase_fine hcap h
      have hnext : (ctxCase cap false s c).Prompt false :=
        ctxCase_prompt hprompt h.running.reads_nonneg
      rw [runContext]
      cases hcase : ctxCase cap false s c with
      | again s₁ =>
          rw [hcase] at hfine hnext
          obtain ⟨ph₁, g₁, h₁, hrank, hroot, hlost, hwait⟩ := hfine
          obtain ⟨s', hrun, ph', g', hgood, hprompt', hspares⟩ := ih h₁ hnext (by omega)
          refine ⟨s', hrun, ph', g', hgood, hprompt', fun hl => ?_⟩
          rcases hspares hl with hl | ⟨hne, hw⟩
          · exact .inl (hlost hl)
          · exact .inr ⟨hroot ▸ hne, hwait hw⟩
      | stop s₁ =>
          rw [hcase] at hfine hnext
          obtain ⟨ph₁, g₁, hgood, hlost⟩ := hfine
          exact ⟨s₁, rfl, ph₁, g₁, hgood, hnext, hlost⟩
      | fault f =>
          rw [hcase] at hfine
          exact hfine.elim

/-! ## §2. A context is taken from a list. -/

theorem Know.new (h : Know cap s ph g c) (hctl : Ctl s ph c) (hph : ph c = .new) :
    Runs cap s g c := by
  have hst := hctl.state
  rw [hph] at hst
  cases c with
  | search i =>
      obtain ⟨r, hr, hk⟩ := h.2 (by rw [hph]; nofun)
      rw [hph] at hk
      refine ⟨h.1, r, hr, ?_⟩
      rw [hst.1]
      exact hk
  | insert i =>
      obtain ⟨r, hr, hk⟩ := h.2 (by rw [hph]; nofun)
      rw [hph] at hk
      refine ⟨r, hr, ?_⟩
      rw [hst.1]
      exact ⟨hk.1, .inl hk.2⟩

theorem Know.granted (h : Know cap s ph g c) (hctl : Ctl s ph c) (hph : ph c = .granted) :
    Runs cap s g c := by
  have hst := hctl.state
  rw [hph] at hst
  cases c with
  | search i =>
      obtain ⟨r, hr, hk⟩ := h.2 (by rw [hph]; nofun)
      rw [hph] at hk
      have hcur : (s.contexts (.search i)).currentState = .s1 := hst
      refine ⟨h.1, r, hr, ?_⟩
      rw [hcur]
      exact hk
  | insert i =>
      obtain ⟨r, hr, hk⟩ := h.2 (by rw [hph]; nofun)
      rw [hph] at hk
      have hcur : (s.contexts (.insert i)).currentState = .s10001 := hst
      refine ⟨r, hr, ?_⟩
      rw [hcur]
      exact hk

/-- The states that follow a completion are the ones a context waits in. -/
theorem InsertWait.runs {w : World ContextId K V BlkAddress} {key : K} {x : InsertContext K V}
    {done : Prop} {tokens : List BarrierToken} {fr : List BlkAddress} {st : CtxState}
    (h : InsertWait cap w c key x done tokens fr st) :
    InsertRuns cap w c key x done tokens fr st := by
  cases st with
  | s2 => exact h
  | s10 => exact h
  | s11 => exact h
  | s12 => exact h
  | s0 => exact h.elim
  | s10001 => exact h.elim
  | s1 => exact h.elim
  | s9 => exact h.elim
  | s13 => exact h.elim

theorem Know.completed {n : Nat} (h : Know cap s ph g c) (hctl : Ctl s ph c)
    (hph : ph c = .io n) (hready : (s.contexts c).nextState = some (s.contexts c).currentState) :
    Runs cap s g c := by
  have hst := hctl.state
  rw [hph] at hst
  cases c with
  | search i =>
      obtain ⟨r, hr, hk⟩ := h.2 (by rw [hph]; nofun)
      rw [hph] at hk
      have hcur : (s.contexts (.search i)).currentState = .s2 :=
        Option.some.inj (hready.symm.trans hst.1)
      refine ⟨h.1, r, hr, ?_⟩
      rw [hcur]
      exact hk
  | insert i =>
      obtain ⟨r, hr, hk⟩ := h.2 (by rw [hph]; nofun)
      rw [hph] at hk
      obtain ⟨st, hnext, hwait⟩ := hk
      have hcur : (s.contexts (.insert i)).currentState = st :=
        Option.some.inj (hready.symm.trans hnext)
      refine ⟨r, hr, ?_⟩
      rw [hcur]
      exact hwait.runs

/-- The context goes on from where it waited. -/
theorem Good.resume {a b k : List ContextId} {p : Phase} (h : Good cap q m₀ s ph g)
    (hp : p.waits = false)
    (hrunning : Running q { s with
      admissionContexts := a, blkReadyContexts := k, barrierReadyContexts := b }
      (Function.update ph c p) c) (hruns : Runs cap s g c) :
    Driven cap q m₀ { s with
      admissionContexts := a, blkReadyContexts := k, barrierReadyContexts := b }
      (Function.update ph c p) g c
    ∧ (Waiting { s with
      admissionContexts := a, blkReadyContexts := k, barrierReadyContexts := b }
      (Function.update ph c p) → Waiting s ph) := by
  refine ⟨⟨hrunning, ?_, ?_, h.ledger⟩, ?_⟩
  · refine ((h.shared.unpark c).phase p).self rfl rfl rfl rfl rfl (fun d _ => ⟨?_, rfl, rfl⟩)
    cases d <;> rfl
  · cases c <;> exact hruns
  · rintro ⟨j, hj, hnil⟩
    by_cases hc : ContextId.search j = c
    · rw [hc, Function.update_self, hp] at hj
      cases hj
    · rw [Function.update_of_ne hc] at hj
      exact ⟨j, hj, hnil⟩

/-- **A context is taken from a list** and knows what its state says. -/
theorem Good.takeReady {n : Nat} {list : ReadyList} (h : Good cap q m₀ s ph g)
    (htake : s.takeReady n list = some (c, s')) :
    ∃ ph', Driven cap q m₀ s' ph' g c ∧ (Waiting s' ph' → Waiting s ph) ∧ s'.root = s.root
      ∧ s'.barriers = s.barriers ∧ s'.pendingIo = s.pendingIo := by
  have hknow := h.shared.know c nofun
  have hctl := h.books.placed.ctl c nofun
  cases list with
  | admission =>
      obtain ⟨d, hn, heq⟩ := Option.map_eq_some_iff.1 htake
      cases heq
      obtain ⟨hph, hrunning⟩ := h.books.takeAdmission hn
      obtain ⟨hdriven, hwait⟩ := h.resume rfl hrunning (hknow.new hctl hph)
      exact ⟨_, hdriven, hwait, rfl, rfl, rfl⟩
  | blk =>
      obtain ⟨d, hn, heq⟩ := Option.map_eq_some_iff.1 htake
      cases heq
      obtain ⟨m, hph, hready, hrunning⟩ := h.books.takeBlk hn
      obtain ⟨hdriven, hwait⟩ := h.resume rfl hrunning (hknow.completed hctl hph hready)
      exact ⟨_, hdriven, hwait, rfl, rfl, rfl⟩
  | barrier =>
      obtain ⟨d, hn, heq⟩ := Option.map_eq_some_iff.1 htake
      cases heq
      obtain ⟨hph, hrunning⟩ := h.books.takeBarrier hn
      obtain ⟨hdriven, hwait⟩ := h.resume rfl hrunning (hknow.granted hctl hph)
      exact ⟨_, hdriven, hwait, rfl, rfl, rfl⟩

/-! ## §3. Requests come in, and I/O completes. -/

/-- What an admission changes. -/
structure Admitted (s s' : State K V) (c : ContextId) (r : Request K V) : Prop where
  blocks : s'.blocks = s.blocks
  allocator : s'.allocator = s.allocator
  root : s'.root = s.root
  depth : s'.depth = s.depth
  barriers : s'.barriers = s.barriers
  pendingIo : s'.pendingIo = s.pendingIo
  log : s'.log = s.log ++ [.admission r]
  contexts : s'.contexts = Function.update s.contexts c
    { s.contexts c with currentState := .s0, nextState := none }
  others : ∀ d, d ≠ c → s.SameData s' d

omit [LinearOrder K] in
theorem admitRequest_search {r : SearchRequest K} {queue : List (Request K V)} {rest : List Nat}
    (hfs : s.freeSearchContexts = i :: rest)
    (hok : admitRequest s (.search r) queue = .ok s') :
    Admitted s s' (.search i) (.search r)
      ∧ s'.searches i = { s.searches i with request := some r, nodeRef := s.root } := by
  simp only [admitRequest, State.addLog, hfs] at hok
  cases hok
  refine ⟨⟨rfl, rfl, rfl, rfl, rfl, rfl, rfl, rfl, fun d hd => ?_⟩, Function.update_self ..⟩
  cases d with
  | search j => exact Function.update_of_ne (fun hj => hd (by rw [hj])) _ _
  | insert j => rfl

omit [LinearOrder K] in
theorem admitRequest_insert {r : InsertRequest K V} {queue : List (Request K V)} {rest : List Nat}
    (hfi : s.freeInsertContexts = i :: rest)
    (hok : admitRequest s (.insert r) queue = .ok s') :
    Admitted s s' (.insert i) (.insert r)
      ∧ s'.inserts i = { s.inserts i with
        request := some r
        nodeRef := none
        freeSlotAvailableInParent := false
        referToRoot := false
        optimistic := true
        pendingParentNodes := []
        nextVisitIsLeafNode := decide (s.depth = 1)
        currentNodeLevel := s.depth } := by
  simp only [admitRequest, State.addLog, hfi] at hok
  cases hok
  refine ⟨⟨rfl, rfl, rfl, rfl, rfl, rfl, rfl, rfl, fun d hd => ?_⟩, Function.update_self ..⟩
  cases d with
  | search j => rfl
  | insert j => exact Function.update_of_ne (fun hj => hd (by rw [hj])) _ _

omit [LinearOrder K] in
theorem Admitted.held {r : Request K V} (h : Admitted s s' c r) : s'.held = s.held := by
  funext d
  unfold State.held
  rw [h.contexts]
  by_cases hd : d = c
  · rw [hd, Function.update_self]
  · rw [Function.update_of_ne hd]

omit [LinearOrder K] in
theorem Admitted.world {r : Request K V} (h : Admitted s s' c r) (g : Ghost K V) :
    g.world s' = g.world s := g.world_congr h.blocks h.root h.depth h.held

omit [LinearOrder K] in
/-- A context that is free has no tokens. -/
theorem Books.held_nil (h : Books q s ph) (hfree : ph c = .free) : s.held c = [] := by
  have hst := (h.placed.ctl c nofun).state
  rw [hfree] at hst
  cases c <;> exact hst

/-- The context that was set up is the only one that changed. -/
theorem Good.admission {r : Request K V} (h : Good cap q m₀ s ph g) (hadm : Admitted s s' c r)
    (hbooks : Books q s' (Function.update ph c .new)) (hledger : Ledger m₀ s'.log g)
    (hknow : Know cap s' (Function.update ph c .new) g c) :
    Good cap q m₀ s' (Function.update ph c .new) g := by
  refine ⟨hbooks, Shared.park (c := c) ?_ hknow, hledger⟩
  refine (h.shared.unpark c).self hadm.blocks hadm.allocator hadm.root hadm.depth hadm.held
    (fun d hd => ⟨hadm.others d hd, ?_, Function.update_of_ne hd _ _⟩)
  rw [hadm.contexts, Function.update_of_ne hd]

/-- A search waits for the root of this moment. -/
theorem Good.admitSearch {r : SearchRequest K} {queue : List (Request K V)}
    (h : Good cap q m₀ s ph g) (hslots : s.freeContextSlots ≠ 0)
    (hqueue : s.requestQueue = .search r :: queue) :
    ∃ s' c ph', admitRequest s (.search r) queue = .ok s' ∧ Good cap q m₀ s' ph' g
      ∧ Admitted s s' c (.search r) := by
  obtain ⟨i, rest, s', hfs, hfree, hok, hbooks⟩ := h.books.admitSearch hslots hqueue
  obtain ⟨hadm, hdata⟩ := admitRequest_search hfs hok
  have hnil : (s'.contexts (.search i)).obtainedBarriers = [] :=
    (congrFun hadm.held (.search i)).trans (h.books.held_nil hfree)
  refine ⟨s', .search i, _, hok, h.admission hadm hbooks ?_ ⟨?_, fun _ => ⟨r, ?_, ?_⟩⟩, hadm⟩
  · rw [hadm.log]
    exact h.ledger.other rfl nofun
  · exact (h.shared.know (.search i) nofun).1
  · rw [hdata]
  · rw [Function.update_self, hadm.world g]
    show SearchAim (g.world s) (.search i) r.key g.lost _ (s'.searches i).nodeRef
    rw [hnil, hdata]
    exact ⟨⟨s.depth, ⟨_, h.shared.ok.plan_root, rfl⟩, nofun⟩, by simp, fun _ => .inl ⟨rfl, rfl⟩⟩

/-- An insert starts without a node. -/
theorem Good.admitInsert {r : InsertRequest K V} {queue : List (Request K V)}
    (h : Good cap q m₀ s ph g) (hslots : s.freeContextSlots ≠ 0)
    (hqueue : s.requestQueue = .insert r :: queue) :
    ∃ s' c ph', admitRequest s (.insert r) queue = .ok s' ∧ Good cap q m₀ s' ph' g
      ∧ Admitted s s' c (.insert r) := by
  obtain ⟨i, rest, s', hfi, hfree, hok, hbooks⟩ := h.books.admitInsert hslots hqueue
  obtain ⟨hadm, hdata⟩ := admitRequest_insert hfi hok
  have hnil : (s'.contexts (.insert i)).obtainedBarriers = [] :=
    (congrFun hadm.held (.insert i)).trans (h.books.held_nil hfree)
  obtain ⟨hfr, hawaits⟩ := (h.shared.know (.insert i) (by simp)).1 hfree
  -- its number is new, so it has not taken effect
  have hids := hbooks.requests.admittedIds
  rw [hadm.log] at hids
  have hnot : r ∉ g.order := by
    intro hr
    rw [admitted_append, List.map_append, List.nodup_append] at hids
    refine hids.2.2 r.id ?_ r.id ?_ rfl
    · exact List.mem_map_of_mem (f := Request.id) (h.ledger.known r hr)
    · simp [admitted, LogEvent.asAdmission, Request.id]
  refine ⟨s', .insert i, _, hok, h.admission hadm hbooks ?_ ⟨?_, fun _ => ⟨r, ?_, ?_⟩⟩, hadm⟩
  · rw [hadm.log]
    refine h.ledger.admitInsert hids ?_
    -- it was in the queue
    have hqueued := h.books.requests.conserve r.id
    have hlt : r.id < s.nextId := h.books.requests.fresh (.insert r)
      (h.books.requests.waiting _ (by rw [hqueue]; simp))
    rw [hqueue, List.countP_cons, if_pos (by simp [Request.id]), if_pos hlt] at hqueued
    unfold finishCount
    change List.countP (LogEvent.finishes r.id) s.log = 0
    omega
  · rw [Function.update_self]
    intro hf
    cases hf
  · rw [hdata]
  · rw [Function.update_self, hadm.world g]
    show Before _ _ _ ∧ Begin (g.world s) (s'.inserts i) _
    rw [hnil, hdata]
    refine ⟨⟨hnot, hfr, hawaits⟩, rfl, rfl, by simp, by simp [Unmodified], fun hleaf => ?_⟩
    -- a tree of depth 1 is a leaf
    have hroot := h.shared.ok.plan_root
    obtain ⟨κ, ht⟩ := h.shared.ok.tree
    have hpos := ht.level_pos hroot
    have hdepth : s.depth ≠ 1 := by simpa using hleaf
    refine ⟨s.root, s.depth, ⟨_, hroot, rfl⟩, ?_⟩
    change 1 ≤ s.depth at hpos
    omega

/-- What a context with I/O in flight knows does not depend on the state it is in. -/
theorem Know.io {n : Nat} (h : Know cap s ph g c) (hph : ph c = .io n)
    (hw : g.world s' = g.world s) (hdata : s.SameData s' c)
    (hnext : (s'.contexts c).nextState = (s.contexts c).nextState)
    (hheld : (s'.contexts c).obtainedBarriers = (s.contexts c).obtainedBarriers) :
    Know cap s' ph g c := by
  cases c with
  | search i =>
      have hdata' : s'.searches i = s.searches i := hdata
      obtain ⟨hfr, hk⟩ := h
      rw [Know, hw, hdata']
      refine ⟨hfr, fun hne => ?_⟩
      obtain ⟨r, hr, hk⟩ := hk hne
      refine ⟨r, hr, ?_⟩
      rw [hph] at hk ⊢
      simp only [SearchKnow, hheld] at hk ⊢
      exact hk
  | insert i =>
      have hdata' : s'.inserts i = s.inserts i := hdata
      obtain ⟨hfree, hk⟩ := h
      rw [Know, hw, hdata']
      refine ⟨hfree, fun hne => ?_⟩
      obtain ⟨r, hr, hk⟩ := hk hne
      refine ⟨r, hr, ?_⟩
      rw [hph] at hk ⊢
      simp only [InsertKnow, hheld, hnext] at hk ⊢
      exact hk

/-- The context of a completion is ready, and knows what it knew. -/
theorem Good.complete {n : Nat} {io : PendingIo K V} (h : Good cap q m₀ s ph g)
    (hn : s.pendingIo[n]? = some io) :
    (s.contexts io.context).nextState ≠ none
      ∧ Good cap q m₀ { ({ s with pendingIo := s.pendingIo.eraseIdx n } : State K V).transition
          io.context with blkReadyContexts := s.blkReadyContexts ++ [io.context] } ph g := by
  obtain ⟨⟨m, hph⟩, hnext, hbooks⟩ := h.books.complete hn
  refine ⟨hnext, hbooks, ?_, h.ledger⟩
  generalize io.context = c at hph hnext hbooks
  generalize hs₁ : ({ s with pendingIo := s.pendingIo.eraseIdx n } : State K V).transition c = s₁
  have hcontexts : s₁.contexts = Function.update s.contexts c { s.contexts c with
      currentState := (s.contexts c).nextState.getD (s.contexts c).currentState } := by
    rw [← hs₁]
    rfl
  have hheld : s₁.held = s.held := by
    rw [← hs₁]
    exact State.held_transition _ c
  have hdata : ∀ d, s.SameData s₁ d := by
    intro d
    rw [← hs₁]
    cases d <;> rfl
  have hframe : s₁.blocks = s.blocks ∧ s₁.allocator = s.allocator ∧ s₁.root = s.root
      ∧ s₁.depth = s.depth := by
    rw [← hs₁]
    exact ⟨rfl, rfl, rfl, rfl⟩
  obtain ⟨hb, ha, hr, hd⟩ := hframe
  have hshared : Shared cap s₁ ph g none := by
    refine Shared.park (c := c) ((h.shared.unpark c).self hb ha hr hd hheld (fun d hd => ?_)) ?_
    · refine ⟨hdata d, ?_, rfl⟩
      rw [hcontexts, Function.update_of_ne hd]
    · refine (h.shared.know c nofun).io hph (g.world_congr hb hr hd hheld) (hdata c) ?_ ?_
      · rw [hcontexts, Function.update_self]
      · rw [hcontexts, Function.update_self]
  exact hshared.congr rfl rfl rfl rfl rfl (fun d _ => ⟨by cases d <;> rfl, rfl, rfl⟩)

/-! ## §4. Steps and runs. -/

/-- A step that leaves the ghost and the waiting searches alone. -/
theorem Goes.intro (h : Good cap q m₀ s' ph' g) (hp : Prompt false s') :
    Goes cap q m₀ s ph g s' := ⟨ph', g, h, hp, .inl⟩

/-- A client changes the requests. -/
theorem Good.client {submitting requestQueue : List (Request K V)} {pendingRequest : Int}
    {flag : Bool} {nextId : Nat} {log : List (LogEvent K V)} (h : Good cap q m₀ s ph g)
    (hrequests : State.Requests q { s with
      submitting := submitting, requestQueue := requestQueue, pendingRequest := pendingRequest
      workingThreadTerminateFlag := flag, nextId := nextId, log := log } ph)
    (hledger : Ledger m₀ log g) :
    Good cap q m₀ { s with
      submitting := submitting, requestQueue := requestQueue, pendingRequest := pendingRequest
      workingThreadTerminateFlag := flag, nextId := nextId, log := log } ph g := by
  refine ⟨⟨h.books.placed.client _ _ _ _ _ _ _, hrequests⟩, ?_, hledger⟩
  exact h.shared.congr rfl rfl rfl rfl rfl (fun d _ => ⟨by cases d <;> rfl, rfl, rfl⟩)

/-- **Every step that is possible succeeds**, and what is reached is as it should be. -/
theorem step_fine (hcap : 2 ≤ cap) (h : Good cap q m₀ s ph g) (hprompt : Prompt false s)
    {a : Action K V} {r : Except Fault (State K V)} (hstep : step cap false s a = some r) :
    ∃ s', r = .ok s' ∧ Goes cap q m₀ s ph g s' := by
  cases a with
  | submit op cbF semaphore ownership =>
      cases hstep
      refine ⟨_, rfl, .intro (h.client (h.books.requests.submit ?_) (h.ledger.other rfl (by simp)))
        (hprompt.congr rfl rfl)⟩
      cases op <;> rfl
  | push n =>
      simp only [step] at hstep
      split at hstep
      · cases hstep
      · next r hn =>
          split at hstep
          · cases hstep
            exact ⟨_, rfl, .intro (h.client (h.books.requests.push hn) h.ledger)
              (hprompt.congr rfl rfl)⟩
          · cases hstep
  | admission =>
      simp only [step] at hstep
      split at hstep
      · cases hstep
      · next hslots =>
          split at hstep
          · cases hstep
          · next r queue hqueue =>
              cases hstep
              cases r with
              | search r =>
                  obtain ⟨s', c, ph', hok, hgood, hadm⟩ := h.admitSearch hslots hqueue
                  exact ⟨s', hok, .intro hgood (hprompt.congr hadm.barriers hadm.pendingIo)⟩
              | insert r =>
                  obtain ⟨s', c, ph', hok, hgood, hadm⟩ := h.admitInsert hslots hqueue
                  exact ⟨s', hok, .intro hgood (hprompt.congr hadm.barriers hadm.pendingIo)⟩
  | run list n =>
      simp only [step] at hstep
      split at hstep
      · cases hstep
      · next c s₁ htake =>
          cases hstep
          obtain ⟨ph₁, hdriven, hwait, hroot, hb, hio⟩ := h.takeReady htake
          have hrank : rank s₁ c < runFuel := by
            have := rank_le s₁ c
            unfold runFuel
            omega
          obtain ⟨s', hrun, ph', g', hgood, hprompt', hspares⟩ :=
            runContext_fine hcap hdriven (hprompt.congr hb hio) hrank
          refine ⟨s', hrun, ph', g', hgood, hprompt', fun hl => ?_⟩
          exact (hspares hl).imp_right fun hnew => ⟨hroot ▸ hnew.1, hwait hnew.2⟩
  | effect n =>
      -- without delay, every I/O takes effect when it is submitted
      simp only [step] at hstep
      split at hstep
      · cases hstep
      · next io hn =>
          rw [hprompt.applied rfl io (List.mem_of_getElem? hn), if_pos rfl] at hstep
          cases hstep
  | complete n =>
      simp only [step] at hstep
      split at hstep
      · cases hstep
      · next io hn =>
          obtain ⟨hnext, hgood⟩ := h.complete hn
          rw [hprompt.applied rfl io (List.mem_of_getElem? hn), if_neg (by simp), if_neg hnext]
            at hstep
          cases hstep
          refine ⟨_, rfl, .intro hgood ⟨hprompt.blocked, fun hd io' hm => ?_⟩⟩
          exact hprompt.applied hd io' (List.mem_of_mem_eraseIdx hm)
  | terminate =>
      cases hstep
      exact ⟨_, rfl, .intro (h.client (h.books.requests.same
        (.of_eq rfl rfl rfl rfl rfl rfl rfl rfl) (fun _ => Iff.rfl)) h.ledger)
        (hprompt.congr rfl rfl)⟩

/-! ## §5. Every run from a stored tree. -/

section Start

variable {blocks : BlkAddress → Option (Block K V)} {allocator : Allocator} {root : BlkAddress}
  {depth : Nat}

/-- The invariant when the tree is opened. -/
theorem start_good (h : Stored cap blocks allocator root depth m₀) (q : Nat) :
    ∃ g, Good cap q m₀ (start q blocks allocator root depth) (fun _ => .free) g
      ∧ Prompt false (PullBasedBPlusTree.start q blocks allocator root depth) ∧ ¬ g.lost := by
  obtain ⟨G, κ, ht, hm, hfree⟩ := h.tree
  refine ⟨⟨_, G, m₀, fun _ => [], [], False⟩, ⟨start_books q blocks allocator root depth,
    ⟨⟨⟨κ, ht⟩, hm, ?_, fun _ _ => rfl⟩, h.blocks, h.allocator, fun x hx => ⟨hfree x hx, by simp⟩,
      nofun, nofun, fun _ => List.nodup_nil, fun c _ => ?_⟩, ⟨.nil, nofun, nofun, ?_⟩⟩, ⟨?_, nofun⟩,
      id⟩
  · -- nobody holds anything
    intro i j x hw
    have hnone : (PullBasedBPlusTree.start q blocks allocator root depth).mode (fun _ => []) i x
        = none := rfl
    cases hnone.symm.trans hw
  · cases c with
    | search i => exact ⟨rfl, fun hne => absurd rfl hne⟩
    | insert i => exact ⟨fun _ => ⟨rfl, rfl⟩, fun hne => absurd rfl hne⟩
  · intro _ pre post r v heq
    exact absurd heq (by simp [PullBasedBPlusTree.start])
  · exact fun x p hp => by simp [PullBasedBPlusTree.start, ContextBarrier.new] at hp

end Start

/-- **`init` stores the tree of the empty map.** -/
theorem init_stored (κ : K) : Stored cap (init q : State K V).blocks (init q : State K V).allocator
    (init q : State K V).root (init q : State K V).depth (fun _ => none) :=
  .single cap κ

/-- A search waits for its first barrier. -/
def State.SearchWaits (s : State K V) : Prop :=
  ∃ i, s.held (.search i) = [] ∧ (.search i ∈ s.admissionContexts
    ∨ ∃ x type, (.search i, type) ∈ (s.barriers x).pendingBarrierRequests)

omit [LinearOrder K] in
theorem Books.searchWaits (h : Books q s ph) (hw : Waiting s ph) : s.SearchWaits := by
  obtain ⟨i, hwaits, hnil⟩ := hw
  refine ⟨i, hnil, ?_⟩
  cases hph : ph (.search i) with
  | new =>
      left
      have hcount := h.placed.lists.admission (.search i)
      rw [hph, if_pos rfl] at hcount
      exact List.count_pos_iff.1 (by omega)
  | queued x type =>
      right
      have hcount := h.placed.lists.queue x (.search i) type
      rw [hph, if_pos rfl] at hcount
      exact ⟨x, type, List.count_pos_iff.1 (by rw [State.queues] at hcount; omega)⟩
  | free => rw [hph] at hwaits; cases hwaits
  | granted => rw [hph] at hwaits; cases hwaits
  | io n => rw [hph] at hwaits; cases hwaits

/-- No root is replaced while a search waits for its first barrier. -/
def Calm (cap : Nat) (deferred : Bool) : State K V → List (Action K V) → Prop
  | _, [] => True
  | s, a :: as =>
      match step cap deferred s a with
      | some (.ok s') => (s'.root ≠ s.root → ¬ s.SearchWaits) ∧ Calm cap deferred s' as
      | _ => True

/-- **The invariant after every run**; in a calm one no search is lost. -/
theorem run_sound (hcap : 2 ≤ cap) {as : List (Action K V)} (h : Good cap q m₀ s ph g)
    (hprompt : Prompt false s) (hrun : run cap false s as = some s') :
    ∃ ph' g', Good cap q m₀ s' ph' g' ∧ Prompt false s' ∧ (Calm cap false s as → g'.lost → g.lost) := by
  induction as generalizing s ph g with
  | nil =>
      cases hrun
      exact ⟨ph, g, h, hprompt, fun _ => id⟩
  | cons a as ih =>
      rw [run] at hrun
      split at hrun
      · next s₁ hstep =>
          obtain ⟨s₂, hok, ph₂, g₂, hgood, hprompt₂, hspares⟩ := step_fine hcap h hprompt hstep
          cases hok
          obtain ⟨ph', g', hgood', hprompt', hcalm⟩ := ih hgood hprompt₂ hrun
          refine ⟨ph', g', hgood', hprompt', fun hc hl => ?_⟩
          rw [Calm, hstep] at hc
          rcases hspares (hcalm hc.2 hl) with hl | ⟨hne, hw⟩
          · exact hl
          · exact absurd (h.books.searchWaits hw) (hc.1 hne)
      · cases hrun

/-! ## §6. The assertions hold. -/

/-- A search has at most two tokens. -/
theorem Know.tokens_le (h : Know cap s ph g (.search i)) (hctl : Ctl s ph (.search i)) :
    (s.held (.search i)).length ≤ 2 := by
  have hst := hctl.state
  cases hph : ph (.search i) with
  | free =>
      rw [hph] at hst
      have hnil : s.held (.search i) = [] := hst
      simp [hnil]
  | new =>
      obtain ⟨r, -, hk⟩ := h.2 (by rw [hph]; nofun)
      rw [hph] at hk
      have haim : SearchAim (g.world s) (.search i) r.key g.lost (s.held (.search i)) _ := hk
      have := haim.length
      omega
  | queued x type =>
      obtain ⟨r, -, hk⟩ := h.2 (by rw [hph]; nofun)
      rw [hph] at hk
      have haim : SearchAim (g.world s) (.search i) r.key g.lost (s.held (.search i)) _ := hk
      have := haim.length
      omega
  | granted =>
      obtain ⟨r, -, hk⟩ := h.2 (by rw [hph]; nofun)
      rw [hph] at hk
      obtain ⟨others, hlen, hat⟩ := hk
      have htokens : s.held (.search i) = _ := hat.tokens
      rw [htokens, List.length_cons]
      omega
  | io n =>
      obtain ⟨r, -, hk⟩ := h.2 (by rw [hph]; nofun)
      rw [hph] at hk
      have htokens : s.held (.search i) = _ := hk.1.tokens
      simp [htokens]

/-- An insert that has read a leaf is at level 1 and holds its write barrier. -/
theorem Good.reads_leaf (h : Good cap q m₀ s ph g) (hready : .insert i ∈ s.blkReadyContexts)
    (hst : (s.contexts (.insert i)).currentState = .s2) {leaf : LeafNode K V}
    (hbuffer : (s.inserts i).buffer.map Block.deserialize = some (.leaf leaf)) :
    (s.inserts i).currentNodeLevel = 1
      ∧ ∃ others, s.held (.insert i) = ⟨leaf.selfRep, .write⟩ :: others := by
  obtain ⟨n, hn⟩ := List.mem_iff_getElem?.1 hready
  obtain ⟨m, hph, hnext, -⟩ := h.books.takeBlk hn
  obtain ⟨r, -, hruns⟩ := (h.shared.know (.insert i) nofun).completed
    (h.books.placed.ctl (.insert i) nofun) hph hnext
  rw [hst] at hruns
  obtain ⟨-, node, b, -, hent, hb, hshows⟩ := hruns
  rw [hb, Option.map_some, Option.some.injEq] at hbuffer
  have hself : leaf.selfRep = node := by
    have hself := hshows.self
    rw [Block.selfRep, hbuffer] at hself
    exact hself
  have hshape := hshows.shape
  rw [Block.shape, hbuffer] at hshape
  rw [hself]
  exact hent.at_leaf h.shared.ok hshape

/-- **The assertions of the two state machines cannot fail.**  Every assertion of the
source, every `case` that could fall through and every `run` that would not return is
a `Fault` of the model; no step from a state that is reached has one. -/
theorem run_no_fault (hcap : 2 ≤ cap) (q : Nat) {blocks : BlkAddress → Option (Block K V)}
    {allocator : Allocator} {root : BlkAddress} {depth : Nat}
    (hstored : Stored cap blocks allocator root depth m₀) (as : List (Action K V)) (s : State K V)
    (hrun : run cap false (start q blocks allocator root depth) as = some s) :
    (∀ a f, step cap false s a ≠ some (.error f))
    ∧ (∀ i leaf, .insert i ∈ s.blkReadyContexts → (s.contexts (.insert i)).currentState = .s2 →
      (s.inserts i).buffer.map Block.deserialize = some (.leaf leaf) →
        (s.inserts i).currentNodeLevel = 1
          ∧ ∃ others, s.held (.insert i) = ⟨leaf.selfRep, .write⟩ :: others)
    ∧ ∀ i, (s.held (.search i)).length ≤ 2 := by
  obtain ⟨g₀, hgood₀, hprompt₀, -⟩ := start_good hstored q
  obtain ⟨ph, g, hgood, hprompt, -⟩ := run_sound hcap hgood₀ hprompt₀ hrun
  refine ⟨fun a f hstep => ?_, fun i leaf hr hst hb => hgood.reads_leaf hr hst hb, fun i => ?_⟩
  · obtain ⟨s', hok, -⟩ := step_fine hcap hgood hprompt hstep
    cases hok
  · exact (hgood.shared.know (.search i) nofun).tokens_le (hgood.books.placed.ctl _ nofun)

/-- The insert is about to enter state 2 with the leaf it has read. -/
theorem run_no_fault_insert :
    ∃ s, run 2 false (init 1) (insertStart ++ [.complete 0]) = some s
      ∧ (∀ a f, step 2 false s a ≠ some (.error f)) ∧ (s.inserts 0).currentNodeLevel = 1
      ∧ ∃ others, s.held (.insert 0) = ⟨0, .write⟩ :: others := by
  have hall := run_no_fault le_rfl 1 (init_stored (q := 1) 0) (insertStart ++ [.complete 0]) _ rfl
  have hleaf := hall.2.1 0 ⟨0, none, [], false⟩ (by decide) rfl rfl
  exact ⟨_, rfl, hall.1, hleaf.1, hleaf.2⟩

end PullBasedBPlusTree

end NvmTree
