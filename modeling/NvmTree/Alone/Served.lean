/-
  NvmTree.Alone.Served — a request of `pull_based_b_plus_tree` that is alone is served.

  Between two activations the worker can do only what the request waits for: an
  outstanding I/O takes effect or completes, or the context is run.  Each of these
  lowers the bound of `Parked`, so the request is served; and when it is, the blocks,
  the root and the height are those of the machine.

  Main results:
    * `Parked.next`   — every step that serves the request lowers the bound.
    * `insert_served` — the request is served, and then the store is the machine's.
-/
import NvmTree.Alone.Pull

namespace NvmTree

open RangeTree

namespace PullBasedBPlusTree

open Alone (Machine)

variable {K V : Type*}

section Steps

variable [LinearOrder K] {cap : Nat} {G : Plan K BlkAddress} {r : InsertRequest K V}
  {τ : Machine K V} {N i : Nat} {s s' : State K V} {deferred : Bool} {a : Action K V}
  {o : Except Fault (State K V)}

/-! ## §1. The steps that serve a request. -/

/-- All steps but a new request and the end of the worker. -/
def Action.Serves : Action K V → Prop
  | .submit _ _ _ _ => False
  | .terminate => False
  | _ => True

/-- Nothing is admitted from an empty queue. -/
theorem admission_none (cap : Nat) (deferred : Bool) (hqueue : s.requestQueue = []) :
    step cap deferred s .admission = none := by
  rw [step, hqueue]
  split
  · rfl
  · rfl

/-! ## §2. Between activations. -/

theorem Parked.lists (h : Parked cap G r τ i N s) : s.submitting = [] ∧ s.requestQueue = []
    ∧ s.admissionContexts = [] ∧ s.barrierReadyContexts = [] := by
  cases h with
  | reads solo => exact ⟨solo.submitting, solo.queue, solo.admission, solo.barrierReady⟩
  | writes solo => exact ⟨solo.submitting, solo.queue, solo.admission, solo.barrierReady⟩
  | served _ _ h₁ h₂ h₃ h₄ => exact ⟨h₁, h₂, h₃, h₄⟩

section Solo

variable {σ : Machine K V} {b : CallBackContext} {y : InsertContext K V} {m n : Nat}
  {ios : List (PendingIo K V)}

omit [LinearOrder K] in
/-- The context is taken off its ready list. -/
theorem Solo.takeReady (h : Solo i r σ b y (List.replicate m (.insert i)) ios s) {c : ContextId}
    (htake : s.takeReady n .blk = some (c, s')) :
    c = .insert i ∧ ∃ k, m = k + 1 ∧ Solo i r σ b y (List.replicate k (.insert i)) ios s' := by
  rw [State.takeReady, h.blkReady] at htake
  obtain ⟨c', hc', heq⟩ := Option.map_eq_some_iff.1 htake
  cases heq
  obtain ⟨hlt, hget⟩ := List.getElem?_eq_some_iff.1 hc'
  rw [List.length_replicate] at hlt
  rw [List.getElem_replicate] at hget
  obtain ⟨k, rfl⟩ : ∃ k, m = k + 1 := Nat.exists_eq_add_one.2 (by omega)
  have herase : (List.replicate (k + 1) (ContextId.insert i)).eraseIdx n
      = List.replicate k (.insert i) := by
    rw [List.eraseIdx_replicate, if_pos hlt, Nat.add_sub_cancel]
  exact ⟨hget.symm, k, rfl, { h with machine := h.machine, blkReady := herase }⟩

end Solo

/-- **A context that is ready** is run until it waits again. -/
theorem Parked.run (hcap : 2 ≤ cap) (h : Parked cap G r τ i N s) {list : ReadyList} {n : Nat}
    {c : ContextId} (htake : s.takeReady n list = some (c, s')) (deferred : Bool) :
    ∃ s'' N', runContext cap deferred c runFuel s' = .ok s'' ∧ N' < N
      ∧ Parked cap G r τ i N' s'' := by
  obtain ⟨-, -, hadmission, hbarrier⟩ := h.lists
  cases list with
  | admission =>
      rw [State.takeReady, hadmission] at htake
      cases htake
  | barrier =>
      rw [State.takeReady, hbarrier] at htake
      cases htake
  | blk =>
      suffices hactive : c = .insert i ∧ ∃ st, ∃ N' < N, Active cap G r τ i N' s' st by
        obtain ⟨rfl, st, N', hlt, hactive⟩ := hactive
        obtain ⟨s'', hrun, hparked⟩ := runContext_parked hcap deferred hactive (caseRank_lt st)
        exact ⟨s'', N', hrun, hlt, hparked⟩
      cases h with
      | reads solo down refer tokens above next ready read bound =>
          obtain ⟨rfl, k, rfl, hsolo⟩ := solo.takeReady htake
          obtain ⟨hone, rfl, hbuffer⟩ := read.resolve_right fun h => absurd h.1 (Nat.succ_ne_zero k)
          obtain rfl : k = 0 := Nat.succ.inj hone
          have hload : load ([] : List (PendingIo K V)) 1 = 1 := rfl
          rw [hload] at bound
          exact ⟨rfl, .s2, N - 1, by omega, .s2 hsolo (ready Nat.one_pos) down refer tokens above
            hbuffer (by omega)⟩
      | @writes σ b y st B M m ios solo landing landed next ready count left bound =>
          obtain ⟨rfl, k, rfl, hsolo⟩ := solo.takeReady htake
          have hload : load ios (k + 1) = load ios k + 1 := rfl
          have hstate := ready (Nat.succ_pos k)
          refine ⟨rfl, st, N - 1, by omega, ?_⟩
          by_cases hst : st = .s11
          · -- the new root was the only write
            subst hst
            have htarget := landed.2
            obtain rfl : k = 0 := by omega
            obtain rfl : ios = [] := List.eq_nil_of_length_eq_zero (by omega)
            refine .s11 hsolo hstate (landed.1.trans ?_)
            rw [← landing.eq]
          · exact .wrote hsolo hstate next landing landed hst (by omega) (by omega)
      | served _ _ _ _ _ _ hready _ =>
          rw [State.takeReady, hready] at htake
          cases htake

/-- An I/O takes effect. -/
theorem Parked.effect (h : Parked cap G r τ i N s) {n : Nat} {io : PendingIo K V}
    (hio : s.pendingIo[n]? = some io) (happ : io.applied = false) :
    ∃ N' < N, Parked cap G r τ i N' { s.apply io with
      pendingIo := s.pendingIo.modify n (fun io => { io with applied := true }) } := by
  cases h with
  | reads solo down refer tokens above next ready read bound =>
      rw [solo.pendingIo] at hio
      rcases read with ⟨-, rfl, -⟩ | ⟨rfl, applied, rfl, -⟩
      · cases hio
      · have hload := load_effect 0 hio happ
        cases n with
        | succ n => cases hio
        | zero =>
            cases hio
            refine ⟨N - 1, by omega, .reads (m := 0) (solo.effectRead 0 rfl rfl)
              (down.of_eq rfl rfl rfl rfl rfl id) refer tokens above next (by simp)
              (.inr ⟨rfl, true, rfl, fun _ => rfl⟩) (by omega)⟩
  | @writes σ b y st B M m ios solo landing landed next ready count left bound =>
      rw [solo.pendingIo] at hio
      obtain ⟨-, htype⟩ := landing.mine io (List.mem_of_getElem? hio)
      have hload := load_effect m hio happ
      refine ⟨N - 1, by omega, .writes (solo.effectWrite n htype) (landing.effect hio) landed next
        ready ?_ ?_ (by omega)⟩
      · rw [List.length_modify]
        exact count
      · rw [List.length_modify]
        exact left
  | served _ _ _ _ _ _ _ hios =>
      rw [hios] at hio
      cases hio

/-- An I/O is completed. -/
theorem Parked.complete (h : Parked cap G r τ i N s) {n : Nat} {io : PendingIo K V}
    (hio : s.pendingIo[n]? = some io) (happ : io.applied = true) :
    (s.contexts io.context).nextState ≠ none ∧ ∃ N' < N, Parked cap G r τ i N'
      { ({ s with pendingIo := s.pendingIo.eraseIdx n }.transition io.context) with
        blkReadyContexts := s.blkReadyContexts ++ [io.context] } := by
  cases h with
  | reads solo down refer tokens above next ready read bound =>
      rw [solo.pendingIo] at hio
      rcases read with ⟨-, rfl, -⟩ | ⟨rfl, applied, rfl, hbuffer⟩
      · cases hio
      · cases n with
        | succ n => cases hio
        | zero =>
            have hload : load ([] : List (PendingIo K V)) 1 + 1 = _ := load_complete 0 hio happ
            cases hio
            rw [solo.context, next]
            exact ⟨Option.some_ne_none _, N - 1, by omega, .reads (m := 1) (solo.complete 0 next)
              down refer tokens above next (fun _ => rfl) (.inl ⟨rfl, rfl, hbuffer happ⟩)
              (by dsimp only [List.eraseIdx]; omega)⟩
  | @writes σ b y st B M m ios solo landing landed next ready count left bound =>
      rw [solo.pendingIo] at hio
      obtain ⟨hmine, -⟩ := landing.mine io (List.mem_of_getElem? hio)
      have hload := load_complete m hio happ
      have hlength := List.length_eraseIdx_add_one (List.getElem?_eq_some_iff.1 hio).1
      have hsolo := solo.complete n next
      rw [← List.replicate_succ'] at hsolo
      rw [hmine, solo.context, next]
      exact ⟨Option.some_ne_none _, N - 1, by omega, .writes hsolo (landing.complete hio happ) landed
        next (fun _ => rfl) (by omega) (by omega) (by omega)⟩
  | served _ _ _ _ _ _ _ hios =>
      rw [hios] at hio
      cases hio

/-- **Every step that serves the request** lowers the bound, and none fails. -/
theorem Parked.next (hcap : 2 ≤ cap) (h : Parked cap G r τ i N s) (ha : a.Serves)
    (hs : step cap deferred s a = some o) :
    ∃ s' N', o = .ok s' ∧ N' < N ∧ Parked cap G r τ i N' s' := by
  obtain ⟨hsubmitting, hqueue, -⟩ := h.lists
  cases a with
  | submit op cbF semaphore ownership => exact ha.elim
  | terminate => exact ha.elim
  | push n =>
      rw [step, hsubmitting] at hs
      cases hs
  | admission => cases hs.symm.trans (admission_none cap deferred hqueue)
  | run list n =>
      rw [step] at hs
      split at hs
      · cases hs
      · next c s₁ htake =>
          cases hs
          exact h.run hcap htake deferred
  | effect n =>
      rw [step] at hs
      split at hs
      · cases hs
      · next io hio =>
          split at hs
          · cases hs
          · next happ =>
              cases hs
              obtain ⟨N', hlt, hparked⟩ := h.effect hio (Bool.eq_false_iff.2 happ)
              exact ⟨_, N', rfl, hlt, hparked⟩
  | complete n =>
      rw [step] at hs
      split at hs
      · cases hs
      · next io hio =>
          split at hs
          · cases hs
          · next happ =>
              obtain ⟨hnext, N', hlt, hparked⟩ := h.complete hio (by simpa using happ)
              rw [if_neg hnext] at hs
              cases hs
              exact ⟨_, N', rfl, hlt, hparked⟩

/-- There is something to wait for until the request is served. -/
theorem Parked.waits (h : Parked cap G r τ i N s) :
    .finishInsert r.id ∈ s.log ∨ s.blkReadyContexts ≠ [] ∨ s.pendingIo ≠ [] := by
  cases h with
  | reads solo _ _ _ _ _ _ read _ =>
      rw [solo.blkReady, solo.pendingIo]
      rcases read with ⟨rfl, -, -⟩ | ⟨-, applied, rfl, -⟩
      · exact .inr (.inl (List.cons_ne_nil _ _))
      · exact .inr (.inr (List.cons_ne_nil _ _))
  | @writes σ b y st B M m ios solo _ _ _ _ _ left _ =>
      rw [solo.blkReady, solo.pendingIo]
      cases m with
      | succ m => exact .inr (.inl (List.cons_ne_nil _ _))
      | zero => exact .inr (.inr (List.ne_nil_of_length_pos left))
  | served finished => exact .inl finished

/-- A ready context can be run, and an outstanding I/O takes effect or completes. -/
theorem exists_step (cap : Nat) (deferred : Bool) (h : s.blkReadyContexts ≠ [] ∨ s.pendingIo ≠ []) :
    ∃ a : Action K V, a.Serves ∧ (step cap deferred s a).isSome := by
  rcases h with h | h
  · obtain ⟨c, rest, hready⟩ := List.exists_cons_of_ne_nil h
    have htake : s.takeReady 0 .blk = some (c, { s with
        blkReadyContexts := s.blkReadyContexts.eraseIdx 0 }) := by
      rw [State.takeReady, hready]
      rfl
    refine ⟨.run .blk 0, trivial, ?_⟩
    rw [step, htake]
    rfl
  · obtain ⟨io, rest, hios⟩ := List.exists_cons_of_ne_nil h
    have hio : s.pendingIo[0]? = some io := by
      rw [hios]
      rfl
    by_cases happ : io.applied = true
    · refine ⟨.complete 0, trivial, ?_⟩
      rw [step, hio]
      dsimp only
      rw [if_neg (by simp [happ])]
      split
      · rfl
      · rfl
    · refine ⟨.effect 0, trivial, ?_⟩
      rw [step, hio]
      dsimp only
      rw [if_neg happ]
      rfl

/-! ## §3. From the request on. -/

section Stages

variable (cap : Nat) (G : Plan K BlkAddress) (r : InsertRequest K V) (τ : Machine K V) (q : Nat)
  (blocks : BlkAddress → Option (Block K V)) (allocator : Allocator) (root : BlkAddress) (depth : Nat)

/-- The request is counted, … -/
def afterSubmit : State K V :=
  { start q blocks allocator root depth with
    nextId := 1
    pendingRequest := 1
    submitting := [.insert r]
    log := [.submit (.insert r)] }

/-- … pushed, … -/
def afterPush : State K V :=
  { afterSubmit r q blocks allocator root depth with
    submitting := []
    requestQueue := [.insert r] }

/-- … and admitted. -/
def afterAdmission (free : List Nat) : State K V :=
  { initInsert { afterPush r q blocks allocator root depth with
      requestQueue := []
      freeContextSlots := (q : Int) - 1
      freeInsertContexts := free
      log := [.submit (.insert r), .admission (.insert r)] } 0 r with
    admissionContexts := [.insert 0] }

/-- How far the request is; `k` bounds what is left to do. -/
inductive Stage (N : Nat) : Nat → State K V → Prop
  | submitted : Stage N (N + 3) (afterSubmit r q blocks allocator root depth)
  | queued : Stage N (N + 2) (afterPush r q blocks allocator root depth)
  | admitted {free} : Stage N (N + 1) (afterAdmission r q blocks allocator root depth free)
  | parked {k s} (parked : Parked cap G r τ 0 k s) : Stage N k s

end Stages

variable {q n k : Nat} {blocks : BlkAddress → Option (Block K V)} {allocator : Allocator}
  {root : BlkAddress} {depth : Nat} {free : List Nat}

omit [LinearOrder K] in
theorem admitRequest_afterPush (r : InsertRequest K V)
    (blocks : BlkAddress → Option (Block K V)) (allocator : Allocator) (root : BlkAddress)
    (depth : Nat) (hq : 0 < q) : ∃ free,
    admitRequest (afterPush r q blocks allocator root depth) (.insert r) []
      = .ok (afterAdmission r q blocks allocator root depth free) := by
  obtain ⟨p, rfl⟩ : ∃ p, q = p + 1 := Nat.exists_eq_add_one.2 hq
  have hfree : List.range (p + 1) = 0 :: (List.range p).map Nat.succ := List.range_succ_eq_map
  refine ⟨(List.range p).map Nat.succ, ?_⟩
  unfold admitRequest
  dsimp only
  split
  · next hnil => cases hnil.symm.trans hfree
  · next i rest hcons =>
      cases hcons.symm.trans hfree
      rfl

/-- Every stage but the last has a step. -/
theorem Stage.exists_step (hq : 0 < q) (deferred : Bool)
    (h : Stage cap G r τ q blocks allocator root depth N k s) :
    .finishInsert r.id ∈ s.log ∨ ∃ a : Action K V, a.Serves ∧ (step cap deferred s a).isSome := by
  cases h with
  | submitted => exact .inr ⟨.push 0, trivial, rfl⟩
  | queued =>
      refine .inr ⟨.admission, trivial, ?_⟩
      have hslots : (afterPush r q blocks allocator root depth).freeContextSlots ≠ 0 := by
        have : (afterPush r q blocks allocator root depth).freeContextSlots = (q : Int) := rfl
        omega
      rw [step, if_neg hslots]
      rfl
  | admitted => exact .inr ⟨.run .admission 0, trivial, rfl⟩
  | parked h => exact h.waits.imp_right (PullBasedBPlusTree.exists_step cap deferred)

/-- When the request is served, the store is the machine's. -/
theorem Stage.machine (h : Stage cap G r τ q blocks allocator root depth N k s)
    (hfinished : .finishInsert r.id ∈ s.log) : s.machine = τ := by
  cases h with
  | submitted => simp [afterSubmit] at hfinished
  | queued => simp [afterPush, afterSubmit] at hfinished
  | admitted =>
      simp [afterAdmission, initInsert, State.setInsert, State.setContext] at hfinished
  | parked h =>
      cases h with
      | reads solo => exact absurd hfinished solo.log
      | writes solo => exact absurd hfinished solo.log
      | served _ ends => exact ends

section Served

variable
  (leads : Machine.Leads cap G r.key r.value τ n ⟨blocks, allocator, root, depth, .down root []⟩)
  (bound : 10 * (2 * n + 1) + 3 ≤ N)

include leads bound

/-- The context starts at the root. -/
theorem active_start :
    Active cap G r τ 0 N { afterAdmission r q blocks allocator root depth free with
      admissionContexts := [] } .s0 := by
  have hsolo : Solo 0 r ⟨blocks, allocator, root, depth, .done⟩ ⟨.s0, none, []⟩
      { (InsertContext.new : InsertContext K V) with
        request := some r
        nextVisitIsLeafNode := decide (depth = 1)
        currentNodeLevel := depth } [] [] { afterAdmission r q blocks allocator root depth free with
          admissionContexts := [] } :=
    { machine := rfl
      context := rfl
      data := rfl
      balanced := fun x => ⟨rfl, fun type => by cases type <;> rfl⟩
      submitting := rfl
      queue := rfl
      admission := rfl
      barrierReady := rfl
      blkReady := rfl
      pendingIo := rfl
      log := by simp [afterAdmission, initInsert, State.setInsert, State.setContext]
      request := rfl }
  have hdown := downward_root hsolo rfl rfl leads (M := 2 * n + 1) (by omega) (fun _ => by omega)
    (by simp [InsertContext.new, Unmodified])
  exact .s0 hsolo rfl hdown rfl (by simp [Above]) (by simp [InsertContext.new]) bound

variable (hcap : 2 ≤ cap) (hq : 0 < q)

include hcap hq

/-- **A step that serves the request** leads on, and none fails. -/
theorem Stage.next (h : Stage cap G r τ q blocks allocator root depth N k s) (ha : a.Serves)
    (hs : step cap deferred s a = some o) :
    ∃ s' k', o = .ok s' ∧ k' < k ∧ Stage cap G r τ q blocks allocator root depth N k' s' := by
  cases h with
  | parked h =>
      obtain ⟨s', k', ho, hlt, hparked⟩ := h.next hcap ha hs
      exact ⟨s', k', ho, hlt, .parked hparked⟩
  | submitted =>
      cases a with
      | submit op cbF semaphore ownership => exact ha.elim
      | terminate => exact ha.elim
      | push n =>
          cases n with
          | succ n => cases hs
          | zero =>
              cases hs
              exact ⟨_, N + 2, rfl, by omega, .queued⟩
      | admission => cases hs.symm.trans (admission_none cap deferred rfl)
      | run list n => cases list <;> cases hs
      | effect n => cases hs
      | complete n => cases hs
  | queued =>
      cases a with
      | submit op cbF semaphore ownership => exact ha.elim
      | terminate => exact ha.elim
      | push n => cases hs
      | admission =>
          obtain ⟨free, hadmit⟩ := admitRequest_afterPush r blocks allocator root depth hq
          rw [step] at hs
          split at hs
          · cases hs
          · cases hs
            exact ⟨_, N + 1, hadmit, by omega, .admitted⟩
      | run list n => cases list <;> cases hs
      | effect n => cases hs
      | complete n => cases hs
  | admitted =>
      cases a with
      | submit op cbF semaphore ownership => exact ha.elim
      | terminate => exact ha.elim
      | push n => cases hs
      | admission => cases hs.symm.trans (admission_none cap deferred rfl)
      | run list n =>
          cases list with
          | admission =>
              cases n with
              | succ n => cases hs
              | zero =>
                  cases hs
                  obtain ⟨s'', hrun, hparked⟩ := runContext_parked hcap deferred
                    (active_start leads bound) (caseRank_lt .s0)
                  exact ⟨s'', N, hrun, by omega, .parked hparked⟩
          | blk => cases hs
          | barrier => cases hs
      | effect n => cases hs
      | complete n => cases hs

/-- The request is served: by induction on the bound. -/
theorem Stage.served (deferred : Bool) (k : Nat) :
    ∀ {s : State K V}, Stage cap G r τ q blocks allocator root depth N k s →
      ∃ as s', (∀ a ∈ as, Action.Serves a) ∧ run cap deferred s as = some s'
        ∧ .finishInsert r.id ∈ s'.log := by
  induction k using Nat.strong_induction_on with
  | h k ih =>
      intro s h
      rcases h.exists_step hq deferred with hfinished | ⟨a, ha, hsome⟩
      · exact ⟨[], s, by simp, rfl, hfinished⟩
      · obtain ⟨o, hs⟩ := Option.isSome_iff_exists.1 hsome
        obtain ⟨s₁, k₁, rfl, hlt, h₁⟩ := h.next leads bound hcap hq ha hs
        obtain ⟨as, s', has, hrun, hfinished⟩ := ih k₁ hlt h₁
        refine ⟨a :: as, s', fun b hb => ?_, ?_, hfinished⟩
        · rcases List.mem_cons.1 hb with rfl | hb
          · exact ha
          · exact has b hb
        · rw [run, hs]
          exact hrun

/-- Every run keeps to the stages. -/
theorem Stage.run {as : List (Action K V)} :
    ∀ {k : Nat} {s : State K V}, Stage cap G r τ q blocks allocator root depth N k s →
      (∀ a ∈ as, a.Serves) → run cap deferred s as = some s' →
      ∃ k', Stage cap G r τ q blocks allocator root depth N k' s' := by
  induction as with
  | nil =>
      intro k s h _ hrun
      cases hrun
      exact ⟨k, h⟩
  | cons a as ih =>
      intro k s h has hrun
      rw [PullBasedBPlusTree.run] at hrun
      split at hrun
      · next s₁ hs =>
          obtain ⟨s₁', k₁, heq, -, h₁⟩ := h.next leads bound hcap hq (has a List.mem_cons_self) hs
          cases heq
          exact ih h₁ (fun b hb => has b (List.mem_cons_of_mem _ hb)) hrun
      · cases hrun

end Served

/-- **One insertion alone** is served, with and without delayed I/O, and whenever it is
the store is the end of the machine. -/
theorem insert_served (hcap : 2 ≤ cap) (hq : 0 < q) {key : K} {value : V}
    (leads : Machine.Leads cap G key value τ n ⟨blocks, allocator, root, depth, .down root []⟩)
    (deferred cbF semaphore ownership : Bool) :
    (∃ as s, (∀ a ∈ as, Action.Serves a)
        ∧ run cap deferred (start q blocks allocator root depth)
          (.submit (.insert key value) cbF semaphore ownership :: as) = some s
        ∧ .finishInsert 0 ∈ s.log)
      ∧ ∀ as s, (∀ a ∈ as, Action.Serves a) →
        run cap deferred (start q blocks allocator root depth)
          (.submit (.insert key value) cbF semaphore ownership :: as) = some s →
        .finishInsert 0 ∈ s.log → s.machine = τ := by
  have hsubmit : ∀ as, run cap deferred (start q blocks allocator root depth)
      (.submit (.insert key value) cbF semaphore ownership :: as)
      = run cap deferred (afterSubmit ⟨0, key, value, cbF, semaphore, ownership⟩ q blocks allocator
          root depth) as := fun _ => rfl
  have hstage : Stage cap G ⟨0, key, value, cbF, semaphore, ownership⟩ τ q blocks allocator root depth
      (10 * (2 * n + 1) + 3) _ _ := .submitted
  constructor
  · obtain ⟨as, s, has, hrun, hfinished⟩ := hstage.served leads le_rfl hcap hq deferred _
    exact ⟨as, s, has, (hsubmit as).trans hrun, hfinished⟩
  · intro as s has hrun hfinished
    obtain ⟨k, hend⟩ := hstage.run leads le_rfl hcap hq has ((hsubmit as).symm.trans hrun)
    exact hend.machine hfinished

end Steps

end PullBasedBPlusTree

end NvmTree
