/-
  NvmTree.Pull.Worker — the books stay in order from step to step.

  The worker takes a context from a list and runs it, admits a request or gets a
  completion; a client submits a request or pushes it to the queue.  Every step keeps
  the books, with or without delay of the I/O.

  Main results:
    * `run_tokens`   — the barriers are what the contexts hold.
    * `run_requests` — every request finishes at most once, and the contexts are
                       conserved.
-/
import NvmTree.Pull.Conserve

namespace NvmTree

open RangeTree

namespace PullBasedBPlusTree

variable {K V : Type*} {q : Nat} {s : State K V} {ph : ContextId → Phase} {c : ContextId}
  {i : Nat}

/-! ## §1. A context is run. -/

/-- A list without one of its elements. -/
theorem perm_eraseIdx {α : Type*} {l : List α} {n : Nat} {a : α} (h : l[n]? = some a) :
    l.Perm (a :: l.eraseIdx n) := by
  obtain ⟨hn, ha⟩ := List.getElem?_eq_some_iff.1 h
  rw [← ha]
  exact (List.getElem_cons_eraseIdx_perm hn).symm

/-- A context of the admission list starts to run. -/
theorem Books.takeAdmission {n : Nat} (h : Books q s ph)
    (hn : s.admissionContexts[n]? = some c) :
    ph c = .new ∧ Running q { s with admissionContexts := s.admissionContexts.eraseIdx n }
      (Function.update ph c (.io 0)) c := by
  have hperm := perm_eraseIdx hn
  have hph : ph c = .new := by
    have hcount := h.placed.lists.admission c
    rw [hperm.count_eq, List.count_cons_self] at hcount
    by_contra hne
    rw [if_neg hne] at hcount
    omega
  have hctl := h.placed.ctl c (by simp)
  have hst := hctl.state
  refine ⟨hph, ⟨?_, h.placed.tokens, fun d hd => ?_⟩, ?_, ?_, hctl.read⟩
  · refine h.placed.lists.reslot (.inr (.inl hph)) (.inr (.inr rfl))
      (fun _ => h.placed.lists.bound c (by simp [hph])) (fun d => ?_) (fun j => ?_) (fun j => ?_)
    · have hcount := h.placed.lists.admission d
      rw [hperm.count_eq, List.count_cons] at hcount
      by_cases hd : d = c
      · subst hd
        simp [hph] at hcount
        simp [hcount]
      · simp [Ne.symm hd] at hcount
        simp [hd, hcount]
    · refine (h.placed.lists.freeSearch j).trans ?_
      by_cases hj : ContextId.search j = c
      · simp [hj, hph]
      · simp [hj]
    · refine (h.placed.lists.freeInsert j).trans ?_
      by_cases hj : ContextId.insert j = c
      · simp [hj, hph]
      · simp [hj]
  · have hdc : d ≠ c := fun hc => hd (by rw [hc])
    exact (h.placed.ctl d (by simp)).congr ⟨rfl, by cases d <;> rfl⟩ (Function.update_of_ne hdc _ _) id
  · exact h.requests.same (.of_eq rfl rfl rfl rfl rfl rfl rfl rfl)
      (free_update (by simp [hph]) (by simp))
  · rw [hph] at hst
    cases c with
    | search i => exact Function.update_self ..
    | insert i =>
        simp only [InsertCtl] at hst
        simp [InsertRun, hst.1]

/-- A context that got its barrier goes on. -/
theorem Books.takeBarrier {n : Nat} (h : Books q s ph)
    (hn : s.barrierReadyContexts[n]? = some c) :
    ph c = .granted
      ∧ Running q { s with barrierReadyContexts := s.barrierReadyContexts.eraseIdx n }
        (Function.update ph c (.io 0)) c := by
  have hperm := perm_eraseIdx hn
  have hph : ph c = .granted := by
    have hcount := h.placed.lists.barrier c
    rw [hperm.count_eq, List.count_cons_self] at hcount
    by_contra hne
    rw [if_neg hne] at hcount
    omega
  have hctl := h.placed.ctl c (by simp)
  have hst := hctl.state
  refine ⟨hph, ⟨?_, h.placed.tokens, fun d hd => ?_⟩, ?_, ?_, hctl.read⟩
  · refine h.placed.lists.requeue (by simp [hph]) (by simp) (by simp [hph, Phase.ios])
      (fun d => ?_) (fun y d t => ?_)
    · have hcount := h.placed.lists.barrier d
      rw [hperm.count_eq, List.count_cons] at hcount
      by_cases hd : d = c
      · subst hd
        simp [hph] at hcount
        simp [hcount]
      · simp [Ne.symm hd] at hcount
        simp [hd, hcount]
    · refine (h.placed.lists.queue y d t).trans ?_
      by_cases hd : d = c
      · simp [hd, hph]
      · simp [hd]
  · have hdc : d ≠ c := fun hc => hd (by rw [hc])
    exact (h.placed.ctl d (by simp)).congr ⟨rfl, by cases d <;> rfl⟩ (Function.update_of_ne hdc _ _) id
  · exact h.requests.same (.of_eq rfl rfl rfl rfl rfl rfl rfl rfl)
      (free_update (by simp [hph]) (by simp))
  · rw [hph] at hst
    cases c with
    | search i => exact Function.update_self ..
    | insert i =>
        simp only [InsertCtl] at hst
        simp [InsertRun, hst]

/-- A context with a completion goes on. -/
theorem Books.takeBlk {n : Nat} (h : Books q s ph) (hn : s.blkReadyContexts[n]? = some c) :
    ∃ m, ph c = .io (m + 1) ∧ (s.contexts c).nextState = some (s.contexts c).currentState
      ∧ Running q { s with blkReadyContexts := s.blkReadyContexts.eraseIdx n }
        (Function.update ph c (.io m)) c := by
  have hperm := perm_eraseIdx hn
  have hmem : c ∈ s.blkReadyContexts := hperm.mem_iff.2 List.mem_cons_self
  have hph : ∃ m, ph c = .io (m + 1) := by
    have hcount := h.placed.lists.io c
    rw [hperm.count_eq, List.count_cons_self] at hcount
    cases hp : ph c <;> rw [hp] at hcount <;> simp only [Phase.ios] at hcount
    case io m =>
      exact ⟨m - 1, by congr 1; omega⟩
    all_goals omega
  obtain ⟨m, hph⟩ := hph
  have hctl := h.placed.ctl c (by simp)
  have hst := hctl.state
  have hready := hctl.ready hmem
  refine ⟨m, hph, hready, ⟨?_, h.placed.tokens, fun d hd => ?_⟩, ?_, ?_, hctl.read⟩
  · refine h.placed.lists.recount hph (fun d => ?_)
    have hcount := h.placed.lists.io d
    rw [hperm.count_eq, List.count_cons] at hcount
    by_cases hd : d = c
    · subst hd
      rw [hph] at hcount
      simp [Phase.ios] at hcount
      simp only [Function.update_self, Phase.ios]
      change (s.blkReadyContexts.eraseIdx n).count d + s.ioContexts.count d = m
      omega
    · simp [Ne.symm hd] at hcount
      simp only [Function.update_of_ne hd]
      exact hcount
  · have hdc : d ≠ c := fun hc => hd (by rw [hc])
    exact (h.placed.ctl d (by simp)).congr ⟨rfl, by cases d <;> rfl⟩ (Function.update_of_ne hdc _ _)
      (fun hm => List.mem_of_mem_eraseIdx hm)
  · exact h.requests.same (.of_eq rfl rfl rfl rfl rfl rfl rfl rfl)
      (free_update (by simp [hph]) (by simp))
  · rw [hph] at hst
    cases c with
    | search i =>
        simp only [SearchCtl] at hst
        have hm : m = 0 := by omega
        exact (Function.update_self ..).trans (by rw [hm])
    | insert i =>
        simp only [InsertCtl] at hst
        simp only [InsertRun, Function.update_self]
        rcases hst with ⟨h1, h2⟩ | ⟨h1, _, h3⟩ | ⟨h1, h2⟩
        · have hcur := Option.some.inj (hready.symm.trans h1)
          rw [hcur, if_neg (by simp)]
          omega
        · have hcur : (s.contexts (.insert i)).currentState = .s10
              ∨ (s.contexts (.insert i)).currentState = .s12 := by
            rw [hready] at h1
            simpa using h1
          rw [if_pos hcur]
          exact ⟨hready, by omega⟩
        · have hcur := Option.some.inj (hready.symm.trans h1)
          rw [hcur, if_neg (by simp)]
          omega

theorem Books.takeReady {n : Nat} {list : ReadyList} {s' : State K V} (h : Books q s ph)
    (htake : s.takeReady n list = some (c, s')) : ∃ ph', Running q s' ph' c := by
  cases list with
  | admission =>
      obtain ⟨d, hn, heq⟩ := Option.map_eq_some_iff.1 htake
      cases heq
      exact ⟨_, (h.takeAdmission hn).2⟩
  | blk =>
      obtain ⟨d, hn, heq⟩ := Option.map_eq_some_iff.1 htake
      cases heq
      obtain ⟨m, -, -, hrun⟩ := h.takeBlk hn
      exact ⟨_, hrun⟩
  | barrier =>
      obtain ⟨d, hn, heq⟩ := Option.map_eq_some_iff.1 htake
      cases heq
      exact ⟨_, (h.takeBarrier hn).2⟩

/-- **An I/O completes**: its context is ready. -/
theorem Books.complete {n : Nat} {io : PendingIo K V} (h : Books q s ph)
    (hn : s.pendingIo[n]? = some io) :
    (∃ m, ph io.context = .io m) ∧ (s.contexts io.context).nextState ≠ none
      ∧ Books q { ({ s with pendingIo := s.pendingIo.eraseIdx n } : State K V).transition
          io.context with blkReadyContexts := s.blkReadyContexts ++ [io.context] } ph := by
  generalize hc : io.context = c
  have hperm : s.ioContexts.Perm (c :: (s.pendingIo.eraseIdx n).map PendingIo.context) := by
    have := (perm_eraseIdx hn).map PendingIo.context
    rwa [List.map_cons, hc] at this
  have hph : ∃ m, ph c = .io m := by
    have hcount := h.placed.lists.io c
    rw [hperm.count_eq, List.count_cons_self] at hcount
    cases hp : ph c <;> rw [hp] at hcount <;> simp only [Phase.ios] at hcount
    case io m => exact ⟨m, rfl⟩
    all_goals omega
  obtain ⟨m, hph⟩ := hph
  have hctl := h.placed.ctl c (by simp)
  have hst := hctl.state
  rw [hph] at hst
  have hnext : ∃ st, (s.contexts c).nextState = some st := by
    cases c with
    | search i => exact ⟨_, hst.1⟩
    | insert i => rcases hst with ⟨h1, _⟩ | ⟨h1 | h1, _⟩ | ⟨h1, _⟩ <;> exact ⟨_, h1⟩
  obtain ⟨st, hnext⟩ := hnext
  refine ⟨⟨m, hph⟩, by simp [hnext], ⟨?_, ?_, fun d _ => ?_⟩, ?_⟩
  · refine ⟨h.placed.lists.admission, h.placed.lists.barrier, fun d => ?_, h.placed.lists.queue,
      h.placed.lists.freeSearch, h.placed.lists.freeInsert, h.placed.lists.bound⟩
    have hcount := h.placed.lists.io d
    rw [hperm.count_eq, List.count_cons] at hcount
    change (s.blkReadyContexts ++ [c]).count d
      + ((s.pendingIo.eraseIdx n).map PendingIo.context).count d = _
    rw [List.count_append, List.count_singleton]
    omega
  · have hheld : (({ s with pendingIo := s.pendingIo.eraseIdx n } : State K V).transition c).held
        = s.held := State.held_setContext _ rfl
    exact hheld ▸ h.placed.tokens
  · by_cases hd : d = c
    · subst hd
      have hself : ((({ s with pendingIo := s.pendingIo.eraseIdx n } : State K V).transition
          d).contexts d) = { s.contexts d with currentState := st } := by
        simp [State.transition, State.setContext, hnext]
      refine ⟨?_, fun _ => ?_, ?_⟩
      · cases d with
        | search i =>
            simp only [hself, hph]
            exact hst
        | insert i =>
            simp only [hself, hph]
            exact hst
      · simp only [hself, hnext]
      · simp only [hself]
        exact hctl.read
    · refine (h.placed.ctl d (by simp)).congr ⟨Function.update_of_ne hd _ _, by cases d <;> rfl⟩ rfl ?_
      intro hm
      rcases List.mem_append.1 hm with hm | hm
      · exact hm
      · exact absurd (List.mem_singleton.1 hm) hd
  · exact h.requests.same (.of_eq rfl rfl rfl rfl rfl rfl rfl rfl) (fun _ => Iff.rfl)

/-- A read or write takes effect. -/
theorem Books.effect {n : Nat} (h : Books q s ph) (io : PendingIo K V) :
    Books q { s.apply io with
      pendingIo := s.pendingIo.modify n (fun io => { io with applied := true }) } ph := by
  have hp := h.placed.apply io
  have hpending : (s.apply io).pendingIo = s.pendingIo := by
    unfold State.apply
    split
    · cases io.context <;> rfl
    · rfl
  have hmap : (s.pendingIo.modify n (fun io => { io with applied := true })).map PendingIo.context
      = s.pendingIo.map PendingIo.context := by
    apply List.ext_getElem?
    intro j
    simp only [List.getElem?_map, List.getElem?_modify]
    cases s.pendingIo[j]? with
    | none => rfl
    | some io' => by_cases hj : n = j <;> simp [hj]
  refine ⟨⟨?_, hp.tokens, fun d hd => ?_⟩, ?_⟩
  · have hl := hp.lists
    unfold State.ioContexts at hl ⊢
    rw [hpending] at hl
    rw [hmap]
    exact hl
  · exact (hp.ctl d hd).congr ⟨rfl, by cases d <;> rfl⟩ rfl id
  · exact h.requests.same ((State.SameRequests.apply s io).trans
      (.of_eq rfl rfl rfl rfl rfl rfl rfl rfl)) (fun _ => Iff.rfl)

/-! ## §2. Requests come in. -/

section Clients

variable {request request' : ContextId → Option (Request K V)} {ph' : ContextId → Phase}
  {submitting queue : List (Request K V)} {pending slots : Int} {nextId : Nat}
  {log : List (LogEvent K V)}

/-- **A request is submitted**, with a number no other has. -/
theorem Requests.submit (h : Requests q request submitting queue pending slots nextId log ph)
    {r : Request K V} (hid : r.id = nextId) :
    Requests q request (submitting ++ [r]) queue (pending + 1) slots (nextId + 1)
      (log ++ [.submit r]) ph := by
  have hsub : submitted (log ++ [LogEvent.submit r]) = submitted log ++ [r] := by
    simp [submitted, LogEvent.asSubmit]
  have hadm : admitted (log ++ [LogEvent.submit r]) = admitted log := by
    simp [admitted, LogEvent.asAdmission]
  have hfin : ∀ id, (log ++ [LogEvent.submit r]).countP (LogEvent.finishes id)
      = log.countP (LogEvent.finishes id) := by
    intro id
    simp [List.countP_append, LogEvent.finishes]
  have hfin' : finishCount (log ++ [LogEvent.submit r]) = finishCount log :=
    funext fun r' => hfin r'.id
  have hcall : ∀ id, (log ++ [LogEvent.submit r]).countP (LogEvent.isCallback id)
      = log.countP (LogEvent.isCallback id) := by
    intro id
    simp [List.countP_append, LogEvent.isCallback]
  have hrel : ∀ id, (log ++ [LogEvent.submit r]).countP (LogEvent.isRelease id)
      = log.countP (LogEvent.isRelease id) := by
    intro id
    simp [List.countP_append, LogEvent.isRelease]
  -- the new number is not in the log yet
  have hzero : finishCount log r = 0 := by
    have hc := h.conserve r.id
    rw [if_neg (by omega)] at hc
    unfold finishCount
    omega
  have hknown := h.known r.id (by omega)
  refine ⟨fun c hc => ?_, fun r' hm => ?_, fun r' => ?_, h.slots_eq, h.slots_nonneg, ?_,
    fun id => ?_, fun r' hm => ?_, ?_, hadm ▸ h.admittedIds, ?_, ?_, ?_, fun r' hm => ?_,
    fun r' hm => ?_, fun id hid' => ?_⟩
  · obtain ⟨r', h1, h2, h3⟩ := h.active c hc
    rw [hsub, hadm]
    exact ⟨r', h1, List.mem_append_left _ h2, h3⟩
  · rw [hsub]
    simp only [List.mem_append, List.mem_singleton] at hm ⊢
    rcases hm with (hm | hm) | hm
    · exact .inl (h.waiting r' (List.mem_append_left _ hm))
    · exact .inr hm
    · exact .inl (h.waiting r' (List.mem_append_right _ hm))
  · have ht := h.traced r'
    rw [List.mem_append] at ht
    rw [hsub, hadm]
    simp only [List.mem_append, List.mem_singleton, ht]
    grind
  · have hp := h.pending_eq
    rw [List.length_append, List.length_singleton]
    push_cast
    omega
  · rw [hfin, List.countP_append, List.countP_singleton]
    have hc := h.conserve id
    by_cases he : r.id = id
    · rw [if_neg (by omega)] at hc
      rw [if_pos (by simpa using he), if_pos (by omega)]
      omega
    · rw [if_neg (by simpa using he)]
      by_cases hlt : id < nextId
      · rw [if_pos hlt] at hc
        rw [if_pos (by omega)]
        omega
      · rw [if_neg hlt] at hc
        rw [if_neg (by omega)]
        omega
  · rw [hsub, List.mem_append, List.mem_singleton] at hm
    rcases hm with hm | rfl
    · have hlt := h.fresh r' hm
      omega
    · omega
  · rw [hsub, List.map_append, List.map_cons, List.map_nil, ← List.concat_eq_append]
    refine h.ids.concat (fun hm => ?_)
    obtain ⟨r', hm', he⟩ := List.mem_map.1 hm
    have hlt := h.fresh r' hm'
    omega
  · rw [hadm, hfin']
    exact h.served
  · have hu := h.unfinished_eq
    rw [unfinished, hsub, hfin', List.filter_append]
    rw [unfinished] at hu
    simp only [List.filter_cons, List.filter_nil, hzero, decide_true, if_true, List.length_append,
      List.length_singleton]
    push_cast
    omega
  · rw [inProgress, hadm, hfin']
    exact h.inProgress_eq
  · rw [hcall, hfin']
    rw [hsub, List.mem_append, List.mem_singleton] at hm
    rcases hm with hm | rfl
    · exact h.callback r' hm
    · rw [hzero, hknown.1]
      simp
  · rw [hrel, hfin']
    rw [hsub, List.mem_append, List.mem_singleton] at hm
    rcases hm with hm | rfl
    · exact h.semaphore r' hm
    · rw [hzero, hknown.2]
      simp
  · rw [hcall, hrel]
    exact h.known id (by omega)

/-- A request gets into the queue. -/
theorem Requests.push (h : Requests q request submitting queue pending slots nextId log ph)
    {n : Nat} {r : Request K V} (hn : submitting[n]? = some r) :
    Requests q request (submitting.eraseIdx n) (queue ++ [r]) pending slots nextId log ph := by
  have hperm := perm_eraseIdx hn
  refine ⟨h.active, fun r' hm => h.waiting r' ?_, fun r' => ?_, h.slots_eq, h.slots_nonneg, ?_,
    fun id => ?_, h.fresh, h.ids, h.admittedIds, h.served, h.unfinished_eq, h.inProgress_eq, h.callback,
    h.semaphore, h.known⟩
  · simp only [List.mem_append, List.mem_singleton] at hm ⊢
    rw [hperm.mem_iff, List.mem_cons]
    rcases hm with hm | hm | hm
    · exact .inl (.inr hm)
    · exact .inr hm
    · exact .inl (.inl hm)
  · have ht := h.traced r'
    rw [List.mem_append, hperm.mem_iff, List.mem_cons] at ht
    simp only [List.mem_append, List.mem_singleton, ht]
    grind
  · have hp := h.pending_eq
    rw [hperm.length_eq, List.length_cons] at hp
    rw [List.length_append, List.length_singleton]
    push_cast at hp ⊢
    omega
  · have hc := h.conserve id
    rw [hperm.countP_eq, List.countP_cons] at hc
    rw [List.countP_append, List.countP_singleton]
    omega

/-- **A request is admitted** by a context that was free. -/
theorem Requests.admission {r : Request K V}
    (h : Requests q request submitting (r :: queue) pending slots nextId log ph) (hslots : slots ≠ 0)
    (hc : c.index < q) (hold : ph c = .free) (hnew : ph' c ≠ .free) (hr : request' c = some r)
    (hother : ∀ d, d ≠ c → (ph' d = .free ↔ ph d = .free) ∧ request' d = request d) :
    Requests q request' submitting queue pending (slots - 1) nextId (log ++ [.admission r]) ph' := by
  have hactive := activeCount_succ hc hold hnew (fun d hd => (hother d hd).1)
  have hserving := servingCount_succ hc hold hnew hr hother
  have hsub : submitted (log ++ [LogEvent.admission r]) = submitted log := by
    simp [submitted, LogEvent.asSubmit]
  have hadm : admitted (log ++ [LogEvent.admission r]) = admitted log ++ [r] := by
    simp [admitted, LogEvent.asAdmission]
  have hfin : ∀ id, (log ++ [LogEvent.admission r]).countP (LogEvent.finishes id)
      = log.countP (LogEvent.finishes id) := by
    intro id
    simp [List.countP_append, LogEvent.finishes]
  have hfin' : finishCount (log ++ [LogEvent.admission r]) = finishCount log :=
    funext fun r' => hfin r'.id
  have hlog : r ∈ submitted log := h.waiting r (by simp)
  -- it was in the queue, so no context serves it and it has not finished
  have hqueued : servingCount q request ph r.id = 0 ∧ finishCount log r = 0 := by
    have hcons := h.conserve r.id
    rw [List.countP_cons, if_pos (by simp), if_pos (h.fresh r hlog)] at hcons
    unfold finishCount
    omega
  refine ⟨fun d hd => ?_, fun r' hm => ?_, fun r' => ?_, ?_, ?_, ?_, fun id => ?_, hsub ▸ h.fresh,
    hsub ▸ h.ids, ?_, fun r' hm => ?_, ?_, ?_, fun r' hm => ?_, fun r' hm => ?_, fun id hid => ?_⟩
  · rw [hsub, hadm]
    by_cases hdc : d = c
    · subst hdc
      exact ⟨r, hr, hlog, by simp⟩
    · obtain ⟨r', h1, h2, h3⟩ := h.active d (fun hf => hd ((hother d hdc).1.2 hf))
      exact ⟨r', (hother d hdc).2.trans h1, h2, List.mem_append_left _ h3⟩
  · rw [hsub]
    refine h.waiting r' ?_
    simp only [List.mem_append, List.mem_cons] at hm ⊢
    rcases hm with hm | hm
    · exact .inl hm
    · exact .inr (.inr hm)
  · have ht := h.traced r'
    rw [List.mem_append, List.mem_cons] at ht
    rw [hsub, hadm]
    simp only [List.mem_append, List.mem_singleton, ht]
    grind
  · have hs := h.slots_eq
    omega
  · have hs := h.slots_nonneg
    omega
  · have hp := h.pending_eq
    rw [List.length_cons] at hp
    push_cast at hp
    omega
  · have hcons := h.conserve id
    rw [List.countP_cons] at hcons
    simp only [decide_eq_true_eq] at hcons
    rw [hserving id, hfin]
    omega
  · rw [hadm, List.map_append, List.map_cons, List.map_nil, ← List.concat_eq_append]
    refine h.admittedIds.concat (fun hm => ?_)
    obtain ⟨r', hm', he⟩ := List.mem_map.1 hm
    have hone := h.served r' hm'
    unfold finishCount at hone hqueued
    rw [he] at hone
    omega
  · rw [hfin', hserving r'.id]
    rw [hadm, List.mem_append, List.mem_singleton] at hm
    rcases hm with hm | rfl
    · have hone := h.served r' hm
      omega
    · rw [if_pos rfl]
      omega
  · rw [unfinished, hsub, hfin']
    exact h.unfinished_eq
  · have hu := h.inProgress_eq
    rw [inProgress, hadm, hfin', List.filter_append]
    rw [inProgress] at hu
    simp only [List.filter_cons, List.filter_nil, hqueued.2, decide_true, if_true,
      List.length_append, List.length_singleton]
    push_cast
    omega
  · rw [hsub] at hm
    have hcb := h.callback r' hm
    rw [hfin']
    simpa [List.countP_append, LogEvent.isCallback] using hcb
  · rw [hsub] at hm
    have hsem := h.semaphore r' hm
    rw [hfin']
    simpa [List.countP_append, LogEvent.isRelease] using hsem
  · have hk := h.known id hid
    simpa [List.countP_append, LogEvent.isRelease, LogEvent.isCallback] using hk

/-- While there is a slot, not all contexts made by `mk` are in use. -/
theorem Requests.exists_free (h : Requests q request submitting queue pending slots nextId log ph)
    (hslots : slots ≠ 0) {mk : Nat → ContextId} (hmk : Function.Injective mk)
    (hindex : ∀ i, (mk i).index = i) : ∃ i, i < q ∧ ph (mk i) = .free := by
  by_contra hnone
  have hall : ∀ i, i < q → ph (mk i) ≠ .free := fun i hi hf => hnone ⟨i, hi, hf⟩
  have hle : ∑ c ∈ (Finset.range q).image mk, (if ph c = .free then 0 else 1)
      ≤ activeCount q ph := by
    refine Finset.sum_le_sum_of_subset (fun c hc => ?_)
    obtain ⟨i, hi, rfl⟩ := Finset.mem_image.1 hc
    rw [mem_allContexts, hindex]
    exact Finset.mem_range.1 hi
  have hsum : ∑ c ∈ (Finset.range q).image mk, (if ph c = .free then 0 else 1) = q := by
    rw [Finset.sum_image (fun a _ b _ hab => hmk hab)]
    rw [Finset.sum_congr rfl (fun i hi => if_neg (hall i (Finset.mem_range.1 hi)))]
    simp
  have h1 := h.slots_eq
  have h2 := h.slots_nonneg
  omega

end Clients

/-- **A free context is set up** for the request it is to serve. -/
theorem Placed.admitted (h : Placed q s ph none) (hph : ph c = .free) (hc : c.index < q)
    {fs fi : List Nat} {S : Nat → SearchContext K V} {I : Nat → InsertContext K V}
    (hfs : ∀ j, fs.count j
      = if Function.update ph c .new (.search j) = .free ∧ j < q then 1 else 0)
    (hfi : ∀ j, fi.count j
      = if Function.update ph c .new (.insert j) = .free ∧ j < q then 1 else 0)
    (hS : ∀ j, .search j ≠ c → S j = s.searches j)
    (hI : ∀ j, .insert j ≠ c → I j = s.inserts j) :
    Placed q { s.setContext c { s.contexts c with currentState := .s0, nextState := none } with
      searches := S
      inserts := I
      freeSearchContexts := fs
      freeInsertContexts := fi
      admissionContexts := s.admissionContexts ++ [c] } (Function.update ph c .new) none := by
  have hctl := h.ctl c nofun
  have hnil : (s.contexts c).obtainedBarriers = [] := by
    have hst := hctl.state
    rw [hph] at hst
    cases c <;> exact hst
  refine ⟨?_, ?_, fun d _ => ?_⟩
  · refine h.lists.reslot (.inl hph) (.inr (.inl rfl)) (fun _ => hc) (fun d => ?_) hfs hfi
    have hcount := h.lists.admission d
    rw [List.count_append, hcount, List.count_singleton]
    by_cases hd : d = c
    · simp [hd, hph]
    · simp [hd, Ne.symm hd]
  · have hheld : (s.setContext c { s.contexts c with
        currentState := .s0, nextState := none }).held = s.held := State.held_setContext _ rfl
    exact hheld ▸ h.tokens
  · by_cases hd : d = c
    · subst hd
      refine ⟨?_, fun hm => ?_, fun i hi t ht => ?_⟩
      · cases d with
        | search i => simp [SearchCtl, State.setContext, hnil]
        | insert i => simp [InsertCtl, State.setContext, hnil]
      · exact absurd hm (h.lists.not_ready (by simp [hph, Phase.ios]))
      · simp only [State.setContext, Function.update_self, hnil] at ht
        cases ht
    · refine (h.ctl d nofun).congr ⟨Function.update_of_ne hd _ _, ?_⟩ (Function.update_of_ne hd _ _)
        id
      cases d with
      | search j => exact hS j hd
      | insert j => exact hI j hd

/-- The stack of free contexts without its top. -/
theorem count_pop {fs : List Nat} {i : Nat} {rest : List Nat} {mk : Nat → ContextId}
    (hmk : Function.Injective mk) (hfs : fs = i :: rest)
    (hcount : ∀ j, fs.count j = if ph (mk j) = .free ∧ j < q then 1 else 0) :
    (ph (mk i) = .free ∧ i < q) ∧ ∀ j, rest.count j
      = if Function.update ph (mk i) .new (mk j) = .free ∧ j < q then 1 else 0 := by
  subst hfs
  have htop : ph (mk i) = .free ∧ i < q := by
    have hi := hcount i
    rw [List.count_cons_self] at hi
    by_contra hne
    rw [if_neg hne] at hi
    omega
  refine ⟨htop, fun j => ?_⟩
  have hj := hcount j
  rw [List.count_cons] at hj
  by_cases hij : j = i
  · subst hij
    rw [if_pos htop] at hj
    simp at hj
    simp [hj]
  · rw [Function.update_of_ne (fun he => hij (hmk he))]
    simpa [Ne.symm hij] using hj

theorem search_injective : Function.Injective ContextId.search := fun _ _ h =>
  ContextId.search.inj h

theorem insert_injective : Function.Injective ContextId.insert := fun _ _ h =>
  ContextId.insert.inj h

/-- A search is admitted by the context on top of the stack. -/
theorem Books.admitSearch {r : SearchRequest K} {queue : List (Request K V)} (h : Books q s ph)
    (hslots : s.freeContextSlots ≠ 0) (hqueue : s.requestQueue = .search r :: queue) :
    ∃ i rest s', s.freeSearchContexts = i :: rest ∧ ph (.search i) = .free
      ∧ admitRequest s (.search r) queue = .ok s'
      ∧ Books q s' (Function.update ph (.search i) .new) := by
  have hreq : Requests q s.request s.submitting (.search r :: queue) s.pendingRequest
      s.freeContextSlots s.nextId s.log ph := hqueue ▸ h.requests
  simp only [admitRequest, State.addLog]
  cases hfs : s.freeSearchContexts with
  | nil =>
      obtain ⟨i, hi, hf⟩ := hreq.exists_free hslots search_injective (fun _ => rfl)
      have hcount := h.placed.lists.freeSearch i
      rw [hfs, if_pos ⟨hf, hi⟩] at hcount
      cases hcount
  | cons i rest =>
      obtain ⟨⟨hf, hi⟩, hrest⟩ := count_pop search_injective hfs h.placed.lists.freeSearch
      refine ⟨i, rest, _, rfl, hf, rfl, ?_, ?_⟩
      · refine (h.placed.admitted (c := .search i) hf hi hrest (fun j => ?_)
          (S := Function.update s.searches i
            { s.searches i with request := some r, nodeRef := s.root })
          (I := s.inserts) (fun j hj => ?_) (fun _ _ => rfl)).client _ _ _ _ _ _ _
        · refine (h.placed.lists.freeInsert j).trans ?_
          simp
        · exact Function.update_of_ne (fun he => hj (by rw [he])) _ _
      · refine hreq.admission (c := .search i) hslots hi hf (by simp) ?_ (fun d hd => ⟨?_, ?_⟩)
        · simp [State.request, initSearch, State.setSearch, State.setContext]
        · rw [Function.update_of_ne hd]
        · cases d with
          | search j =>
              have hj : j ≠ i := fun hj => hd (by rw [hj])
              simp [State.request, initSearch, State.setSearch, State.setContext, hj]
          | insert j => rfl

/-- An insert is admitted by the context on top of the stack. -/
theorem Books.admitInsert {r : InsertRequest K V} {queue : List (Request K V)} (h : Books q s ph)
    (hslots : s.freeContextSlots ≠ 0) (hqueue : s.requestQueue = .insert r :: queue) :
    ∃ i rest s', s.freeInsertContexts = i :: rest ∧ ph (.insert i) = .free
      ∧ admitRequest s (.insert r) queue = .ok s'
      ∧ Books q s' (Function.update ph (.insert i) .new) := by
  have hreq : Requests q s.request s.submitting (.insert r :: queue) s.pendingRequest
      s.freeContextSlots s.nextId s.log ph := hqueue ▸ h.requests
  simp only [admitRequest, State.addLog]
  cases hfi : s.freeInsertContexts with
  | nil =>
      obtain ⟨i, hi, hf⟩ := hreq.exists_free hslots insert_injective (fun _ => rfl)
      have hcount := h.placed.lists.freeInsert i
      rw [hfi, if_pos ⟨hf, hi⟩] at hcount
      cases hcount
  | cons i rest =>
      obtain ⟨⟨hf, hi⟩, hrest⟩ := count_pop insert_injective hfi h.placed.lists.freeInsert
      refine ⟨i, rest, _, rfl, hf, rfl, ?_, ?_⟩
      · refine (h.placed.admitted (c := .insert i) hf hi (fun j => ?_) hrest
          (S := s.searches) (I := Function.update s.inserts i _) (fun _ _ => rfl)
          (fun j hj => ?_)).client _ _ _ _ _ _ _
        · refine (h.placed.lists.freeSearch j).trans ?_
          simp
        · exact Function.update_of_ne (fun he => hj (by rw [he])) _ _
      · refine hreq.admission (c := .insert i) hslots hi hf (by simp) ?_ (fun d hd => ⟨?_, ?_⟩)
        · simp [State.request, initInsert, State.setInsert, State.setContext]
        · rw [Function.update_of_ne hd]
        · cases d with
          | search j => rfl
          | insert j =>
              have hj : j ≠ i := fun hj => hd (by rw [hj])
              simp [State.request, initInsert, State.setInsert, State.setContext, hj]

/-- **Admission never fails**, and keeps the books. -/
theorem Books.admission {r : Request K V} {queue : List (Request K V)} (h : Books q s ph)
    (hslots : s.freeContextSlots ≠ 0) (hqueue : s.requestQueue = r :: queue) :
    ∃ s', admitRequest s r queue = .ok s' ∧ ∃ ph', Books q s' ph' := by
  cases r with
  | search r =>
      obtain ⟨i, rest, s', -, -, hok, hbooks⟩ := h.admitSearch hslots hqueue
      exact ⟨s', hok, _, hbooks⟩
  | insert r =>
      obtain ⟨i, rest, s', -, -, hok, hbooks⟩ := h.admitInsert hslots hqueue
      exact ⟨s', hok, _, hbooks⟩

section Steps

variable [LinearOrder K] {capacity : Nat} {deferred : Bool}

theorem ctxCase_keeps (h : Running q s ph c) : (ctxCase capacity deferred s c).Keeps q c := by
  cases c with
  | search i => exact searchCase_keeps deferred h
  | insert i => exact insertCase_keeps capacity deferred h

/-- **A `run` that does not fail leaves the books in order.** -/
theorem runContext_keeps {fuel : Nat} {s' : State K V} (h : Running q s ph c)
    (hrun : runContext capacity deferred c fuel s = .ok s') : ∃ ph', Books q s' ph' := by
  induction fuel generalizing s ph with
  | zero => cases hrun
  | succ fuel ih =>
      have hkeeps : (ctxCase capacity deferred s c).Keeps q c := ctxCase_keeps h
      rw [runContext] at hrun
      cases hcase : ctxCase capacity deferred s c with
      | again s₁ =>
          rw [hcase] at hrun hkeeps
          obtain ⟨ph₁, h₁⟩ := hkeeps
          exact ih h₁ hrun
      | stop s₁ =>
          rw [hcase] at hrun hkeeps
          cases hrun
          exact hkeeps
      | fault f =>
          rw [hcase] at hrun
          cases hrun

/-- **Every step keeps the books.** -/
theorem step_keeps {s' : State K V} {a : Action K V} (h : Books q s ph)
    (hstep : step capacity deferred s a = some (.ok s')) : ∃ ph', Books q s' ph' := by
  cases a with
  | submit op cbF semaphore ownership =>
      cases hstep
      refine ⟨ph, h.placed.client _ _ _ _ _ _ _, h.requests.submit ?_⟩
      cases op <;> rfl
  | push n =>
      simp only [step] at hstep
      split at hstep
      · cases hstep
      · next r hn =>
          split at hstep
          · cases hstep
            exact ⟨ph, h.placed.client _ _ _ _ _ _ _, h.requests.push hn⟩
          · cases hstep
  | admission =>
      simp only [step] at hstep
      split at hstep
      · cases hstep
      · next hslots =>
          split at hstep
          · cases hstep
          · next r queue hqueue =>
              obtain ⟨s₁, hok, hbooks⟩ := h.admission hslots hqueue
              rw [hok] at hstep
              cases hstep
              exact hbooks
  | run list n =>
      simp only [step] at hstep
      split at hstep
      · cases hstep
      · next c s₁ htake =>
          obtain ⟨ph₁, hrunning⟩ := h.takeReady htake
          exact runContext_keeps hrunning (Option.some.inj hstep)
  | effect n =>
      simp only [step] at hstep
      split at hstep
      · cases hstep
      · next io hn =>
          split at hstep
          · cases hstep
          · cases hstep
            exact ⟨ph, h.effect io⟩
  | complete n =>
      simp only [step] at hstep
      split at hstep
      · cases hstep
      · next io hn =>
          split at hstep
          · cases hstep
          · split at hstep
            · cases hstep
            · cases hstep
              exact ⟨ph, (h.complete hn).2.2⟩
  | terminate =>
      cases hstep
      exact ⟨ph, h.placed.client _ _ _ _ _ _ _,
        h.requests.same (.of_eq rfl rfl rfl rfl rfl rfl rfl rfl) (fun _ => Iff.rfl)⟩

omit [LinearOrder K] in
/-- The books of a tree that was just opened. -/
theorem start_books (q : Nat) (blocks : BlkAddress → Option (Block K V)) (allocator : Allocator)
    (root : BlkAddress) (depth : Nat) :
    Books q (start q blocks allocator root depth) (fun _ => .free) := by
  refine ⟨⟨⟨fun _ => rfl, fun _ => rfl, fun _ => rfl, fun _ _ _ => rfl, fun i => ?_, fun i => ?_,
    fun _ h => absurd rfl h⟩, ⟨fun x type => ?_, fun _ => ?_, fun _ _ => rfl⟩, fun c _ => ?_⟩, ?_⟩
  · simp [start]
  · simp [start]
  · cases type <;>
      simp [start, ContextBarrier.counter, ContextBarrier.new, tokenCount, State.held]
  · simp [start, ContextBarrier.new]
  · refine ⟨?_, by simp [start], by simp [start]⟩
    cases c <;> rfl
  · have hnone : ∀ r : Request K V, r ∉ submitted ([] : List (LogEvent K V)) :=
      fun r => List.not_mem_nil
    refine ⟨fun _ h => absurd rfl h, by simp [start], fun r => ?_, ?_, ?_, ?_, fun id => ?_,
      fun r h => absurd h (hnone r), List.nodup_nil, List.nodup_nil,
      fun r h => absurd h List.not_mem_nil, rfl, ?_, fun r h => absurd h (hnone r),
      fun r h => absurd h (hnone r), fun _ _ => ⟨rfl, rfl⟩⟩
    · simp [start, submitted, admitted]
    · simp [start, activeCount]
    · simp [start]
    · simp [start, activeCount]
    · simp [start, servingCount]
    · simp [start, inProgress, admitted]

/-- **The books are in order after every run.** -/
theorem run_keeps {s' : State K V} {as : List (Action K V)} (h : Books q s ph)
    (hrun : run capacity deferred s as = some s') : ∃ ph', Books q s' ph' := by
  induction as generalizing s ph with
  | nil =>
      cases hrun
      exact ⟨ph, h⟩
  | cons a as ih =>
      rw [run] at hrun
      split at hrun
      · next s₁ hstep =>
          obtain ⟨ph₁, h₁⟩ := step_keeps h hstep
          exact ih h₁ hrun
      · cases hrun

end Steps

/-! ## §3. Barriers and requests in every run. -/

/-- When no request is in progress, all contexts are free. -/
theorem Books.idle (h : Books q s ph) (hnone : inProgress s.log = []) (c : ContextId) :
    ph c = .free := by
  by_contra hne
  obtain ⟨r, _, _, hadm⟩ := h.requests.active c hne
  have hc := h.placed.lists.bound c hne
  have h1 := h.requests.slots_eq
  have h2 := h.requests.inProgress_eq
  rw [hnone, List.length_nil] at h2
  have hle : (if ph c = .free then 0 else 1) ≤ activeCount q ph :=
    Finset.single_le_sum (f := fun d => if ph d = .free then 0 else 1) (fun _ _ => Nat.zero_le _)
      (mem_allContexts.2 hc)
  rw [if_neg hne] at hle
  omega

/-- **Barrier tokens are exactly the barriers held**, in every run.  A search, which
gives back its tokens with `remove_read_barrier`, has read tokens only. -/
theorem run_tokens [LinearOrder K] (capacity : Nat) (deferred : Bool) (q : Nat)
    (blocks : BlkAddress → Option (Block K V)) (allocator : Allocator) (root : BlkAddress)
    (depth : Nat) (as : List (Action K V)) (s : State K V)
    (hrun : run capacity deferred (start q blocks allocator root depth) as = some s) :
    (∀ x, (s.barriers x).readBarriers = tokenCount q s.held x .read
      ∧ (s.barriers x).writeBarriers = tokenCount q s.held x .write)
    ∧ (∀ x, (s.barriers x).writeBarriers = 0 ∨ (s.barriers x).writeBarriers = 1)
    ∧ (∀ x, (s.barriers x).writeBarriers = 1 → (s.barriers x).readBarriers = 0)
    ∧ (∀ x, 0 ≤ (s.barriers x).readBarriers ∧ 0 ≤ (s.barriers x).writeBarriers)
    ∧ (∀ i, ∀ t ∈ s.held (.search i), t.type = .read)
    ∧ (inProgress s.log = [] → ∀ x, s.barriers x = ContextBarrier.new) := by
  obtain ⟨ph, h⟩ := run_keeps (start_books q blocks allocator root depth) hrun
  have htokens := h.placed.tokens
  have hcount : ∀ x, (s.barriers x).readBarriers = tokenCount q s.held x .read
      ∧ (s.barriers x).writeBarriers = tokenCount q s.held x .write :=
    fun x => ⟨htokens.count x .read, htokens.count x .write⟩
  refine ⟨hcount, htokens.write_cases, htokens.excl, fun x => ?_, fun i => ?_, fun hnone x => ?_⟩
  · have hx := hcount x
    omega
  · exact (h.placed.ctl (.search i) nofun).read i rfl
  · have hfree := h.idle hnone
    have hheld : ∀ c, s.held c = [] := by
      intro c
      have hst := (h.placed.ctl c (by simp)).state
      rw [hfree c] at hst
      cases c <;> exact hst
    have hzero : ∀ type, tokenCount q s.held x type = 0 := by
      intro type
      simp [tokenCount, hheld]
    have hqueue : (s.barriers x).pendingBarrierRequests = [] := by
      refine List.eq_nil_iff_forall_not_mem.2 (fun p hp => ?_)
      have hq := h.placed.lists.queue x p.1 p.2
      rw [hfree, if_neg (by simp)] at hq
      exact List.count_eq_zero.1 hq hp
    have hx := hcount x
    rw [hzero, hzero] at hx
    cases hb : s.barriers x with
    | mk r w l =>
        rw [hb] at hx hqueue
        simp only at hx hqueue
        rw [hx.1, hx.2, hqueue]
        rfl

/-- One insert, up to the read of its leaf. -/
def insertStart : List (Action Nat Nat) :=
  [.submit (.insert 1 10) true true false, .push 0, .admission, .run .admission 0]

/-- The insert waits with the write barrier of its leaf. -/
theorem run_tokens_insert :
    ∃ s, run 2 false (init 1) insertStart = some s
      ∧ (s.barriers 0).writeBarriers = 1 ∧ (s.barriers 0).readBarriers = 0
      ∧ (s.barriers 0).writeBarriers = tokenCount 1 s.held 0 .write :=
  ⟨_, rfl, rfl, rfl, ((run_tokens 2 false 1 (init 1).blocks ⟨[], 1⟩ 0 1 insertStart _ rfl).1 0).2⟩

/-- The context is on its free stack. -/
def State.IsFree (s : State K V) : ContextId → Prop
  | .search i => i ∈ s.freeSearchContexts
  | .insert i => i ∈ s.freeInsertContexts

/-- A context that is free is nowhere else. -/
theorem Books.free_nowhere (h : Books q s ph) (hc : s.IsFree c) :
    c ∉ s.admissionContexts ∧ c ∉ s.blkReadyContexts ∧ c ∉ s.barrierReadyContexts
      ∧ (∀ io ∈ s.pendingIo, io.context ≠ c)
      ∧ ∀ x type, (c, type) ∉ (s.barriers x).pendingBarrierRequests := by
  have hph : ph c = .free := by
    cases c with
    | search i =>
        have hpos := List.count_pos_iff.2 hc
        rw [h.placed.lists.freeSearch i] at hpos
        by_contra hne
        rw [if_neg (fun h => hne h.1)] at hpos
        omega
    | insert i =>
        have hpos := List.count_pos_iff.2 hc
        rw [h.placed.lists.freeInsert i] at hpos
        by_contra hne
        rw [if_neg (fun h => hne h.1)] at hpos
        omega
  have h1 := h.placed.lists.admission c
  have h2 := h.placed.lists.barrier c
  have h3 := h.placed.lists.io c
  rw [hph] at h1 h2 h3
  simp only [reduceCtorEq, if_false, Phase.ios] at h1 h2 h3
  refine ⟨List.count_eq_zero.1 h1, List.count_eq_zero.1 (by omega), List.count_eq_zero.1 h2, ?_, ?_⟩
  · intro io hm he
    have hnot : c ∉ s.ioContexts := List.count_eq_zero.1 (by omega)
    exact hnot (he ▸ List.mem_map_of_mem hm)
  · intro x type
    have hq := h.placed.lists.queue x c type
    rw [hph, if_neg (by simp)] at hq
    exact List.count_eq_zero.1 hq

/-- **Requests finish at most once and contexts are conserved**, in every run. -/
theorem run_requests [LinearOrder K] (capacity : Nat) (deferred : Bool) (q : Nat)
    (blocks : BlkAddress → Option (Block K V)) (allocator : Allocator) (root : BlkAddress)
    (depth : Nat) (as : List (Action K V)) (s : State K V)
    (hrun : run capacity deferred (start q blocks allocator root depth) as = some s) :
    s.pendingRequest = (unfinished s.log).length
    ∧ (s.freeContextSlots = q - (inProgress s.log).length ∧ 0 ≤ s.freeContextSlots)
    ∧ (∀ f, step capacity deferred s .admission ≠ some (.error f))
    ∧ (∀ c, s.IsFree c → c ∉ s.admissionContexts ∧ c ∉ s.blkReadyContexts
      ∧ c ∉ s.barrierReadyContexts ∧ (∀ io ∈ s.pendingIo, io.context ≠ c)
      ∧ ∀ x type, (c, type) ∉ (s.barriers x).pendingBarrierRequests)
    ∧ ((submitted s.log).map Request.id).Nodup
    ∧ (∀ r ∈ submitted s.log, finishCount s.log r ≤ 1
      ∧ s.log.countP (LogEvent.isCallback r.id) = (if r.cbF then finishCount s.log r else 0)
      ∧ s.log.countP (LogEvent.isRelease r.id) = if r.semaphore then finishCount s.log r else 0)
    ∧ (terminated s = true → unfinished s.log = []) := by
  obtain ⟨ph, h⟩ := run_keeps (start_books q blocks allocator root depth) hrun
  have hreq := h.requests
  refine ⟨hreq.unfinished_eq, ⟨hreq.inProgress_eq, hreq.slots_nonneg⟩, fun f hstep => ?_,
    fun c hc => h.free_nowhere hc, hreq.ids, fun r hr => ⟨?_, hreq.callback r hr,
    hreq.semaphore r hr⟩, fun hterm => ?_⟩
  · simp only [step] at hstep
    split at hstep
    · cases hstep
    · next hslots =>
        split at hstep
        · cases hstep
        · next r queue hqueue =>
            obtain ⟨s₁, hok, _⟩ := h.admission hslots hqueue
            rw [hok] at hstep
            cases hstep
  · have hcons := hreq.conserve r.id
    rw [if_pos (hreq.fresh r hr)] at hcons
    unfold finishCount
    omega
  · have hpending := hreq.unfinished_eq
    simp only [terminated, Bool.and_eq_true, decide_eq_true_eq] at hterm
    exact List.length_eq_zero_iff.1 (by omega)

/-- The rest of the insert, and the end of the worker. -/
def insertEnd : List (Action Nat Nat) :=
  [.complete 0, .run .blk 0, .complete 0, .run .blk 0, .terminate]

/-- The insert has finished, and its client was told once. -/
theorem run_requests_insert :
    ∃ s, run 2 false (init 1) (insertStart ++ insertEnd) = some s
      ∧ terminated s = true ∧ unfinished s.log = []
      ∧ s.log.countP (LogEvent.isCallback 0) = 1 ∧ s.pendingRequest = (unfinished s.log).length := by
  refine ⟨_, rfl, rfl, ?_, rfl, ?_⟩
  · exact (run_requests 2 false 1 (init 1).blocks ⟨[], 1⟩ 0 1 (insertStart ++ insertEnd) _ rfl).2.2.2.2.2.2 rfl
  · exact (run_requests 2 false 1 (init 1).blocks ⟨[], 1⟩ 0 1 (insertStart ++ insertEnd) _ rfl).1

end PullBasedBPlusTree

end NvmTree
