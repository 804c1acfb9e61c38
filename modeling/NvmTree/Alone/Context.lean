/-
  NvmTree.Alone.Context — one `insert_context`, and nobody else.

  With one context the barriers count its tokens and nobody waits for them, so a
  release fires no context, and the request of a barrier that the context does not
  hold is granted.  `Solo` keeps the fields of the state that a context reads or
  writes when it is alone; every access turns them into others.

  A write that was submitted has taken effect or has not (`Landing`): with all of them
  applied the blocks are those that the machine has.

  Main results: `Solo.grant`, `Solo.releaseAllBut`, `Solo.asynchWrite`,
  `Landing.effect`, `Landing.complete`.
-/
import NvmTree.Alone.Machine
import NvmTree.Pull.Know

namespace NvmTree

open RangeTree

namespace PullBasedBPlusTree

open Alone (Machine)

variable {K V : Type*}

/-! ## §1. Barriers of one context. -/

/-- The barriers count the tokens, and nobody waits. -/
def Balanced (barriers : BlkAddress → ContextBarrier ContextId) (tokens : List BarrierToken) :
    Prop :=
  ∀ x, (barriers x).pendingBarrierRequests = []
    ∧ ∀ type, (barriers x).counter type = tokens.count ⟨x, type⟩

variable {barriers : BlkAddress → ContextBarrier ContextId} {tokens : List BarrierToken}
  {x : BlkAddress} {type : BarrierType}

theorem Balanced.grants (h : Balanced barriers tokens) (hx : ∀ t ∈ tokens, t.barrierId ≠ x) :
    (barriers x).grants type = true := by
  have hzero : ∀ type, (barriers x).counter type = 0 := by
    intro type
    have hcount : tokens.count ⟨x, type⟩ = 0 :=
      List.count_eq_zero.2 fun hm => hx _ hm rfl
    rw [(h x).2 type, hcount]
    rfl
  have hread : (barriers x).readBarriers = 0 := hzero .read
  have hwrite : (barriers x).writeBarriers = 0 := hzero .write
  cases type with
  | read => simp [ContextBarrier.grants, hwrite]
  | write => simp [ContextBarrier.grants, hwrite, hread]

theorem counter_add (b : ContextBarrier ContextId) (type t : BarrierType) :
    (b.add type).counter t = b.counter t + if type = t then 1 else 0 := by
  cases type <;> cases t <;> simp [ContextBarrier.counter, ContextBarrier.add]

theorem counter_sub (b : ContextBarrier ContextId) (type t : BarrierType) :
    (b.sub type).counter t = b.counter t - if type = t then 1 else 0 := by
  cases type <;> cases t <;> simp [ContextBarrier.counter, ContextBarrier.sub]

/-- Only the count of one token changes. -/
theorem count_token_cons (x y : BlkAddress) (type t : BarrierType) (tokens : List BarrierToken) :
    (⟨x, type⟩ :: tokens : List BarrierToken).count ⟨y, t⟩
      = tokens.count ⟨y, t⟩ + if x = y ∧ type = t then 1 else 0 := by
  rw [List.count_cons]
  simp

theorem Balanced.add (h : Balanced barriers tokens) (x : BlkAddress) (type : BarrierType) :
    Balanced (Function.update barriers x ((barriers x).add type)) (⟨x, type⟩ :: tokens) := by
  intro y
  by_cases hy : y = x
  · rw [hy, Function.update_self]
    refine ⟨?_, fun t => ?_⟩
    · have hq := (h x).1
      cases type with
      | read => exact hq
      | write => exact hq
    · rw [counter_add, (h x).2 t, count_token_cons]
      by_cases ht : type = t
      · simp [ht]
      · simp [ht]
  · rw [Function.update_of_ne hy]
    refine ⟨(h y).1, fun t => ?_⟩
    rw [(h y).2 t, count_token_cons, if_neg (fun heq => hy heq.1.symm), Nat.add_zero]

theorem Balanced.sub {token : BarrierToken} {kept : List BarrierToken}
    (h : Balanced barriers tokens) (hperm : tokens.Perm (token :: kept)) :
    Balanced (Function.update barriers token.barrierId
      ((barriers token.barrierId).sub token.type)) kept := by
  obtain ⟨x, type⟩ := token
  intro y
  by_cases hy : y = x
  · rw [hy, Function.update_self]
    refine ⟨?_, fun t => ?_⟩
    · have hq := (h x).1
      cases type with
      | read => exact hq
      | write => exact hq
    · rw [counter_sub, (h x).2 t, hperm.count_eq, count_token_cons]
      by_cases ht : type = t
      · simp [ht]
      · simp [ht]
  · rw [Function.update_of_ne hy]
    refine ⟨(h y).1, fun t => ?_⟩
    rw [(h y).2 t, hperm.count_eq, count_token_cons, if_neg (fun heq => hy heq.1.symm), Nat.add_zero]

/-! ## §2. The state of one context. -/

/-- The blocks of the state, the root and the height. -/
def State.machine (s : State K V) : Machine K V := ⟨s.blocks, s.allocator, s.root, s.depth, .done⟩

/-- The state while the insert context `i` serves `r` and no other request is there: the
store `σ`, the context `b` with its data `y`, the ready list and the outstanding I/O. -/
structure Quiet (i : Nat) (r : InsertRequest K V) (σ : Machine K V) (b : CallBackContext)
    (y : InsertContext K V) (ready : List ContextId) (ios : List (PendingIo K V)) (s : State K V) :
    Prop where
  machine : s.machine = σ
  context : s.contexts (.insert i) = b
  data : s.inserts i = y
  balanced : Balanced s.barriers b.obtainedBarriers
  submitting : s.submitting = []
  queue : s.requestQueue = []
  admission : s.admissionContexts = []
  barrierReady : s.barrierReadyContexts = []
  blkReady : s.blkReadyContexts = ready
  pendingIo : s.pendingIo = ios
  log : .finishInsert r.id ∉ s.log

/-- The context still has its request. -/
structure Solo (i : Nat) (r : InsertRequest K V) (σ : Machine K V) (b : CallBackContext)
    (y : InsertContext K V) (ready : List ContextId) (ios : List (PendingIo K V)) (s : State K V) :
    Prop extends Quiet i r σ b y ready ios s where
  request : y.request = some r

section Quiet

variable {i : Nat} {r : InsertRequest K V} {σ : Machine K V} {b : CallBackContext}
  {y y' : InsertContext K V} {ready : List ContextId} {ios : List (PendingIo K V)} {s : State K V}

theorem Quiet.setInsert (h : Quiet i r σ b y ready ios s) (y' : InsertContext K V) :
    Quiet i r σ b y' ready ios (s.setInsert i y') :=
  { h with
    machine := h.machine
    data := Function.update_self .. }

/-- A token is given back, and nobody waits for it. -/
theorem Quiet.giveBack (h : Quiet i r σ b y ready ios s) {token : BarrierToken} {kept : List BarrierToken}
    (hperm : b.obtainedBarriers.Perm (token :: kept)) :
    Quiet i r σ { b with obtainedBarriers := kept } y ready ios
      (s.giveBack (.insert i) kept token) := by
  have hnone : (s.barriers token.barrierId).pendingBarrierRequests.length = 0 := by
    rw [(h.balanced token.barrierId).1]
    rfl
  unfold State.giveBack State.removeBarrier
  have hb : (s.setContext (.insert i)
      { s.contexts (.insert i) with obtainedBarriers := kept }).barriers = s.barriers := rfl
  rw [hb, hnone, h.context]
  exact { h with
    machine := h.machine
    context := Function.update_self ..
    balanced := h.balanced.sub hperm }

/-- **All but the last `n` tokens are given back.** -/
theorem Quiet.releaseBarriers (n fuel : Nat) (h : Quiet i r σ b y ready ios s)
    (hfuel : b.obtainedBarriers.length ≤ n + fuel) :
    Quiet i r σ { b with obtainedBarriers := b.obtainedBarriers.take n } y ready ios
      (State.releaseBarriers (.insert i) n fuel s) := by
  induction fuel generalizing b s with
  | zero =>
      rw [Nat.add_zero] at hfuel
      rw [List.take_of_length_le hfuel]
      exact h
  | succ fuel ih =>
      rw [State.releaseBarriers, h.context]
      cases hdrop : b.obtainedBarriers.drop n with
      | nil =>
          rw [List.take_of_length_le (List.drop_eq_nil_iff.1 hdrop)]
          exact h
      | cons token rest =>
          have hcut : b.obtainedBarriers = b.obtainedBarriers.take n ++ token :: rest := by
            rw [← hdrop, List.take_append_drop]
          have hlen : (b.obtainedBarriers.take n).length = n := by
            have := congrArg List.length hdrop
            rw [List.length_drop, List.length_cons] at this
            rw [List.length_take]
            omega
          have hperm : b.obtainedBarriers.Perm (token :: (b.obtainedBarriers.take n ++ rest)) := by
            conv_lhs => rw [hcut]
            exact List.perm_middle
          have hlength := hperm.length_eq
          rw [List.length_cons] at hlength
          have hrest := ih (h.giveBack hperm) (by dsimp only; omega)
          dsimp only at hrest ⊢
          rw [List.take_left' hlen] at hrest
          exact hrest

theorem Quiet.releaseAllBut (h : Quiet i r σ b y ready ios s) (n : Nat) :
    Quiet i r σ { b with obtainedBarriers := b.obtainedBarriers.take n } y ready ios
      (s.releaseAllBut (.insert i) n) := by
  unfold State.releaseAllBut
  rw [h.context]
  exact h.releaseBarriers n _ (Nat.le_add_left _ _)

end Quiet

namespace Solo

variable {i : Nat} {r : InsertRequest K V} {σ : Machine K V} {b : CallBackContext}
  {y y' : InsertContext K V} {ready : List ContextId} {ios : List (PendingIo K V)} {s : State K V}

theorem setInsert (h : Solo i r σ b y ready ios s) (hreq : y'.request = y.request) :
    Solo i r σ b y' ready ios (s.setInsert i y') :=
  { h.toQuiet.setInsert y' with request := hreq.trans h.request }

theorem setContext (h : Solo i r σ b y ready ios s) {b' : CallBackContext}
    (htokens : b'.obtainedBarriers = b.obtainedBarriers) :
    Solo i r σ b' y ready ios (s.setContext (.insert i) b') :=
  { h with
    machine := h.machine
    context := Function.update_self ..
    balanced := by
      rw [htokens]
      exact h.balanced }

theorem enter (h : Solo i r σ b y ready ios s) (st : CtxState) :
    Solo i r σ { b with currentState := st, nextState := some st } y ready ios
      (s.enter (.insert i) st) := by
  unfold State.enter
  rw [h.context]
  exact h.setContext rfl

theorem setNextState (h : Solo i r σ b y ready ios s) (st : CtxState) :
    Solo i r σ { b with nextState := some st } y ready ios (s.setNextState (.insert i) st) := by
  unfold State.setNextState
  rw [h.context]
  exact h.setContext rfl

theorem transition (h : Solo i r σ b y ready ios s) {st : CtxState} (hst : b.nextState = some st) :
    Solo i r σ { b with currentState := st } y ready ios (s.transition (.insert i)) := by
  have heq : b.nextState.getD b.currentState = st := by
    rw [hst]
    rfl
  unfold State.transition
  rw [h.context, heq]
  exact h.setContext rfl

/-- The barrier of a node that the context does not hold is granted. -/
theorem grant (h : Solo i r σ b y ready ios s) (x : BlkAddress) (type : BarrierType) :
    Solo i r σ { b with obtainedBarriers := ⟨x, type⟩ :: b.obtainedBarriers } y ready ios
      ((s.setBarrier x ((s.barriers x).add type)).addToken (.insert i) ⟨x, type⟩) :=
  { h with
    machine := h.machine
    context := by
      unfold State.addToken State.setContext
      dsimp only
      rw [Function.update_self]
      exact congrArg (fun c : CallBackContext =>
        { c with obtainedBarriers := ⟨x, type⟩ :: c.obtainedBarriers }) h.context
    balanced := h.balanced.add x type }

theorem releaseAllBut (h : Solo i r σ b y ready ios s) (n : Nat) :
    Solo i r σ { b with obtainedBarriers := b.obtainedBarriers.take n } y ready ios
      (s.releaseAllBut (.insert i) n) :=
  { h.toQuiet.releaseAllBut n with request := h.request }

theorem allocate (h : Solo i r σ b y ready ios s) :
    Solo i r σ.allocate b y ready ios s.allocate :=
  { h with machine := congrArg Machine.allocate h.machine }

/-- A node that was allocated becomes the root. -/
theorem setRoot (h : Solo i r σ b y ready ios s) (n : InnerNode K) :
    Solo i r { σ.allocate with root := n.selfRep, depth := σ.depth + 1 } b y ready ios
      { s.allocate with root := n.selfRep, rootInstance := some n, depth := s.depth + 1 } :=
  { h with machine := congrArg (fun σ : Machine K V =>
      { σ.allocate with root := n.selfRep, depth := σ.depth + 1 }) h.machine }

/-- A write is submitted. -/
theorem asynchWrite (h : Solo i r σ b y ready ios s) (deferred : Bool) (a : BlkAddress)
    (d : Block K V) :
    Solo i r (if deferred then σ else { σ with blocks := Function.update σ.blocks a (some d) }) b y
      ready (ios ++ [⟨.insert i, .writeIo, a, some d, !deferred⟩])
      (s.asynchWrite deferred (.insert i) a d) := by
  have hios := congrArg (· ++ [(⟨.insert i, .writeIo, a, some d, !deferred⟩ : PendingIo K V)])
    h.pendingIo
  cases deferred with
  | true => exact { h with machine := h.machine, pendingIo := hios }
  | false =>
      have hm := congrArg (fun σ : Machine K V =>
        { σ with blocks := Function.update σ.blocks a (some d) }) h.machine
      exact { h with machine := hm, pendingIo := hios }

/-- A read is submitted. -/
theorem asynchRead (h : Solo i r σ b y ready ios s) (deferred : Bool) (a : BlkAddress) :
    Solo i r σ b (if deferred then y else { y with buffer := σ.blocks a }) ready
      (ios ++ [⟨.insert i, .readIo, a, none, !deferred⟩])
      (s.asynchRead deferred (.insert i) a) := by
  have hios := congrArg (· ++ [(⟨.insert i, .readIo, a, none, !deferred⟩ : PendingIo K V)])
    h.pendingIo
  cases deferred with
  | true => exact { h with machine := h.machine, pendingIo := hios }
  | false =>
      have hy : { s.inserts i with buffer := s.blocks a } = { y with buffer := σ.blocks a } := by
        rw [h.data, ← h.machine]
        rfl
      exact { h with
        machine := h.machine
        pendingIo := hios
        data := (Function.update_self ..).trans hy
        request := h.request }

/-- An outstanding write takes effect. -/
theorem effectWrite (h : Solo i r σ b y ready ios s) (n : Nat) {io : PendingIo K V}
    (htype : io.type = .writeIo) :
    Solo i r { σ with blocks := Function.update σ.blocks io.address io.data } b y ready
      (ios.modify n (fun io => { io with applied := true }))
      { s.apply io with
        pendingIo := s.pendingIo.modify n (fun io => { io with applied := true }) } := by
  have hm := congrArg (fun σ : Machine K V =>
    { σ with blocks := Function.update σ.blocks io.address io.data }) h.machine
  unfold State.apply
  rw [htype]
  exact { h with
    machine := hm
    pendingIo := congrArg (List.modify · n fun io => { io with applied := true }) h.pendingIo }

/-- The outstanding read takes effect. -/
theorem effectRead (h : Solo i r σ b y ready ios s) (n : Nat) {io : PendingIo K V}
    (htype : io.type = .readIo) (hmine : io.context = .insert i) :
    Solo i r σ b { y with buffer := σ.blocks io.address } ready
      (ios.modify n (fun io => { io with applied := true }))
      { s.apply io with
        pendingIo := s.pendingIo.modify n (fun io => { io with applied := true }) } := by
  have hy : { s.inserts i with buffer := s.blocks io.address }
      = { y with buffer := σ.blocks io.address } := by
    rw [h.data, ← h.machine]
    rfl
  unfold State.apply
  rw [htype, hmine]
  exact { h with
    machine := h.machine
    pendingIo := congrArg (List.modify · n fun io => { io with applied := true }) h.pendingIo
    data := (Function.update_self ..).trans hy
    request := h.request }

/-- An I/O is completed. -/
theorem complete (h : Solo i r σ b y ready ios s) (n : Nat) {st : CtxState}
    (hst : b.nextState = some st) :
    Solo i r σ { b with currentState := st } y (ready ++ [.insert i]) (ios.eraseIdx n)
      { ({ s with pendingIo := s.pendingIo.eraseIdx n }.transition (.insert i)) with
        blkReadyContexts := s.blkReadyContexts ++ [.insert i] } := by
  have herase : Solo i r σ b y ready (ios.eraseIdx n)
      { s with pendingIo := s.pendingIo.eraseIdx n } :=
    { h with machine := h.machine, pendingIo := congrArg (List.eraseIdx · n) h.pendingIo }
  have htrans := herase.transition hst
  exact { htrans with
    machine := htrans.machine
    blkReady := congrArg (· ++ [ContextId.insert i]) h.blkReady }

end Solo

/-! ## §3. Writes on their way. -/

/-- What is left to do for the outstanding I/O and the ready contexts. -/
def load (ios : List (PendingIo K V)) (ready : Nat) : Nat :=
  2 * ios.length + ios.countP (fun io => !io.applied) + ready

theorem load_effect {n : Nat} {ios : List (PendingIo K V)} {io : PendingIo K V} (ready : Nat)
    (hn : ios[n]? = some io) (happ : io.applied = false) :
    load (ios.modify n (fun io => { io with applied := true })) ready + 1 = load ios ready := by
  obtain ⟨pre, post, hcut, -, hset⟩ := ListSplit.exists_split hn
  have hmod : ios.modify n (fun io => { io with applied := true })
      = pre ++ { io with applied := true } :: post := by
    rw [List.modify_eq_set_getElem?, hn]
    exact hset _
  rw [hmod, hcut]
  simp only [load, List.length_append, List.length_cons, List.countP_append, List.countP_cons, happ,
    Bool.not_true, Bool.not_false, Bool.false_eq_true, if_true, if_false]
  omega

theorem load_complete {n : Nat} {ios : List (PendingIo K V)} {io : PendingIo K V} (ready : Nat)
    (hn : ios[n]? = some io) (happ : io.applied = true) :
    load (ios.eraseIdx n) (ready + 1) + 1 = load ios ready := by
  obtain ⟨pre, post, hcut, herase, -⟩ := ListSplit.exists_split hn
  rw [herase, hcut]
  simp only [load, List.length_append, List.length_cons, List.countP_append, List.countP_cons, happ,
    Bool.not_true, Bool.false_eq_true, if_false]
  omega

/-- With all outstanding writes applied, `blocks` are `B`. -/
structure Landing (i : Nat) (ios : List (PendingIo K V)) (blocks B : BlkAddress → Option (Block K V)) :
    Prop where
  mine : ∀ io ∈ ios, io.context = .insert i ∧ io.type = .writeIo
  data : ∀ io ∈ ios, B io.address = io.data
  rest : ∀ x, blocks x = B x ∨ ∃ io ∈ ios, io.applied = false ∧ io.address = x

section Landing

variable {i n : Nat} {ios : List (PendingIo K V)} {blocks B : BlkAddress → Option (Block K V)}
  {io : PendingIo K V}

theorem Landing.nil (B : BlkAddress → Option (Block K V)) : Landing i [] B B :=
  ⟨by simp, by simp, fun _ => .inl rfl⟩

theorem Landing.eq (h : Landing i [] blocks B) : blocks = B :=
  funext fun x => (h.rest x).resolve_right (by simp)

/-- One more write is submitted. -/
theorem Landing.add (h : Landing i ios blocks B) (deferred : Bool) {a : BlkAddress}
    (ha : a ∉ ios.map PendingIo.address) (d : Block K V) :
    Landing i (ios ++ [⟨.insert i, .writeIo, a, some d, !deferred⟩])
      (if deferred then blocks else Function.update blocks a (some d))
      (Function.update B a (some d)) := by
  refine ⟨fun io hm => ?_, fun io hm => ?_, fun x => ?_⟩
  · rcases List.mem_append.1 hm with hm | hm
    · exact h.mine io hm
    · rw [List.mem_singleton.1 hm]
      exact ⟨rfl, rfl⟩
  · rcases List.mem_append.1 hm with hm | hm
    · have hne : io.address ≠ a := fun heq => ha (heq ▸ List.mem_map_of_mem hm)
      rw [Function.update_of_ne hne]
      exact h.data io hm
    · rw [List.mem_singleton.1 hm]
      exact Function.update_self ..
  · by_cases hx : x = a
    · subst hx
      rw [Function.update_self]
      cases deferred with
      | true => exact .inr ⟨_, List.mem_append_right _ (List.mem_singleton.2 rfl), rfl, rfl⟩
      | false => exact .inl (Function.update_self ..)
    · rw [Function.update_of_ne hx]
      rcases h.rest x with heq | ⟨io, hm, hio⟩
      · cases deferred with
        | true => exact .inl heq
        | false => exact .inl ((Function.update_of_ne hx _ _).trans heq)
      · exact .inr ⟨io, List.mem_append_left _ hm, hio⟩

/-- An outstanding write takes effect. -/
theorem Landing.effect (h : Landing i ios blocks B) (hn : ios[n]? = some io) :
    Landing i (ios.modify n (fun io => { io with applied := true }))
      (Function.update blocks io.address io.data) B := by
  -- whether it has taken effect is all that changes of an entry
  have hold : ∀ o ∈ ios.modify n (fun io => { io with applied := true }), ∃ o' ∈ ios,
      ∃ applied, o = { o' with applied := applied } := by
    intro o ho
    obtain ⟨m, hm⟩ := List.mem_iff_getElem?.1 ho
    rw [List.getElem?_modify] at hm
    obtain ⟨o', ho', rfl⟩ := Option.map_eq_some_iff.1 hm
    refine ⟨o', List.mem_of_getElem? ho', ?_⟩
    split
    · exact ⟨true, rfl⟩
    · exact ⟨o'.applied, rfl⟩
  refine ⟨fun o ho => ?_, fun o ho => ?_, fun x => ?_⟩
  · obtain ⟨o', ho', applied, rfl⟩ := hold o ho
    exact h.mine o' ho'
  · obtain ⟨o', ho', applied, rfl⟩ := hold o ho
    exact h.data o' ho'
  · by_cases hx : x = io.address
    · subst hx
      rw [Function.update_self, h.data io (List.mem_of_getElem? hn)]
      exact .inl rfl
    · rw [Function.update_of_ne hx]
      refine (h.rest x).imp_right ?_
      rintro ⟨o, ho, happ, rfl⟩
      obtain ⟨m, hm⟩ := List.mem_iff_getElem?.1 ho
      have hne : n ≠ m := by
        rintro rfl
        cases hn.symm.trans hm
        exact hx rfl
      exact ⟨o, List.mem_iff_getElem?.2 ⟨m, by simp [hm, hne]⟩, happ, rfl⟩

/-- A write that has taken effect is completed. -/
theorem Landing.complete (h : Landing i ios blocks B) (hn : ios[n]? = some io)
    (happ : io.applied = true) : Landing i (ios.eraseIdx n) blocks B := by
  have hsub : ∀ o ∈ ios.eraseIdx n, o ∈ ios := fun o => List.mem_of_mem_eraseIdx
  refine ⟨fun o ho => h.mine o (hsub o ho), fun o ho => h.data o (hsub o ho), fun x => ?_⟩
  refine (h.rest x).imp_right ?_
  rintro ⟨o, ho, happ', rfl⟩
  obtain ⟨m, hm⟩ := List.mem_iff_getElem?.1 ho
  refine ⟨o, List.mem_eraseIdx_iff_getElem?.2 ⟨m, ?_, hm⟩, happ', rfl⟩
  rintro rfl
  cases hn.symm.trans hm
  cases happ.symm.trans happ'

end Landing

end PullBasedBPlusTree

end NvmTree
