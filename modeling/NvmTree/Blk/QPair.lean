/-
  NvmTree.Blk.QPair — `QPair`: synchronous and asynchronous NVMe commands.

  A `QPair` counts its free slots.  A command takes one when it is submitted, and
  its callback, called from `process_completions`, gives it back and sets the
  flag the command was submitted with.  Which commands complete in a call, and in
  which order, is up to the device: a batch lists them.

  What the code does:  `synchronous_write` waits for its own flag.
  `synchronous_read` waits `while (free_slots_ == 0)`, so it returns AT ONCE
  unless it has taken the last slot, and then at the first completion, whosever.
  Its command then still points to the flag of a call that has returned.

  Main results:
    * `run_waits` — along every run in which each `synchronous_read` takes the
      last slot and its own command is in the first batch that completes, and no
      command is rejected, both operations wait for their own command, and no
      slot is lost.
    * `read_returns_early` — a queue of two slots, nothing outstanding.
-/
import NvmTree.Lib.ListSplit
import Mathlib.Data.List.Perm.Basic
import Mathlib.Data.List.Nodup
import Mathlib.Logic.Function.Basic
import Mathlib.Tactic.Common

namespace NvmTree.Blk

/-! ## §1. The queue pair. -/

/-- A command the device has accepted: its number, the address of its flag, and
whether a synchronous call submitted it. -/
structure QPair.Command where
  id : Nat
  flag : Option Nat
  synchronous : Bool
  deriving Repr, DecidableEq

structure QPair where
  freeSlots : Int
  queueLength : Nat
  /-- The memory the flags lie in. -/
  flags : Nat → Bool
  /-- Accepted, and not called back yet. -/
  outstanding : List QPair.Command
  /-- How many commands were accepted, and which of them were called back. -/
  accepted : Nat
  called : List Nat

namespace QPair

def new (queueLength : Nat) (flags : Nat → Bool) : QPair :=
  ⟨queueLength, queueLength, flags, [], 0, []⟩

def completionBatchSize (q : QPair) : Nat :=
  if q.queueLength / 8 ≤ 4 then 4 else q.queueLength / 8

/-- `cb_function` for the command with number `id`; `none` if there is none to call
back. -/
def cbFunction (q : QPair) (id : Nat) : Option QPair :=
  (q.outstanding.find? (fun c => c.id = id)).map fun c =>
    { q with
      freeSlots := q.freeSlots + 1
      flags := match c.flag with
        | some f => Function.update q.flags f true
        | none => q.flags
      outstanding := q.outstanding.filter (fun c => c.id ≠ id)
      called := q.called ++ [id] }

/-- The callbacks of a batch, in order. -/
def callAll : QPair → List Nat → Option QPair
  | q, [] => some q
  | q, id :: ids => (q.cbFunction id).bind (callAll · ids)

/-- `process_completions(max)`, when the device completes `batch`; 0 is no bound. -/
def processCompletions (q : QPair) (max : Nat) (batch : List Nat) : Option QPair :=
  if max = 0 ∨ batch.length ≤ max then q.callAll batch else none

/-- `while (busy) process_completions(max)`; `none`: still waiting after the
batches given. -/
def waitWhile (busy : QPair → Bool) (max : Nat) : List (List Nat) → QPair → Option QPair
  | batches, q =>
      if busy q then
        match batches with
        | [] => none
        | batch :: batches => (q.processCompletions max batch).bind (waitWhile busy max batches)
      else some q

/-- `free_slots_--` and the command's submission, which the device may reject. -/
def submit (q : QPair) (accepts : Bool) (flag : Option Nat) (synchronous : Bool) : QPair :=
  if accepts then
    { q with
      freeSlots := q.freeSlots - 1
      outstanding := q.outstanding ++ [⟨q.accepted, flag, synchronous⟩]
      accepted := q.accepted + 1 }
  else { q with freeSlots := q.freeSlots - 1 }

/-- `bool is_complete = false;`, a local at the address `flag`. -/
def clearFlag (q : QPair) (flag : Nat) : QPair :=
  { q with flags := Function.update q.flags flag false }

def synchronousWrite (q : QPair) (accepts : Bool) (flag : Nat) (batches : List (List Nat)) :
    Option QPair :=
  waitWhile (fun q => !q.flags flag) 0 batches
    ((q.clearFlag flag).submit accepts (some flag) true)

def synchronousRead (q : QPair) (accepts : Bool) (flag : Nat) (batches : List (List Nat)) :
    Option QPair :=
  waitWhile (fun q => q.freeSlots = 0) 0 batches
    ((q.clearFlag flag).submit accepts (some flag) true)

/-- `asynchronous_write` and `asynchronous_read`, which submit alike. -/
def asynchronous (q : QPair) (accepts : Bool) (flag : Option Nat) (batches : List (List Nat)) :
    Option QPair :=
  (waitWhile (fun q => q.freeSlots = 0) q.completionBatchSize batches q).map
    (·.submit accepts flag false)

def asynchronousWrite := asynchronous

def asynchronousRead := asynchronous

/-! ## §2. Runs, and the condition. -/

/-- A call, with what the device does during it. -/
inductive Op where
  | synchronousWrite (accepts : Bool) (flag : Nat) (batches : List (List Nat))
  | synchronousRead (accepts : Bool) (flag : Nat) (batches : List (List Nat))
  | asynchronousWrite (accepts : Bool) (flag : Option Nat) (batches : List (List Nat))
  | asynchronousRead (accepts : Bool) (flag : Option Nat) (batches : List (List Nat))
  | processCompletions (max : Nat) (batch : List Nat)
  deriving Repr, DecidableEq

/-- The state in which the call returns. -/
def step (q : QPair) : Op → Option QPair
  | .synchronousWrite accepts flag batches => q.synchronousWrite accepts flag batches
  | .synchronousRead accepts flag batches => q.synchronousRead accepts flag batches
  | .asynchronousWrite accepts flag batches => q.asynchronousWrite accepts flag batches
  | .asynchronousRead accepts flag batches => q.asynchronousRead accepts flag batches
  | .processCompletions max batch => q.processCompletions max batch

def run : QPair → List Op → Option QPair
  | q, [] => some q
  | q, op :: ops => (q.step op).bind (run · ops)

/-- A local lies elsewhere than the flags the callers of outstanding asynchronous
commands wait for.  It may lie where the local of a call that has returned lay. -/
def Local (q : QPair) (flag : Nat) : Prop :=
  ∀ c ∈ q.outstanding, c.synchronous = false → c.flag ≠ some flag

/-- The first batch in which anything completes. -/
def firstBatch (batches : List (List Nat)) : List Nat :=
  (batches.find? (fun b => b ≠ [])).getD []

/-- No command is rejected, and a `synchronous_read` takes the last slot and its
own command is in the first batch that completes. -/
def Meets (q : QPair) : Op → Prop
  | .synchronousWrite accepts _ _ => accepts = true
  | .synchronousRead accepts _ batches =>
      accepts = true ∧ q.freeSlots = 1 ∧ q.accepted ∈ firstBatch batches
  | .asynchronousWrite accepts _ _ => accepts = true
  | .asynchronousRead accepts _ _ => accepts = true
  | .processCompletions _ _ => True

/-- The flag of a synchronous call is a local of it. -/
def Op.Allowed (q : QPair) : Op → Prop
  | .synchronousWrite _ flag _ => q.Local flag
  | .synchronousRead _ flag _ => q.Local flag
  | _ => True

/-- Every call of the run is allowed and meets the condition. -/
def AllMeet : QPair → List Op → Prop
  | _, [] => True
  | q, op :: ops => op.Allowed q ∧ q.Meets op ∧ ∀ q', q.step op = some q' → AllMeet q' ops

/-- The call is synchronous: it submits one command, and waits for it. -/
def Op.isSynchronous : Op → Bool
  | .synchronousWrite .. => true
  | .synchronousRead .. => true
  | _ => false

/-! ## §3. Callbacks. -/

/-- Every slot is free or taken by a command, and every command was called back
or is outstanding, once. -/
structure Inv (q : QPair) : Prop where
  slots : q.freeSlots + q.outstanding.length = q.queueLength
  once : (q.called ++ q.outstanding.map Command.id).Perm (List.range q.accepted)

theorem Inv.new (queueLength : Nat) (flags : Nat → Bool) : (new queueLength flags).Inv :=
  ⟨by simp [QPair.new], List.Perm.refl _⟩

variable {q q' : QPair}

theorem Inv.nodup (h : q.Inv) : (q.called ++ q.outstanding.map Command.id).Nodup :=
  h.once.nodup_iff.2 List.nodup_range

/-- What a callback does. -/
theorem cbFunction_cases {id : Nat} (h : q.cbFunction id = some q') :
    ∃ c ∈ q.outstanding, c.id = id ∧ q' = { q with
      freeSlots := q.freeSlots + 1
      flags := match c.flag with
        | some f => Function.update q.flags f true
        | none => q.flags
      outstanding := q.outstanding.filter (fun c => c.id ≠ id)
      called := q.called ++ [id] } := by
  obtain ⟨c, hc, rfl⟩ := Option.map_eq_some_iff.1 h
  exact ⟨c, List.mem_of_find?_eq_some hc, by simpa using List.find?_some hc, rfl⟩

theorem Inv.cbFunction (h : q.Inv) {id : Nat} (hcb : q.cbFunction id = some q') : q'.Inv := by
  obtain ⟨c, hc, rfl, rfl⟩ := cbFunction_cases hcb
  have hperm := ListSplit.perm_apart (List.nodup_append.1 h.nodup).2.1 hc
  constructor
  · have hlen := hperm.length_eq
    have hslots := h.slots
    show q.freeSlots + 1 + ((q.outstanding.filter (fun x => x.id ≠ c.id)).length : Int)
      = q.queueLength
    rw [List.length_cons] at hlen
    omega
  · show (q.called ++ [c.id] ++ (q.outstanding.filter (fun x => x.id ≠ c.id)).map Command.id).Perm _
    refine List.Perm.trans ?_ h.once
    rw [List.append_assoc]
    exact ((hperm.map Command.id).symm).append_left q.called

/-- What every callback keeps, a batch keeps. -/
theorem callAll_induction {P : QPair → Prop}
    (hP : ∀ {q q' : QPair} {id : Nat}, P q → q.cbFunction id = some q' → P q') :
    ∀ (ids : List Nat) {q q' : QPair}, P q → q.callAll ids = some q' → P q' := by
  intro ids
  induction ids with
  | nil =>
      intro q q' hq h
      cases h
      exact hq
  | cons id ids ih =>
      intro q q' hq h
      obtain ⟨q₁, hcb, hrest⟩ := Option.bind_eq_some_iff.1 h
      exact ih (hP hq hcb) hrest

theorem processCompletions_cases {max : Nat} {batch : List Nat}
    (h : q.processCompletions max batch = some q') : q.callAll batch = some q' := by
  unfold processCompletions at h
  split at h
  · exact h
  · cases h

/-- The same for a loop, which is left when nothing is busy. -/
theorem waitWhile_induction {P : QPair → Prop} {busy : QPair → Bool} {max : Nat}
    (hP : ∀ {q q' : QPair} {id : Nat}, P q → q.cbFunction id = some q' → P q') :
    ∀ (batches : List (List Nat)) {q q' : QPair}, P q →
      waitWhile busy max batches q = some q' → P q' ∧ busy q' = false := by
  intro batches
  induction batches with
  | nil =>
      intro q q' hq h
      unfold waitWhile at h
      cases hbusy : busy q with
      | true => simp [hbusy] at h
      | false =>
          obtain rfl : q = q' := by simpa [hbusy] using h
          exact ⟨hq, hbusy⟩
  | cons batch batches ih =>
      intro q q' hq h
      unfold waitWhile at h
      cases hbusy : busy q with
      | true =>
          obtain ⟨q₁, hproc, hrest⟩ : ∃ q₁, q.processCompletions max batch = some q₁
              ∧ waitWhile busy max batches q₁ = some q' := by
            simpa [hbusy, Option.bind_eq_some_iff] using h
          exact ih (callAll_induction hP batch hq (processCompletions_cases hproc)) hrest
      | false =>
          obtain rfl : q = q' := by simpa [hbusy] using h
          exact ⟨hq, hbusy⟩

/-- What a batch adds up to. -/
theorem callAll_counts : ∀ (ids : List Nat) {q q' : QPair}, q.callAll ids = some q' →
    q'.freeSlots = q.freeSlots + ids.length ∧ q'.called = q.called ++ ids := by
  intro ids
  induction ids with
  | nil =>
      intro q q' h
      cases h
      simp
  | cons id ids ih =>
      intro q q' h
      obtain ⟨q₁, hcb, hrest⟩ := Option.bind_eq_some_iff.1 h
      obtain ⟨hfree, hcalled⟩ := ih hrest
      obtain ⟨c, -, -, rfl⟩ := cbFunction_cases hcb
      refine ⟨?_, by rw [hcalled]; simp⟩
      rw [hfree, List.length_cons]
      push_cast
      omega

/-! ## §4. Waiting for one's own command. -/

/-- Between two calls: no command of a synchronous call is outstanding. -/
structure Idle (n : Nat) (q : QPair) : Prop extends q.Inv where
  length : q.queueLength = n
  asynchronous : ∀ c ∈ q.outstanding, c.synchronous = false

/-- During a synchronous call with the command `own` and the flag at `flag`: only
this command sets the flag. -/
structure Awaits (n own flag : Nat) (q : QPair) : Prop extends q.Inv where
  length : q.queueLength = n
  only : ∀ c ∈ q.outstanding, c.flag = some flag ∨ c.synchronous = true → c.id = own
  set : q.flags flag = true → own ∈ q.called

variable {n own flag : Nat}

theorem Idle.cbFunction (h : q.Idle n) {id : Nat} (hcb : q.cbFunction id = some q') :
    q'.Idle n := by
  refine ⟨h.toInv.cbFunction hcb, ?_, ?_⟩
  · obtain ⟨c, -, -, rfl⟩ := cbFunction_cases hcb
    exact h.length
  · obtain ⟨c, -, -, rfl⟩ := cbFunction_cases hcb
    exact fun x hx => h.asynchronous x (List.mem_filter.1 hx).1

theorem Awaits.cbFunction (h : q.Awaits n own flag) {id : Nat}
    (hcb : q.cbFunction id = some q') : q'.Awaits n own flag := by
  have hinv := h.toInv.cbFunction hcb
  obtain ⟨c, hc, rfl, rfl⟩ := cbFunction_cases hcb
  refine ⟨hinv, h.length, fun x hx => h.only x (List.mem_filter.1 hx).1, fun hset => ?_⟩
  show own ∈ q.called ++ [c.id]
  by_cases hflag : c.flag = some flag
  · rw [h.only c hc (.inl hflag)]
    simp
  · refine List.mem_append_left _ (h.set ?_)
    cases hf : c.flag with
    | none => simpa [hf] using hset
    | some f =>
        have hne : flag ≠ f := fun heq => hflag (by rw [hf, heq])
        simpa [hf, Function.update_of_ne hne] using hset

/-- Once its command was called back, a synchronous call leaves nothing behind. -/
theorem Awaits.idle (h : q.Awaits n own flag) (hown : own ∈ q.called) : q.Idle n := by
  refine ⟨h.toInv, h.length, fun c hc => ?_⟩
  cases hs : c.synchronous with
  | false => rfl
  | true =>
      have hid := h.only c hc (.inr hs)
      exact absurd rfl ((List.nodup_append.1 h.nodup).2.2 own hown own
        (hid ▸ List.mem_map_of_mem hc))

theorem Inv.submit (h : q.Inv) (flag : Option Nat) (synchronous : Bool) :
    (q.submit true flag synchronous).Inv := by
  constructor
  · have hslots := h.slots
    show q.freeSlots - 1 + ((q.outstanding ++ [_]).length : Int) = q.queueLength
    rw [List.length_append, List.length_singleton]
    push_cast
    omega
  · show (q.called ++ (q.outstanding ++ [_]).map Command.id).Perm (List.range (q.accepted + 1))
    rw [List.map_append, ← List.append_assoc, List.range_succ]
    exact h.once.append_right _

/-- The start of a synchronous call. -/
theorem Idle.awaits (h : q.Idle n) (hflag : q.Local flag) :
    ((q.clearFlag flag).submit true (some flag) true).Awaits n q.accepted flag := by
  have hinv : (q.clearFlag flag).Inv := ⟨h.slots, h.once⟩
  refine ⟨hinv.submit (some flag) true, h.length, fun c hc hor => ?_, fun hset => ?_⟩
  · rcases List.mem_append.1 hc with hc | hc
    · have hs := h.asynchronous c hc
      rcases hor with hf | hs'
      · exact absurd hf (hflag c hc hs)
      · rw [hs] at hs'
        cases hs'
    · rw [List.mem_singleton.1 hc]
      rfl
  · have hclear : Function.update q.flags flag false flag = true := hset
    rw [Function.update_self] at hclear
    cases hclear

/-- The loop of `synchronous_read`, from no free slot on: it is left after the
first batch in which anything completes. -/
theorem called_of_firstBatch : ∀ (batches : List (List Nat)) {q q' : QPair}, q.freeSlots = 0 →
    waitWhile (fun q => q.freeSlots = 0) 0 batches q = some q' →
    ∀ id ∈ firstBatch batches, id ∈ q'.called := by
  intro batches
  induction batches with
  | nil =>
      intro q q' _ _ id hid
      exact absurd hid List.not_mem_nil
  | cons batch batches ih =>
      intro q q' hfree h id hid
      unfold waitWhile at h
      obtain ⟨q₁, hproc, hrest⟩ : ∃ q₁, q.processCompletions 0 batch = some q₁
          ∧ waitWhile (fun q => q.freeSlots = 0) 0 batches q₁ = some q' := by
        simpa [hfree, Option.bind_eq_some_iff] using h
      obtain ⟨hfree₁, hcalled₁⟩ := callAll_counts batch (processCompletions_cases hproc)
      cases batch with
      | nil => exact ih (by simpa [hfree] using hfree₁) hrest id hid
      | cons b bs =>
          -- something completed, so the loop ends here
          have hbusy : q₁.freeSlots ≠ 0 := by
            rw [hfree₁, hfree, List.length_cons]
            push_cast
            omega
          unfold waitWhile at hrest
          obtain rfl : q₁ = q' := by simpa [hbusy] using hrest
          rw [hcalled₁]
          exact List.mem_append_right _ hid

/-! ## §5. Runs. -/

theorem Idle.asynchronous_op (h : q.Idle n) {flag : Option Nat} {batches : List (List Nat)}
    (hstep : q.asynchronous true flag batches = some q') : q'.Idle n := by
  obtain ⟨q₁, hwait, rfl⟩ := Option.map_eq_some_iff.1 hstep
  obtain ⟨h₁, -⟩ := waitWhile_induction (fun hq hcb => Idle.cbFunction hq hcb) batches h hwait
  refine ⟨h₁.toInv.submit flag false, h₁.length, fun c hc => ?_⟩
  rcases List.mem_append.1 hc with hc | hc
  · exact h₁.asynchronous c hc
  · rw [List.mem_singleton.1 hc]

theorem Idle.step (h : q.Idle n) {op : Op} (hallowed : op.Allowed q) (hmeets : q.Meets op)
    (hstep : q.step op = some q') :
    q'.Idle n ∧ (op.isSynchronous = true → q.accepted ∈ q'.called) := by
  cases op with
  | synchronousWrite accepts flag batches =>
      obtain rfl : accepts = true := hmeets
      obtain ⟨haw, hdone⟩ := waitWhile_induction (fun hq hcb => hq.cbFunction hcb) batches
        (h.awaits hallowed) hstep
      have hown := haw.set (by simpa using hdone)
      exact ⟨haw.idle hown, fun _ => hown⟩
  | synchronousRead accepts flag batches =>
      obtain ⟨rfl, hfree, hfirst⟩ := hmeets
      obtain ⟨haw, -⟩ := waitWhile_induction (fun hq hcb => hq.cbFunction hcb) batches
        (h.awaits hallowed) hstep
      have hzero : ((q.clearFlag flag).submit true (some flag) true).freeSlots = 0 := by
        show q.freeSlots - 1 = 0
        rw [hfree]
        rfl
      have hown := called_of_firstBatch batches hzero hstep q.accepted hfirst
      exact ⟨haw.idle hown, fun _ => hown⟩
  | asynchronousWrite accepts flag batches =>
      obtain rfl : accepts = true := hmeets
      exact ⟨h.asynchronous_op hstep, nofun⟩
  | asynchronousRead accepts flag batches =>
      obtain rfl : accepts = true := hmeets
      exact ⟨h.asynchronous_op hstep, nofun⟩
  | processCompletions max batch =>
      exact ⟨callAll_induction (fun hq hcb => hq.cbFunction hcb) batch h
        (processCompletions_cases hstep), nofun⟩

theorem Idle.run : ∀ (ops : List Op) {q q' : QPair} (rest : List Op), q.Idle n →
    q.AllMeet (ops ++ rest) → q.run ops = some q' → q'.Idle n ∧ q'.AllMeet rest := by
  intro ops
  induction ops with
  | nil =>
      intro q q' rest h hall hrun
      cases hrun
      exact ⟨h, hall⟩
  | cons op ops ih =>
      intro q q' rest h hall hrun
      obtain ⟨q₁, hstep, hrun⟩ := Option.bind_eq_some_iff.1 hrun
      exact ih rest (h.step hall.1 hall.2.1 hstep).1 (hall.2.2 q₁ hstep) hrun

/-- **Synchronous operations wait for their own command**, in every run that
meets the condition: when one returns, the command it submitted was called back;
and when nothing is outstanding, all slots are free. -/
theorem run_waits (queueLength : Nat) (flags : Nat → Bool) (ops : List Op) (op : Op)
    (q q' : QPair) (hall : (new queueLength flags).AllMeet (ops ++ [op]))
    (hrun : (new queueLength flags).run ops = some q) (hstep : q.step op = some q') :
    (op.isSynchronous = true → q.accepted ∈ q'.called)
      ∧ (q'.outstanding = [] → q'.freeSlots = queueLength) := by
  have hidle : (new queueLength flags).Idle queueLength :=
    ⟨Inv.new queueLength flags, rfl, fun c hc => absurd hc List.not_mem_nil⟩
  obtain ⟨h, hlast⟩ := Idle.run ops [op] hidle hall hrun
  obtain ⟨h', hown⟩ := h.step hlast.1 hlast.2.1 hstep
  refine ⟨hown, fun hnone => ?_⟩
  have hslots := h'.slots
  rw [hnone, h'.length] at hslots
  simpa using hslots

/-- A queue of one slot: a read that waits for its own completion. -/
theorem run_waits_one :
    ∃ q', (new 1 (fun _ => false)).step (.synchronousRead true 7 [[], [0]]) = some q'
      ∧ 0 ∈ q'.called :=
  ⟨_, rfl, (run_waits 1 (fun _ => false) [] (.synchronousRead true 7 [[], [0]]) _ _
    ⟨fun c hc => absurd hc List.not_mem_nil, ⟨rfl, rfl, by decide⟩, fun _ _ => trivial⟩ rfl rfl).1
    rfl⟩

/-- **A read that does not wait.**  With two slots and nothing outstanding,
`synchronous_read` returns before `process_completions` was called at all; its
command is still to be called back. -/
theorem read_returns_early :
    ∃ q', (new 2 (fun _ => false)).step (.synchronousRead true 7 []) = some q'
      ∧ q'.called = [] ∧ q'.outstanding = [⟨0, some 7, true⟩] :=
  ⟨_, rfl, rfl, rfl⟩

end QPair

end NvmTree.Blk
