/-
  NvmTree.Blk.FileCompletions — the asynchronous I/O of `file_blk_accessor`.

  `asynch_read` and `asynch_write` do the I/O at once (`NvmTree.Blk.FileAccessor`)
  and leave the context to be called back later: the I/O's type and id go to
  `pending_ids_`, the context to `pending_contexts_`.  `process_completion` takes
  both from the back of their vectors.

  What the code does:  it shuffles `pending_contexts_` FIRST, and leaves
  `pending_ids_` as it is.  A context is then tagged with the type of an I/O that
  another context submitted, and the id taken out of the estimator is the
  other's.

  Main results:
    * `run_completions` — along every run in which each context is popped
      together with an I/O it was submitted with, every I/O is completed once,
      with its context and its tag, and the estimator knows the pending ones.
    * `run_completions_swapped` — a read and a write whose contexts are swapped.
-/
import NvmTree.Scheduler.Estimator
import Mathlib.Data.List.Nodup

namespace NvmTree.Blk

/-! ## §1. The accessor. -/

/-- An I/O with the context it was submitted with; of a completed I/O, `kind` is
the tag that the context was given. -/
structure IoRecord (C : Type*) where
  id : Nat
  kind : IoKind
  context : C
  deriving Repr, DecidableEq

structure FileCompletions (C : Type*) where
  estimator : Estimator
  ioIdGenerator : Nat
  /-- `pending_io`: the id and the type. -/
  pendingIds : List (Nat × IoKind)
  pendingContexts : List C
  readyContexts : List C
  /-- The tag of each context, once one is set. -/
  tag : C → Option IoKind
  /-- How often `transition_to_next_state` was called on each context. -/
  moves : C → Nat
  /-- What was submitted so far, and what was completed: the id that left the
  estimator, the tag and the context. -/
  submitted : List (IoRecord C)
  completed : List (IoRecord C)

namespace FileCompletions

variable {C : Type*} [DecidableEq C]

/-- The constructor. -/
def opened : FileCompletions C where
  estimator := Estimator.new 1000 2000
  ioIdGenerator := 0
  pendingIds := []
  pendingContexts := []
  readyContexts := []
  tag _ := none
  moves _ := 0
  submitted := []
  completed := []

/-- The bookkeeping of `asynch_read` and `asynch_write`; `now` is `ticks()`. -/
def asynchIo (kind : IoKind) (s : FileCompletions C) (context : C) (now : Nat) :
    FileCompletions C :=
  let id := s.ioIdGenerator
  { s with
    ioIdGenerator := (id + 1) % 2 ^ 64
    estimator := s.estimator.registerIo kind id now
    pendingIds := s.pendingIds ++ [(id, kind)]
    pendingContexts := s.pendingContexts ++ [context]
    submitted := s.submitted ++ [⟨id, kind, context⟩] }

def asynchRead : FileCompletions C → C → Nat → FileCompletions C := asynchIo .read

def asynchWrite : FileCompletions C → C → Nat → FileCompletions C := asynchIo .write

/-- One round of the loop; `none`: there is no I/O, or the estimator does not know
it. -/
def completeOne (s : FileCompletions C) : Option (FileCompletions C) :=
  match s.pendingContexts.getLast?, s.pendingIds.getLast? with
  | some context, some (id, kind) =>
      (s.estimator.removeIo kind id).map fun estimator =>
        { s with
          estimator := estimator
          pendingIds := s.pendingIds.dropLast
          pendingContexts := s.pendingContexts.dropLast
          tag := Function.update s.tag context (some kind)
          moves := Function.update s.moves context (s.moves context + 1)
          readyContexts := s.readyContexts ++ [context]
          completed := s.completed ++ [⟨id, kind, context⟩] }
  | _, _ => none

/-- The loop, for at most `n` rounds, with the number of contexts processed. -/
def completeLoop : Nat → FileCompletions C → Option (FileCompletions C × Nat)
  | 0, s => some (s, 0)
  | n + 1, s =>
      if s.pendingContexts.isEmpty then some (s, 0)
      else s.completeOne.bind fun s' => (completeLoop n s').map fun r => (r.1, r.2 + 1)

/-- `max == 0 ? INT32_MAX : max`. -/
def rounds (max : Int) : Nat := (if max = 0 then 2 ^ 31 - 1 else max).toNat

/-- `process_completion`; `order` is what `random_shuffle` makes of
`pending_contexts_`. -/
def processCompletion (s : FileCompletions C) (max : Int) (order : List C) :
    Option (FileCompletions C × Nat) :=
  completeLoop (rounds max) { s with pendingContexts := order }

inductive Call (C : Type*) where
  | asynchRead (context : C) (now : Nat)
  | asynchWrite (context : C) (now : Nat)
  | processCompletion (max : Int) (order : List C)

def step (s : FileCompletions C) : Call C → Option (FileCompletions C)
  | .asynchRead context now => some (s.asynchRead context now)
  | .asynchWrite context now => some (s.asynchWrite context now)
  | .processCompletion max order => (s.processCompletion max order).map Prod.fst

def run : FileCompletions C → List (Call C) → Option (FileCompletions C)
  | s, [] => some s
  | s, c :: cs => (s.step c).bind (run · cs)

/-! ## §2. The condition. -/

/-- The I/Os and contexts that `n` rounds take from the back. -/
def popped (n : Nat) (ids : List (Nat × IoKind)) (contexts : List C) :
    List ((Nat × IoKind) × C) :=
  (ids.zip contexts).reverse.take n

/-- A permutation of the contexts that leaves each context that is popped at the
place of an I/O it was submitted with; and fewer than 2^64 I/Os. -/
def Matched (s : FileCompletions C) : Call C → Prop
  | .asynchRead _ _ => s.submitted.length < 2 ^ 64
  | .asynchWrite _ _ => s.submitted.length < 2 ^ 64
  | .processCompletion max order => order.Perm s.pendingContexts
      ∧ ∀ p ∈ popped (rounds max) s.pendingIds order, ⟨p.1.1, p.1.2, p.2⟩ ∈ s.submitted

def AllMatched : FileCompletions C → List (Call C) → Prop
  | _, [] => True
  | s, c :: cs => s.Matched c ∧ ∀ s', s.step c = some s' → AllMatched s' cs

/-! ## §3. One round. -/

/-- The books, with the I/Os that are still pending. -/
structure Inv (s : FileCompletions C) (outstanding : List (IoRecord C)) : Prop where
  generator : s.ioIdGenerator = s.submitted.length % 2 ^ 64
  ids : s.submitted.map IoRecord.id = List.range s.submitted.length
  once : (s.completed ++ outstanding).Perm s.submitted
  pendingIds : s.pendingIds = outstanding.map (fun r => (r.id, r.kind))
  contexts : s.pendingContexts.Perm (outstanding.map IoRecord.context)
  registered : ∃ ios : List Estimator.PendingIo, s.estimator.Tallies ios
    ∧ ios.map (fun io => (io.id, io.kind)) = s.pendingIds
  ready : s.readyContexts = s.completed.map IoRecord.context
  moved : ∀ c, s.moves c = s.readyContexts.count c
  tagged : ∀ c, s.tag c = (s.completed.reverse.find? (fun r => r.context = c)).map IoRecord.kind

variable {s : FileCompletions C} {outstanding : List (IoRecord C)}

theorem Inv.opened : (opened : FileCompletions C).Inv [] where
  generator := rfl
  ids := rfl
  once := List.Perm.refl _
  pendingIds := rfl
  contexts := List.Perm.refl _
  registered := ⟨[], .new 1000 2000, rfl⟩
  ready := rfl
  moved _ := rfl
  tagged _ := rfl

/-- Two submitted records with one id are the same. -/
theorem Inv.eq_of_id (h : s.Inv outstanding) {r r' : IoRecord C} (hr : r ∈ s.submitted)
    (hr' : r' ∈ s.submitted) (hid : r.id = r'.id) : r = r' := by
  have hnodup : (s.submitted.map IoRecord.id).Nodup := h.ids ▸ List.nodup_range
  exact List.inj_on_of_nodup_map hnodup hr hr' hid

theorem Inv.asynchIo (h : s.Inv outstanding) (hsmall : s.submitted.length < 2 ^ 64)
    (kind : IoKind) (context : C) (now : Nat) :
    (s.asynchIo kind context now).Inv (outstanding ++ [⟨s.ioIdGenerator, kind, context⟩]) := by
  have hid : s.ioIdGenerator = s.submitted.length := by
    rw [h.generator, Nat.mod_eq_of_lt hsmall]
  obtain ⟨ios, htallies, hios⟩ := h.registered
  -- every pending id belongs to something submitted, so the new one is not among them
  have hnew : ∀ io ∈ ios, io.id ≠ s.ioIdGenerator := by
    intro io hio
    have hmem : (io.id, io.kind) ∈ outstanding.map (fun r => (r.id, r.kind)) := by
      rw [← h.pendingIds, ← hios]
      exact List.mem_map_of_mem hio
    obtain ⟨r, hr, heq⟩ := List.mem_map.1 hmem
    have hsub : r.id ∈ s.submitted.map IoRecord.id :=
      List.mem_map_of_mem (h.once.mem_iff.1 (List.mem_append_right _ hr))
    rw [h.ids, List.mem_range] at hsub
    have hrid : r.id = io.id := congrArg Prod.fst heq
    omega
  constructor
  case generator =>
    show (s.ioIdGenerator + 1) % 2 ^ 64 = (s.submitted ++ [_]).length % 2 ^ 64
    rw [hid, List.length_append, List.length_singleton]
  case ids =>
    show (s.submitted ++ [_]).map IoRecord.id = List.range (s.submitted ++ [_]).length
    rw [List.map_append, h.ids, List.length_append, List.length_singleton, List.range_succ]
    show _ ++ [s.ioIdGenerator] = _
    rw [hid]
  case once =>
    show (s.completed ++ (outstanding ++ [_])).Perm (s.submitted ++ [_])
    rw [← List.append_assoc]
    exact h.once.append_right _
  case pendingIds =>
    show s.pendingIds ++ [_] = _
    rw [List.map_append, h.pendingIds]
    rfl
  case contexts =>
    show (s.pendingContexts ++ [_]).Perm _
    rw [List.map_append]
    exact h.contexts.append_right _
  case registered =>
    refine ⟨_, htallies.register hnew kind now, ?_⟩
    show _ = s.pendingIds ++ [_]
    rw [List.map_append, hios]
    rfl
  case ready => exact h.ready
  case moved => exact h.moved
  case tagged => exact h.tagged

/-- The I/O registered last is the one taken out. -/
theorem filter_last {ios : List Estimator.PendingIo} {io : Estimator.PendingIo}
    (hnodup : ((ios ++ [io]).map Estimator.PendingIo.id).Nodup) :
    (ios ++ [io]).filter (fun x => x.id ≠ io.id) = ios := by
  rw [List.map_append, List.nodup_append] at hnodup
  rw [List.filter_append, List.filter_cons_of_neg (by simp), List.filter_nil, List.append_nil,
    List.filter_eq_self]
  intro x hx
  simpa using hnodup.2.2 x.id (List.mem_map_of_mem hx) io.id (by simp)

theorem completeOne_eq {ids : List (Nat × IoKind)} {contexts : List C} {id : Nat} {kind : IoKind}
    {c : C} {estimator : Estimator} (hcontexts : s.pendingContexts = contexts ++ [c])
    (hids : s.pendingIds = ids ++ [(id, kind)])
    (hremove : s.estimator.removeIo kind id = some estimator) :
    s.completeOne = some { s with
      estimator := estimator
      pendingIds := ids
      pendingContexts := contexts
      tag := Function.update s.tag c (some kind)
      moves := Function.update s.moves c (s.moves c + 1)
      readyContexts := s.readyContexts ++ [c]
      completed := s.completed ++ [⟨id, kind, c⟩] } := by
  simp only [completeOne, hcontexts, hids, List.getLast?_concat, List.dropLast_concat, hremove,
    Option.map_some]

/-- The last context and the last I/O belong together: they leave, and the rest
is as it was. -/
theorem Inv.completeOne {r : IoRecord C} {contexts : List C}
    (h : s.Inv (outstanding ++ [r])) (hcontexts : s.pendingContexts = contexts ++ [r.context]) :
    ∃ s', s.completeOne = some s' ∧ s'.Inv outstanding ∧ s'.submitted = s.submitted
      ∧ s'.pendingContexts = contexts := by
  have hids : s.pendingIds = outstanding.map (fun r => (r.id, r.kind)) ++ [(r.id, r.kind)] := by
    rw [h.pendingIds, List.map_append]
    rfl
  obtain ⟨ios, htallies, hios⟩ := h.registered
  obtain ⟨ios, io, rfl, hios, hio⟩ : ∃ ios' io, ios = ios' ++ [io]
      ∧ ios'.map (fun io => (io.id, io.kind)) = outstanding.map (fun r => (r.id, r.kind))
      ∧ (io.id, io.kind) = (r.id, r.kind) := by
    rw [hids, List.map_eq_append_iff] at hios
    obtain ⟨ios', last, rfl, h1, h2⟩ := hios
    obtain ⟨io, rfl, hio⟩ := List.map_eq_singleton_iff.1 h2
    exact ⟨ios', io, rfl, h1, hio⟩
  obtain ⟨hremove, htallies'⟩ := htallies.remove (List.mem_append_right ios List.mem_cons_self)
  rw [filter_last htallies.nodup] at htallies'
  obtain ⟨hid, hkind⟩ := Prod.mk.inj hio
  rw [hid, hkind] at hremove htallies'
  refine ⟨_, completeOne_eq hcontexts hids hremove, ?_, rfl, rfl⟩
  constructor
  case generator => exact h.generator
  case ids => exact h.ids
  case once =>
    show (s.completed ++ [r] ++ outstanding).Perm s.submitted
    refine List.Perm.trans ?_ h.once
    rw [List.append_assoc]
    exact List.perm_append_comm.append_left s.completed
  case pendingIds => rfl
  case contexts =>
    have hperm := h.contexts
    rw [hcontexts, List.map_append, List.map_singleton, List.perm_append_right_iff] at hperm
    exact hperm
  case registered => exact ⟨ios, htallies', hios⟩
  case ready =>
    show s.readyContexts ++ [r.context] = (s.completed ++ [r]).map IoRecord.context
    rw [List.map_append, h.ready]
    rfl
  case moved =>
    intro c
    show Function.update s.moves r.context (s.moves r.context + 1) c
      = (s.readyContexts ++ [r.context]).count c
    rw [List.count_append]
    rcases eq_or_ne c r.context with rfl | hc
    · rw [Function.update_self, h.moved, List.count_singleton_self]
    · rw [Function.update_of_ne hc, h.moved, List.count_singleton]
      simp [hc.symm]
  case tagged =>
    intro c
    show Function.update s.tag r.context (some r.kind) c
      = ((s.completed ++ [r]).reverse.find? (fun r => r.context = c)).map IoRecord.kind
    rw [List.reverse_append, List.reverse_singleton, List.singleton_append, List.find?_cons]
    rcases eq_or_ne c r.context with rfl | hc
    · rw [Function.update_self]
      simp
    · rw [Function.update_of_ne hc, h.tagged]
      simp [hc.symm]

/-! ## §4. A call. -/

omit [DecidableEq C] in
/-- What is popped first, and what is popped after it. -/
theorem popped_concat {ids : List (Nat × IoKind)} {contexts : List C}
    (hlen : ids.length = contexts.length) (n : Nat) (i : Nat × IoKind) (c : C) :
    popped (n + 1) (ids ++ [i]) (contexts ++ [c]) = (i, c) :: popped n ids contexts := by
  unfold popped
  rw [List.zip_append hlen]
  simp

/-- The loop, round by round. -/
theorem Inv.completeLoop : ∀ (n : Nat) {s : FileCompletions C} {outstanding : List (IoRecord C)},
    s.Inv outstanding →
    (∀ p ∈ popped n s.pendingIds s.pendingContexts, ⟨p.1.1, p.1.2, p.2⟩ ∈ s.submitted) →
    ∃ s' k outstanding', s.completeLoop n = some (s', k) ∧ s'.Inv outstanding' := by
  intro n
  induction n with
  | zero => exact fun h _ => ⟨_, _, _, rfl, h⟩
  | succ n ih =>
      intro s outstanding h hmatch
      unfold FileCompletions.completeLoop
      rcases List.eq_nil_or_concat' s.pendingContexts with hnil | ⟨contexts, c, hcontexts⟩
      · rw [hnil]
        exact ⟨s, 0, outstanding, rfl, h⟩
      · have hlen := h.contexts.length_eq
        rw [hcontexts, List.length_append, List.length_map] at hlen
        rcases List.eq_nil_or_concat' outstanding with rfl | ⟨out, r, rfl⟩
        · simp at hlen
        · have hids : s.pendingIds = out.map (fun r => (r.id, r.kind)) ++ [(r.id, r.kind)] := by
            rw [h.pendingIds, List.map_append]
            rfl
          have hlen' : (out.map (fun r => (r.id, r.kind))).length = contexts.length := by
            simpa using hlen.symm
          rw [hids, hcontexts, popped_concat hlen', List.forall_mem_cons] at hmatch
          -- the context popped is the one this I/O was submitted with
          have hr : r = ⟨r.id, r.kind, c⟩ :=
            h.eq_of_id (h.once.mem_iff.1 (by simp)) hmatch.1 rfl
          have hc : r.context = c := congrArg IoRecord.context hr
          obtain ⟨s', hone, hinv, hsub, hctx⟩ := h.completeOne (hc ▸ hcontexts)
          obtain ⟨s'', k, outstanding', hloop, hinv'⟩ := ih hinv (by
            rw [hinv.pendingIds, hctx, hsub]
            exact hmatch.2)
          refine ⟨s'', k + 1, outstanding', ?_, hinv'⟩
          rw [if_neg (by rw [hcontexts]; simp), hone, Option.bind_some, hloop]
          rfl

theorem Inv.step (h : s.Inv outstanding) {c : Call C} (hc : s.Matched c) :
    ∃ s' outstanding', s.step c = some s' ∧ s'.Inv outstanding' := by
  cases c with
  | asynchRead context now => exact ⟨_, _, rfl, h.asynchIo hc .read context now⟩
  | asynchWrite context now => exact ⟨_, _, rfl, h.asynchIo hc .write context now⟩
  | processCompletion max order =>
      -- the shuffle alone keeps the books
      have hshuffled : Inv { s with pendingContexts := order } outstanding :=
        ⟨h.generator, h.ids, h.once, h.pendingIds, hc.1.trans h.contexts, h.registered, h.ready,
          h.moved, h.tagged⟩
      obtain ⟨s', k, outstanding', hloop, hinv⟩ := Inv.completeLoop (rounds max) hshuffled hc.2
      refine ⟨s', outstanding', ?_, hinv⟩
      show (FileCompletions.completeLoop _ _).map Prod.fst = some s'
      rw [hloop]
      rfl

/-! ## §5. Runs. -/

theorem Inv.run : ∀ (calls : List (Call C)) {s : FileCompletions C}
    {outstanding : List (IoRecord C)}, s.Inv outstanding → s.AllMatched calls →
    ∃ s' outstanding', s.run calls = some s' ∧ s'.Inv outstanding' := by
  intro calls
  induction calls with
  | nil => exact fun h _ => ⟨_, _, rfl, h⟩
  | cons c cs ih =>
      intro s outstanding h hall
      obtain ⟨s₁, out₁, hstep, hinv₁⟩ := h.step hall.1
      obtain ⟨s', out', hrun, hinv'⟩ := ih hinv₁ (hall.2 s₁ hstep)
      refine ⟨s', out', ?_, hinv'⟩
      show (s.step c).bind _ = some s'
      rw [hstep]
      exact hrun

/-- **Completions match their I/O.**  Along every run in which each context is
popped together with an I/O it was submitted with, no assertion fails; every I/O
is pending or was completed, once, with its own context and tag; the contexts of
the completed ones were moved on and made ready; and the estimator has the ids of
the pending ones. -/
theorem run_completions (calls : List (Call C)) (hcalls : (opened : FileCompletions C).AllMatched
    calls) :
    ∃ s outstanding, (opened : FileCompletions C).run calls = some s
      ∧ (s.completed ++ outstanding).Perm s.submitted
      ∧ (s.submitted.map IoRecord.id).Nodup
      ∧ s.readyContexts = s.completed.map IoRecord.context
      ∧ (∀ c, s.moves c = s.readyContexts.count c)
      ∧ (∀ c, s.tag c
          = (s.completed.reverse.find? (fun r => r.context = c)).map IoRecord.kind)
      ∧ s.pendingContexts.Perm (outstanding.map IoRecord.context)
      ∧ ∀ id, (∃ t, s.estimator.idToTime id = some t) ↔ ∃ r ∈ outstanding, r.id = id := by
  obtain ⟨s, outstanding, hrun, h⟩ := Inv.run calls Inv.opened hcalls
  refine ⟨s, outstanding, hrun, h.once, h.ids ▸ List.nodup_range, h.ready, h.moved, h.tagged,
    h.contexts, fun id => ?_⟩
  obtain ⟨ios, htallies, hios⟩ := h.registered
  have hmem : (∃ io ∈ ios, io.id = id) ↔ ∃ r ∈ outstanding, r.id = id := by
    have heq : ios.map Estimator.PendingIo.id = outstanding.map IoRecord.id := by
      have := congrArg (List.map Prod.fst) (hios.trans h.pendingIds)
      simpa [List.map_map, Function.comp_def] using this
    rw [← List.mem_map, heq, List.mem_map]
  rw [← hmem]
  constructor
  · rintro ⟨t, ht⟩
    obtain ⟨io, hio, hid, -⟩ := (htallies.ids id t).1 ht
    exact ⟨io, hio, hid⟩
  · rintro ⟨io, hio, rfl⟩
    exact ⟨io.start, (htallies.ids io.id io.start).2 ⟨io, hio, rfl, rfl⟩⟩

/-- A read and a write, and a call that completes one of them in place. -/
theorem run_completions_in_place :
    ∃ s outstanding, (opened : FileCompletions Nat).run
        [.asynchRead 1 0, .asynchWrite 2 0, .processCompletion 1 [1, 2]] = some s
      ∧ (s.completed ++ outstanding).Perm s.submitted :=
  let ⟨s, outstanding, hrun, honce, _⟩ := run_completions
    [.asynchRead 1 0, .asynchWrite 2 0, .processCompletion 1 [1, 2]] (by
      refine ⟨show 0 < 2 ^ 64 by decide, fun s₁ h₁ => ?_⟩
      cases h₁
      refine ⟨show 1 < 2 ^ 64 by decide, fun s₂ h₂ => ?_⟩
      cases h₂
      exact ⟨⟨by decide, by decide⟩, fun _ _ => trivial⟩)
  ⟨s, outstanding, hrun, honce⟩

/-- **Swapped contexts.**  Context 1 submits a read and context 2 a write; the
shuffle exchanges the two.  Context 1 is then tagged as having written, and
context 2 as having read. -/
theorem run_completions_swapped :
    ∃ s s', (opened : FileCompletions Nat).run [.asynchRead 1 0, .asynchWrite 2 0] = some s
      ∧ s.submitted = [⟨0, .read, 1⟩, ⟨1, .write, 2⟩] ∧ [2, 1].Perm s.pendingContexts
      ∧ s.step (.processCompletion 0 [2, 1]) = some s'
      ∧ s'.completed = [⟨1, .write, 1⟩, ⟨0, .read, 2⟩]
      ∧ s'.tag 1 = some .write ∧ s'.tag 2 = some .read := by
  exact ⟨_, _, rfl, rfl, by decide, rfl, rfl, rfl, rfl⟩

end FileCompletions

end NvmTree.Blk
