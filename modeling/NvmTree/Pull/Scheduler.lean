/-
  NvmTree.Pull.Scheduler — `scheduler::process_ready_contexts`.

  The function moves contexts out of the ready list in one loop and runs them in a
  second one, so that what the runs push onto the same list comes after what is
  left.  The first loop tests `processed < max`, but `processed` only counts in the
  SECOND loop: with `max > 0` the first one takes the whole list.

  Main results:
    * `processReadyContexts_all` — with `max > 0` every context of the list runs.
    * `processReadyContexts_exact` — if `max` is 0 or at least the length of the
      list, the batch is what its bound says.
    * `batch_of_one_runs_two` — two contexts run although `max` is 1.
-/
import Mathlib.Data.List.Basic
import Mathlib.Tactic.Common

namespace NvmTree

namespace PullBasedBPlusTree

/-! ## §1. The scheduler's loops. -/

/-- What the scheduler uses of the contexts `C`, in a state `σ` of the tree. -/
structure ContextOps (C σ : Type*) where
  tag : σ → C → Int
  id : σ → C → Nat
  /-- `run`, with the contexts that it pushes onto the list being processed. -/
  run : C → σ → σ × List C

variable {C σ : Type*} (o : ContextOps C σ)

def ContextOps.compare (s : σ) (l r : C) : Bool :=
  if o.tag s l = o.tag s r then decide (o.id s l < o.id s r) else decide (o.tag s l < o.tag s r)

/-- A comparison that `std::sort` accepts. -/
structure StrictWeakOrder (cmp : C → C → Bool) : Prop where
  asymm : ∀ a b, cmp a b = true → cmp b a = false
  trans : ∀ a b c, cmp b a = false → cmp c b = false → cmp c a = false

/-- What `std::sort` promises; the order of equal elements is left open. -/
structure IsStdSort (sort : (C → C → Bool) → List C → List C) : Prop where
  perm : ∀ cmp l, (sort cmp l).Perm l
  sorted : ∀ cmp l, StrictWeakOrder cmp → (sort cmp l).Pairwise (fun a b => cmp b a = false)

/-- The first loop: `to_be_processed`, and what is left in the list. -/
def takeLoop (max processed : Int) : List C → List C × List C
  | [] => ([], [])
  | c :: rest =>
      -- `processed` is not counted here
      if processed < max then
        let (toBeProcessed, left) := takeLoop max processed rest
        (c :: toBeProcessed, left)
      else ([], c :: rest)

/-- What `process_ready_contexts` returns and leaves; `ran` are the contexts in the
order they were run. -/
structure Batch (C σ : Type*) where
  processed : Int
  ran : List C
  readyContexts : List C
  state : σ

/-- The second loop. -/
def runLoop : List C → Batch C σ → Batch C σ
  | [], b => b
  | c :: rest, b =>
      let (state, pushed) := o.run c b.state
      runLoop rest ⟨b.processed + 1, b.ran ++ [c], b.readyContexts ++ pushed, state⟩

def processReadyContexts (stdSort : (C → C → Bool) → List C → List C) (readyContexts : List C)
    (max : Int) (sort : Bool) (s : σ) : Batch C σ :=
  if readyContexts.isEmpty then ⟨0, [], readyContexts, s⟩
  else
    let ready := if sort then stdSort (o.compare s) readyContexts else readyContexts
    let (toBeProcessed, left) := takeLoop max 0 ready
    runLoop o toBeProcessed ⟨0, [], left, s⟩

/-- `process_new_context` never sorts. -/
def processNewContext (stdSort : (C → C → Bool) → List C → List C)
    (admissionContexts : List C) (max : Int) (_sort : Bool) (s : σ) : Batch C σ :=
  processReadyContexts o stdSort admissionContexts max false s

/-! ## §2. What the loops do. -/

theorem takeLoop_take {max processed : Int} (h : processed < max) (l : List C) :
    takeLoop max processed l = (l, []) := by
  induction l with
  | nil => rfl
  | cons c rest ih => rw [takeLoop, if_pos h, ih]

theorem takeLoop_leave {max processed : Int} (h : ¬ processed < max) (l : List C) :
    takeLoop max processed l = ([], l) := by
  cases l with
  | nil => rfl
  | cons c rest => rw [takeLoop, if_neg h]

/-- Running contexts one after the other: the state, and all that they pushed. -/
def ContextOps.runAll : List C → σ → σ × List C
  | [], s => (s, [])
  | c :: rest, s =>
      let (s', pushed) := o.run c s
      ((runAll rest s').1, pushed ++ (runAll rest s').2)

theorem runLoop_eq (l : List C) (b : Batch C σ) :
    runLoop o l b = ⟨b.processed + l.length, b.ran ++ l,
      b.readyContexts ++ (o.runAll l b.state).2, (o.runAll l b.state).1⟩ := by
  induction l generalizing b with
  | nil => simp [runLoop, ContextOps.runAll]
  | cons c rest ih =>
      simp only [runLoop, ContextOps.runAll, ih, List.length_cons, List.append_assoc,
        List.singleton_append]
      congr 1
      omega

theorem compare_strictWeakOrder (s : σ) : StrictWeakOrder (o.compare s) := by
  refine ⟨fun a b h => ?_, fun a b c h₁ h₂ => ?_⟩
  · unfold ContextOps.compare at h ⊢
    split at h <;> split <;> simp_all <;> omega
  · unfold ContextOps.compare at h₁ h₂ ⊢
    split at h₁ <;> split at h₂ <;> split <;> simp_all <;> omega

/-! ## §3. Whole batches. -/

section Batches

variable {stdSort : (C → C → Bool) → List C → List C} {readyContexts : List C} {sort : Bool}

/-- The order in which a batch is taken: `(tag, id)` order if it is sorted. -/
def ContextOps.InOrder (s : σ) (readyContexts : List C) (sort : Bool) (l : List C) : Prop :=
  l.Perm readyContexts
    ∧ if sort then l.Pairwise (fun a b => o.compare s b a = false) else l = readyContexts

/-- What the bound `max` says: the first `max` contexts run, each once per
occurrence; the others stay, in order, before those that the runs pushed. -/
def ContextOps.ExactBatch (readyContexts : List C) (max : Nat) (sort : Bool) (s : σ)
    (b : Batch C σ) : Prop :=
  ∃ l, o.InOrder s readyContexts sort l
    ∧ b.ran = l.take max
    ∧ b.processed = min (max : Int) readyContexts.length
    ∧ b.readyContexts = l.drop max ++ (o.runAll (l.take max) s).2
    ∧ b.state = (o.runAll (l.take max) s).1

/-- The list after the call of `std::sort`, if there is one. -/
def ContextOps.ordered (stdSort : (C → C → Bool) → List C → List C) (readyContexts : List C)
    (sort : Bool) (s : σ) : List C :=
  if sort then stdSort (o.compare s) readyContexts else readyContexts

theorem ordered_inOrder (hsort : IsStdSort stdSort) (s : σ) (readyContexts : List C)
    (sort : Bool) :
    o.InOrder s readyContexts sort (o.ordered stdSort readyContexts sort s) := by
  cases sort with
  | false => exact ⟨List.Perm.refl _, rfl⟩
  | true => exact ⟨hsort.perm _ _, hsort.sorted _ _ (compare_strictWeakOrder o s)⟩

/-- The early return for an empty list returns what the loops would. -/
theorem processReadyContexts_eq (hsort : IsStdSort stdSort) (readyContexts : List C) (max : Int)
    (sort : Bool) (s : σ) :
    processReadyContexts o stdSort readyContexts max sort s
      = runLoop o (takeLoop max 0 (o.ordered stdSort readyContexts sort s)).1
          ⟨0, [], (takeLoop max 0 (o.ordered stdSort readyContexts sort s)).2, s⟩ := by
  unfold processReadyContexts
  cases readyContexts with
  | nil =>
      have hlen := (ordered_inOrder o hsort s [] sort).1.length_eq
      rw [List.eq_nil_of_length_eq_zero hlen]
      rfl
  | cons c rest =>
      rw [if_neg (by simp)]
      rfl

/-- **A bound above 0 is no bound**: the whole list runs. -/
theorem processReadyContexts_all (hsort : IsStdSort stdSort) (readyContexts : List C) {max : Int}
    (hmax : 0 < max) (sort : Bool) (s : σ) :
    ∃ l, o.InOrder s readyContexts sort l
      ∧ processReadyContexts o stdSort readyContexts max sort s
        = ⟨readyContexts.length, l, (o.runAll l s).2, (o.runAll l s).1⟩ := by
  have hord := ordered_inOrder o hsort s readyContexts sort
  refine ⟨_, hord, ?_⟩
  rw [processReadyContexts_eq o hsort, takeLoop_take hmax, runLoop_eq, ← hord.1.length_eq]
  simp

/-- **When the bound holds**: it is 0, or the list is not longer. -/
theorem processReadyContexts_exact (hsort : IsStdSort stdSort) (readyContexts : List C)
    (max : Nat) (hmax : max = 0 ∨ readyContexts.length ≤ max) (sort : Bool) (s : σ) :
    o.ExactBatch readyContexts max sort s
      (processReadyContexts o stdSort readyContexts max sort s) := by
  by_cases hpos : max = 0
  · subst hpos
    refine ⟨_, ordered_inOrder o hsort s readyContexts sort, ?_⟩
    rw [processReadyContexts_eq o hsort, takeLoop_leave (by decide), runLoop_eq]
    refine ⟨rfl, ?_, by simp [ContextOps.runAll], rfl⟩
    simp only [List.length_nil]
    omega
  · have hle : readyContexts.length ≤ max := hmax.resolve_left hpos
    obtain ⟨l, hl, heq⟩ := processReadyContexts_all o hsort readyContexts
      (show (0 : Int) < (max : Int) by omega) sort s
    have hlen := hl.1.length_eq
    refine ⟨l, hl, ?_⟩
    rw [heq, List.take_of_length_le (by omega), List.drop_of_length_le (by omega)]
    refine ⟨rfl, ?_, rfl, rfl⟩
    simp only
    omega

/-! ## §4. Two contexts. -/

/-- Contexts that are their own id, have one tag, and push nothing. -/
def plainOps : ContextOps Nat Unit := ⟨fun _ _ => 0, fun _ c => c, fun _ s => (s, [])⟩

/-- A stable sort is a `std::sort`. -/
def stableSort (cmp : C → C → Bool) (l : List C) : List C := l.mergeSort (fun a b => !cmp b a)

theorem stableSort_isStdSort : IsStdSort (stableSort : (C → C → Bool) → List C → List C) := by
  refine ⟨fun cmp l => List.mergeSort_perm l _, fun cmp l h => ?_⟩
  have htrans : ∀ a b c, (!cmp b a) = true → (!cmp c b) = true → (!cmp c a) = true := by
    intro a b c hab hbc
    simpa using h.trans a b c (by simpa using hab) (by simpa using hbc)
  have htotal : ∀ a b, ((!cmp b a) || (!cmp a b)) = true := by
    intro a b
    cases hc : cmp b a with
    | false => simp
    | true => simp [h.asymm b a hc]
  exact (List.pairwise_mergeSort htrans htotal l).imp (fun hab => by simpa using hab)

/-- Three contexts and room for three. -/
theorem processReadyContexts_three :
    plainOps.ExactBatch [2, 0, 1] 3 true ()
      (processReadyContexts plainOps stableSort [2, 0, 1] (3 : Nat) true ()) :=
  processReadyContexts_exact plainOps stableSort_isStdSort [2, 0, 1] 3 (Or.inr (by decide)) true ()

/-- **The bound is not kept**: two contexts run with `max = 1`. -/
theorem batch_of_one_runs_two :
    (processReadyContexts plainOps stableSort [0, 1] 1 false ()).ran = [0, 1]
      ∧ (processReadyContexts plainOps stableSort [0, 1] 1 false ()).processed = 2
      ∧ ¬ plainOps.ExactBatch [0, 1] 1 false ()
        (processReadyContexts plainOps stableSort [0, 1] (1 : Nat) false ()) := by
  refine ⟨rfl, rfl, ?_⟩
  rintro ⟨l, -, -, hprocessed, -, -⟩
  have htwo : (2 : Int) = min ((1 : Nat) : Int) ([0, 1] : List Nat).length := hprocessed
  exact absurd htwo (by decide)

end Batches

end PullBasedBPlusTree

end NvmTree
