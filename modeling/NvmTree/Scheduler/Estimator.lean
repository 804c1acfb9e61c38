/-
  NvmTree.Scheduler.Estimator — `ready_state_estimator`.

  The estimator keeps the start times of the pending reads and of the pending
  writes in two arrays, and the start time of every pending I/O by its id.  A
  removal goes from the id to the time and then to the FIRST equal time in the
  array, whichever I/O it was pushed for; an estimate counts from the front and
  stops at the first time that is not ready.

  Both need the arrays sorted, and sorted they stay: the times are pushed in
  order and an element is taken out of wherever it is.

  Main results:
    * `Tallies`, `Inv` — the arrays hold the start times of what is pending, and
      are sorted.
    * `Tallies.remove` — a removal finds its element.
    * `run_exact` — along every sequence of calls the estimates are the
      number of pending I/Os that are ready.
-/
import NvmTree.Lib.ListSplit
import Mathlib.Algebra.Group.Int.Defs
import Mathlib.Algebra.Group.Nat.Defs
import Mathlib.Data.List.Perm.Basic
import Mathlib.Data.List.Perm.Subperm
import Mathlib.Logic.Function.Basic
import Mathlib.Tactic.Common

namespace NvmTree

/-! ## §1. The estimator. -/

inductive IoKind where
  | read
  | write
  deriving Repr, DecidableEq

/-- `timeArray .read` is `read_time_array_` and `latency .read` is
`read_latency`; so for writes.  `idToTime` is `id_to_time_`. -/
structure Estimator where
  timeArray : IoKind → List Nat
  idToTime : Nat → Option Nat
  latency : IoKind → Nat

namespace Estimator

/-- The constructor. -/
def new (readyLat writeLat : Nat) : Estimator where
  timeArray _ := []
  idToTime _ := none
  latency
    | .read => readyLat
    | .write => writeLat

def registerIo (kind : IoKind) (e : Estimator) (id currentTimestamp : Nat) : Estimator :=
  { e with
    timeArray := Function.update e.timeArray kind (e.timeArray kind ++ [currentTimestamp])
    idToTime := Function.update e.idToTime id (some currentTimestamp) }

def registerReadIo : Estimator → Nat → Nat → Estimator := registerIo .read

def registerWriteIo : Estimator → Nat → Nat → Estimator := registerIo .write

/-- `while (*it != time) ++it;`, and the element found erased; `none`: the loop
has run past the array. -/
def eraseFirst (time : Nat) : List Nat → Option (List Nat)
  | [] => none
  | x :: rest => if x = time then some rest else (eraseFirst time rest).map (x :: ·)

/-- `remove_read_io` and `remove_write_io`; `none` also when the id is not
registered, which the source asserts. -/
def removeIo (kind : IoKind) (e : Estimator) (id : Nat) : Option Estimator := do
  let time ← e.idToTime id
  let times ← eraseFirst time (e.timeArray kind)
  return { e with
    timeArray := Function.update e.timeArray kind times
    idToTime := Function.update e.idToTime id none }

def removeReadIo : Estimator → Nat → Option Estimator := removeIo .read

def removeWriteIo : Estimator → Nat → Option Estimator := removeIo .write

/-- The counting loop, over the times from `it` on; the sum is a `uint64_t`. -/
def readyCount (latency timestamp : Nat) : List Nat → Nat
  | [] => 0
  | x :: rest =>
      if (x + latency) % 2 ^ 64 ≤ timestamp then readyCount latency timestamp rest + 1 else 0

def estimateNumberOfReady (kind : IoKind) (e : Estimator) (timestamp : Nat) : Nat :=
  readyCount (e.latency kind) timestamp (e.timeArray kind)

def estimateNumberOfReadyReads : Estimator → Nat → Nat := estimateNumberOfReady .read

def estimateNumberOfReadyWrites : Estimator → Nat → Nat := estimateNumberOfReady .write

def updateLatency (kind : IoKind) (e : Estimator) (lat : Nat) : Estimator :=
  { e with latency := Function.update e.latency kind lat }

def getNumberOfPendingState (e : Estimator) : Nat :=
  (e.timeArray .read).length + (e.timeArray .write).length

/-! ## §2. Calls, and what is pending after them. -/

inductive Call where
  | registerIo (kind : IoKind) (id currentTimestamp : Nat)
  | removeIo (kind : IoKind) (id : Nat)
  | updateLatency (kind : IoKind) (lat : Nat)
  deriving Repr, DecidableEq

def call (e : Estimator) : Call → Option Estimator
  | .registerIo kind id now => some (e.registerIo kind id now)
  | .removeIo kind id => e.removeIo kind id
  | .updateLatency kind lat => some (e.updateLatency kind lat)

def run : Estimator → List Call → Option Estimator
  | e, [] => some e
  | e, c :: cs => (e.call c).bind (run · cs)

/-- A registered I/O that was not removed yet. -/
structure PendingIo where
  id : Nat
  kind : IoKind
  start : Nat
  deriving Repr, DecidableEq

/-- What the calls so far amount to: the pending I/Os, the latest timestamp and
the latencies. -/
structure History where
  pending : List PendingIo
  latest : Nat
  latency : IoKind → Nat

namespace History

def next (h : History) : Call → History
  | .registerIo kind id now => { h with pending := h.pending ++ [⟨id, kind, now⟩], latest := now }
  | .removeIo _ id => { h with pending := h.pending.filter (fun io => io.id ≠ id) }
  | .updateLatency kind lat => { h with latency := Function.update h.latency kind lat }

/-- Ids are not reused while pending, time does not go back, and what is removed
is pending and of the kind. -/
def Allows (h : History) : Call → Prop
  | .registerIo _ id now => (∀ io ∈ h.pending, io.id ≠ id) ∧ h.latest ≤ now
  | .removeIo kind id => ∃ io ∈ h.pending, io.id = id ∧ io.kind = kind
  | .updateLatency _ _ => True

def AllowsAll : History → List Call → Prop
  | _, [] => True
  | h, c :: cs => h.Allows c ∧ (h.next c).AllowsAll cs

end History

/-! ## §3. One call. -/

/-- The start times of the pending I/Os of one kind. -/
def startsOf (pending : List PendingIo) (kind : IoKind) : List Nat :=
  (pending.filter (fun io => io.kind = kind)).map PendingIo.start

/-- The arrays hold the start times of what is pending, whatever the order. -/
structure Tallies (e : Estimator) (pending : List PendingIo) : Prop where
  nodup : (pending.map PendingIo.id).Nodup
  times : ∀ kind, (e.timeArray kind).Perm (startsOf pending kind)
  ids : ∀ id t, e.idToTime id = some t ↔ ∃ io ∈ pending, io.id = id ∧ io.start = t

/-- The arrays are the sorted start times of what is pending. -/
structure Inv (e : Estimator) (h : History) : Prop extends e.Tallies h.pending where
  sorted : ∀ kind, (e.timeArray kind).Pairwise (· ≤ ·)
  latest : ∀ io ∈ h.pending, io.start ≤ h.latest
  latency : e.latency = h.latency

variable {e : Estimator} {h : History} {pending : List PendingIo}

theorem Tallies.new (readyLat writeLat : Nat) : (new readyLat writeLat).Tallies [] where
  nodup := List.nodup_nil
  times _ := List.Perm.refl _
  ids id t := by simp [Estimator.new]

theorem Inv.new (readyLat writeLat : Nat) :
    (new readyLat writeLat).Inv ⟨[], 0, (new readyLat writeLat).latency⟩ where
  toTallies := .new readyLat writeLat
  sorted _ := List.Pairwise.nil
  latest _ hio := absurd hio List.not_mem_nil
  latency := rfl

theorem Inv.time_le (hinv : e.Inv h) {kind : IoKind} {t : Nat} (ht : t ∈ e.timeArray kind) :
    t ≤ h.latest := by
  obtain ⟨io, hio, rfl⟩ := List.mem_map.1 ((hinv.times kind).mem_iff.1 ht)
  exact hinv.latest io (List.mem_filter.1 hio).1

theorem Tallies.register (hp : e.Tallies pending) {id : Nat}
    (hnew : ∀ io ∈ pending, io.id ≠ id) (kind : IoKind) (now : Nat) :
    (e.registerIo kind id now).Tallies (pending ++ [⟨id, kind, now⟩]) where
  nodup := by
    rw [List.map_append, List.nodup_append]
    refine ⟨hp.nodup, by simp, ?_⟩
    intro x hx y hy
    obtain ⟨io, hio, rfl⟩ := List.mem_map.1 hx
    rw [List.map_singleton, List.mem_singleton] at hy
    rw [hy]
    exact hnew io hio
  times k := by
    show (Function.update e.timeArray kind _ k).Perm (startsOf (pending ++ [_]) k)
    have hk := hp.times k
    unfold startsOf at hk ⊢
    rw [List.filter_append, List.map_append]
    rcases eq_or_ne k kind with rfl | hne
    · rw [Function.update_self]
      simpa using hk.append_right [now]
    · rw [Function.update_of_ne hne]
      simpa [hne.symm] using hk
  ids i t := by
    show Function.update e.idToTime id (some now) i = some t
      ↔ ∃ io ∈ pending ++ [⟨id, kind, now⟩], io.id = i ∧ io.start = t
    rcases eq_or_ne i id with rfl | hi
    · rw [Function.update_self, Option.some.injEq]
      constructor
      · rintro rfl
        exact ⟨⟨i, kind, now⟩, by simp, rfl, rfl⟩
      · rintro ⟨io, hio, hid, rfl⟩
        rcases List.mem_append.1 hio with hio | hio
        · exact absurd hid (hnew io hio)
        · rw [List.mem_singleton.1 hio]
    · rw [Function.update_of_ne hi, hp.ids]
      constructor
      · rintro ⟨io, hio, h1, h2⟩
        exact ⟨io, List.mem_append_left _ hio, h1, h2⟩
      · rintro ⟨io, hio, h1, h2⟩
        rcases List.mem_append.1 hio with hio | hio
        · exact ⟨io, hio, h1, h2⟩
        · rw [List.mem_singleton.1 hio] at h1
          exact absurd h1.symm hi

theorem register_inv (hinv : e.Inv h) {kind : IoKind} {id now : Nat}
    (hnew : ∀ io ∈ h.pending, io.id ≠ id) (hnow : h.latest ≤ now) :
    (e.registerIo kind id now).Inv (h.next (.registerIo kind id now)) where
  toTallies := hinv.toTallies.register hnew kind now
  sorted k := by
    show (Function.update e.timeArray kind _ k).Pairwise (· ≤ ·)
    rcases eq_or_ne k kind with rfl | hk
    · rw [Function.update_self, List.pairwise_append]
      refine ⟨hinv.sorted k, List.pairwise_singleton _ _, ?_⟩
      intro x hx y hy
      rw [List.mem_singleton.1 hy]
      exact Nat.le_trans (hinv.time_le hx) hnow
    · rw [Function.update_of_ne hk]
      exact hinv.sorted k
  latest io hio := by
    rcases List.mem_append.1 hio with hio | hio
    · exact Nat.le_trans (hinv.latest io hio) hnow
    · rw [List.mem_singleton.1 hio]
      exact Nat.le_refl now
  latency := hinv.latency

/-- The loop stops at the first equal time, if there is one. -/
theorem eraseFirst_eq {time : Nat} {times : List Nat} (ht : time ∈ times) :
    eraseFirst time times = some (times.erase time) := by
  induction times with
  | nil => exact absurd ht List.not_mem_nil
  | cons x rest ih =>
      show (if x = time then some rest else (eraseFirst time rest).map (x :: ·)) = _
      by_cases hx : x = time
      · rw [if_pos hx, hx, List.erase_cons_head]
      · have hrest : time ∈ rest := (List.mem_cons.1 ht).resolve_left (Ne.symm hx)
        rw [if_neg hx, ih hrest, List.erase_cons_tail (by simpa using hx)]
        rfl

theorem removeIo_eq {kind : IoKind} {id time : Nat} (htime : e.idToTime id = some time)
    (hmem : time ∈ e.timeArray kind) :
    e.removeIo kind id = some { e with
      timeArray := Function.update e.timeArray kind ((e.timeArray kind).erase time)
      idToTime := Function.update e.idToTime id none } := by
  simp [removeIo, htime, eraseFirst_eq hmem]

/-- The start times without those of the I/O that is removed. -/
theorem startsOf_perm (hnodup : (pending.map PendingIo.id).Nodup) {io : PendingIo}
    (hio : io ∈ pending) (k : IoKind) :
    (startsOf pending k).Perm (if io.kind = k
      then io.start :: startsOf (pending.filter (fun x => x.id ≠ io.id)) k
      else startsOf (pending.filter (fun x => x.id ≠ io.id)) k) := by
  have hperm := ((ListSplit.perm_apart hnodup hio).filter (fun x => x.kind = k)).map PendingIo.start
  by_cases hk : io.kind = k
  · rw [List.filter_cons_of_pos (by simpa using hk)] at hperm
    rw [if_pos hk]
    exact hperm
  · rw [List.filter_cons_of_neg (by simpa using hk)] at hperm
    rw [if_neg hk]
    exact hperm

/-- **A removal finds its element.**  The time taken out may have been pushed for
another I/O with the same start; the multiset of the times does not tell. -/
theorem Tallies.remove (hp : e.Tallies pending) {io : PendingIo} (hio : io ∈ pending) :
    e.removeIo io.kind io.id = some { e with
        timeArray := Function.update e.timeArray io.kind ((e.timeArray io.kind).erase io.start)
        idToTime := Function.update e.idToTime io.id none }
      ∧ Tallies { e with
          timeArray := Function.update e.timeArray io.kind ((e.timeArray io.kind).erase io.start)
          idToTime := Function.update e.idToTime io.id none }
        (pending.filter (fun x => x.id ≠ io.id)) := by
  have htime : e.idToTime io.id = some io.start := (hp.ids io.id io.start).2 ⟨io, hio, rfl, rfl⟩
  have hstart : io.start ∈ e.timeArray io.kind :=
    (hp.times io.kind).mem_iff.2 (List.mem_map_of_mem (List.mem_filter.2 ⟨hio, by simp⟩))
  refine ⟨removeIo_eq htime hstart, ?_⟩
  constructor
  case nodup => exact hp.nodup.sublist (List.filter_sublist.map PendingIo.id)
  case times =>
    intro k
    have hperm := startsOf_perm hp.nodup hio k
    show (Function.update e.timeArray io.kind _ k).Perm _
    by_cases hk : io.kind = k
    · subst hk
      rw [Function.update_self]
      rw [if_pos rfl] at hperm
      have herase := ((hp.times io.kind).trans hperm).erase io.start
      rwa [List.erase_cons_head] at herase
    · rw [Function.update_of_ne (Ne.symm hk)]
      rw [if_neg hk] at hperm
      exact (hp.times k).trans hperm
  case ids =>
    intro i t
    show Function.update e.idToTime io.id none i = some t
      ↔ ∃ x ∈ pending.filter (fun x => x.id ≠ io.id), x.id = i ∧ x.start = t
    rcases eq_or_ne i io.id with rfl | hi
    · rw [Function.update_self]
      refine iff_of_false nofun ?_
      rintro ⟨x, hx, hid, -⟩
      simp [hid] at hx
    · rw [Function.update_of_ne hi, hp.ids]
      constructor
      · rintro ⟨x, hx, rfl, rfl⟩
        exact ⟨x, List.mem_filter.2 ⟨hx, by simpa using hi⟩, rfl, rfl⟩
      · rintro ⟨x, hx, h1, h2⟩
        exact ⟨x, (List.mem_filter.1 hx).1, h1, h2⟩

theorem remove_inv (hinv : e.Inv h) {kind : IoKind} {id : Nat}
    (hmem : ∃ io ∈ h.pending, io.id = id ∧ io.kind = kind) :
    ∃ e', e.removeIo kind id = some e' ∧ e'.Inv (h.next (.removeIo kind id)) := by
  obtain ⟨io, hio, rfl, rfl⟩ := hmem
  obtain ⟨hrun, htallies⟩ := hinv.toTallies.remove hio
  refine ⟨_, hrun, htallies, ?_, fun x hx => hinv.latest x (List.mem_filter.1 hx).1, hinv.latency⟩
  intro k
  show (Function.update e.timeArray io.kind _ k).Pairwise (· ≤ ·)
  rcases eq_or_ne k io.kind with rfl | hk
  · rw [Function.update_self]
    exact (hinv.sorted io.kind).sublist List.erase_sublist
  · rw [Function.update_of_ne hk]
    exact hinv.sorted k

theorem call_inv (hinv : e.Inv h) {c : Call} (hc : h.Allows c) :
    ∃ e', e.call c = some e' ∧ e'.Inv (h.next c) := by
  cases c with
  | registerIo kind id now => exact ⟨_, rfl, register_inv hinv hc.1 hc.2⟩
  | removeIo kind id => exact remove_inv hinv hc
  | updateLatency kind lat =>
      refine ⟨_, rfl, ⟨hinv.nodup, hinv.times, hinv.ids⟩, hinv.sorted, hinv.latest, ?_⟩
      show Function.update e.latency kind lat = Function.update h.latency kind lat
      rw [hinv.latency]

/-! ## §4. The estimates. -/

/-- Counting up to the first time that is not ready counts them all, when the
times are sorted and no sum overflows. -/
theorem readyCount_eq {latency timestamp : Nat} {times : List Nat}
    (hsorted : times.Pairwise (· ≤ ·)) (hfit : ∀ x ∈ times, x + latency ≤ 2 ^ 64 - 1) :
    readyCount latency timestamp times = times.countP (fun x => x + latency ≤ timestamp) := by
  induction times with
  | nil => rfl
  | cons x rest ih =>
      rw [List.pairwise_cons] at hsorted
      have hx := hfit x List.mem_cons_self
      have hmod : (x + latency) % 2 ^ 64 = x + latency := Nat.mod_eq_of_lt (by omega)
      show (if (x + latency) % 2 ^ 64 ≤ timestamp then _ else 0) = _
      rw [hmod]
      by_cases hready : x + latency ≤ timestamp
      · rw [if_pos hready, ih hsorted.2 (fun y hy => hfit y (List.mem_cons_of_mem x hy)),
          List.countP_cons_of_pos (by simpa using hready)]
      · -- what started later is not ready either
        rw [if_neg hready, eq_comm, List.countP_eq_zero]
        intro y hy
        rcases List.mem_cons.1 hy with rfl | hy
        · simpa using hready
        · have := hsorted.1 y hy
          simp only [decide_eq_true_eq]
          omega

/-- The pending I/Os of a kind that are ready at `timestamp`. -/
def History.ready (h : History) (kind : IoKind) (timestamp : Nat) : List PendingIo :=
  h.pending.filter (fun io => io.kind = kind ∧ io.start + h.latency kind ≤ timestamp)

theorem Inv.estimate (hinv : e.Inv h) {kind : IoKind} {timestamp : Nat}
    (hfit : ∀ io ∈ h.pending, io.kind = kind → io.start + h.latency kind ≤ 2 ^ 64 - 1) :
    e.estimateNumberOfReady kind timestamp = (h.ready kind timestamp).length := by
  have hfit' : ∀ x ∈ e.timeArray kind, x + h.latency kind ≤ 2 ^ 64 - 1 := by
    intro x hx
    obtain ⟨io, hio, rfl⟩ := List.mem_map.1 ((hinv.times kind).mem_iff.1 hx)
    rw [List.mem_filter, decide_eq_true_eq] at hio
    exact hfit io hio.1 hio.2
  unfold estimateNumberOfReady
  rw [hinv.latency, readyCount_eq (hinv.sorted kind) hfit', (hinv.times kind).countP_eq]
  unfold startsOf History.ready
  rw [List.countP_map, List.countP_filter, List.countP_eq_length_filter]
  congr 1
  refine List.filter_congr (fun io _ => ?_)
  simp [Bool.and_comm]

theorem Inv.pendingState (hinv : e.Inv h) : e.getNumberOfPendingState = h.pending.length := by
  have hsplit : ∀ l : List PendingIo,
      (startsOf l .read).length + (startsOf l .write).length = l.length := by
    intro l
    induction l with
    | nil => rfl
    | cons io l ih =>
        unfold startsOf at ih ⊢
        cases hk : io.kind <;> simp [hk] at ih ⊢ <;> omega
  unfold getNumberOfPendingState
  rw [(hinv.times .read).length_eq, (hinv.times .write).length_eq, hsplit]

/-! ## §5. Runs. -/

theorem run_inv : ∀ (calls : List Call) {e : Estimator} {h : History}, e.Inv h →
    h.AllowsAll calls → ∃ e', e.run calls = some e' ∧ e'.Inv (calls.foldl History.next h) := by
  intro calls
  induction calls with
  | nil => exact fun hinv _ => ⟨_, rfl, hinv⟩
  | cons c cs ih =>
      intro e h hinv hall
      obtain ⟨e₁, hcall, hinv₁⟩ := call_inv hinv hall.1
      obtain ⟨e', hrun, hinv'⟩ := ih hinv₁ hall.2
      refine ⟨e', ?_, hinv'⟩
      show (e.call c).bind _ = some e'
      rw [hcall]
      exact hrun

/-- What the calls amount to, from a new estimator on. -/
def History.after (readyLat writeLat : Nat) (calls : List Call) : History :=
  calls.foldl History.next ⟨[], 0, (new readyLat writeLat).latency⟩

/-- **The estimate is exact bookkeeping.**  Along every sequence of calls with
timestamps that do not decrease, new ids for what is registered and removals of
what is pending, no removal runs past its array; the arrays are the sorted start
times of the pending reads and writes; and the estimates are the number of those
that are ready, as long as no start time plus latency exceeds 2^64 - 1. -/
theorem run_exact (readyLat writeLat : Nat) (calls : List Call)
    (hcalls : History.AllowsAll ⟨[], 0, (new readyLat writeLat).latency⟩ calls) :
    ∃ e, (new readyLat writeLat).run calls = some e
      ∧ (∀ kind, (e.timeArray kind).Perm (startsOf (History.after readyLat writeLat calls).pending kind)
        ∧ (e.timeArray kind).Pairwise (· ≤ ·))
      ∧ ∀ timestamp,
        ((∀ io ∈ (History.after readyLat writeLat calls).pending, io.kind = .read →
            io.start + (History.after readyLat writeLat calls).latency .read ≤ 2 ^ 64 - 1) →
          e.estimateNumberOfReadyReads timestamp
            = ((History.after readyLat writeLat calls).ready .read timestamp).length)
        ∧ ((∀ io ∈ (History.after readyLat writeLat calls).pending, io.kind = .write →
            io.start + (History.after readyLat writeLat calls).latency .write ≤ 2 ^ 64 - 1) →
          e.estimateNumberOfReadyWrites timestamp
            = ((History.after readyLat writeLat calls).ready .write timestamp).length) := by
  obtain ⟨e, hrun, hinv⟩ := run_inv calls (Inv.new readyLat writeLat) hcalls
  exact ⟨e, hrun, fun kind => ⟨hinv.times kind, hinv.sorted kind⟩,
    fun timestamp => ⟨hinv.estimate, hinv.estimate⟩⟩

/-- Two reads at the same time, the first removed after a write. -/
theorem run_exact_mixed :
    ∃ e, (new 10 20).run [.registerIo .read 0 5, .registerIo .read 1 5, .registerIo .write 2 6,
        .removeIo .read 0, .updateLatency .read 7] = some e
      ∧ e.estimateNumberOfReadyReads 12
        = ((History.after 10 20 [.registerIo .read 0 5, .registerIo .read 1 5,
            .registerIo .write 2 6, .removeIo .read 0, .updateLatency .read 7]).ready
            .read 12).length := by
  obtain ⟨e, hrun, -, hest⟩ := run_exact 10 20
    [.registerIo .read 0 5, .registerIo .read 1 5, .registerIo .write 2 6, .removeIo .read 0,
      .updateLatency .read 7]
    (by simp [History.AllowsAll, History.Allows, History.next])
  exact ⟨e, hrun, (hest 12).1 (by simp [History.after, History.next])⟩

end Estimator

end NvmTree
