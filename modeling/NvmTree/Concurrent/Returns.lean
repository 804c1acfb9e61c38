/-
  NvmTree.Concurrent.Returns — every call returns.

  A search or an optimistic insertion that finds another root than it went to starts
  again, so how long a call takes depends on the others.  But the root changes only when
  an insertion replaces it, which each insertion does at most once, and while the root
  stays the same a call gets on with every step: it counts down the levels below it, its
  frames, and whether it has the root that is.  A split changes no level, so a call that
  waits has nothing more to do than before.

  So the pair of the number of insertions that may still replace the root and the sum of
  what each thread has left falls with every step that is no new call.

  Main results:
    * `calls_return` — from every state the threads can take only so many steps.
    * `own_steps`    — how many of them a call takes itself.
-/
import NvmTree.Concurrent.Progress
import NvmTree.Lib.Drain
import Mathlib.Algebra.Order.BigOperators.Group.Finset
import Mathlib.Data.Prod.Lex

namespace NvmTree

open RangeTree

namespace ConcurrentBPlusTree

/-! ## §1. What a call has left. -/

section Cost

variable {K V : Type*}

/-- The steps a search has left at most, while the root stays the same: three a level, and
the way back to the root for one that has got hold of another node. -/
@[simp] def SearchPc.cost (rank : BlkAddress → Nat) (root : BlkAddress) : SearchPc V → Nat
  | .arg => 3 * rank root + 6
  | .lock node true _ => if node = root then 3 * rank root + 5 else 3 * rank root + 9
  | .lock node false _ => 3 * rank node + 5
  | .check node => if node = root then 3 * rank root + 4 else 3 * rank root + 8
  | .retry _ => 3 * rank root + 7
  | .unlockParent node _ => 3 * rank node + 4
  | .read node => 3 * rank node + 3
  | .unlock _ _ => 2
  | .ret _ => 1

/-- The same for the optimistic insertion, after which the pessimistic one may follow,
with `rest` steps. -/
@[simp] def optCost (rank : BlkAddress → Nat) (root : BlkAddress) (rest : Nat) : InsertPc K V → Nat
  | .start => 3 * rank root + rest + 9
  | .optArgs => 3 * rank root + rest + 8
  | .optHeight node =>
      if node = root then 3 * rank root + rest + 7 else 3 * rank root + rest + 12
  | .optRoot _ => 3 * rank root + rest + 7
  | .optLock node _ true _ =>
      if node = root then 3 * rank root + rest + 6 else 3 * rank root + rest + 11
  | .optLock node _ false _ => 3 * rank node + rest + 5
  | .optCheck node _ =>
      if node = root then 3 * rank root + rest + 4 else 3 * rank root + rest + 10
  | .optRetry _ => 3 * rank root + rest + 9
  | .optUnlockParent node _ _ => 3 * rank node + rest + 4
  | .optRead node _ => 3 * rank node + rest + 3
  | .optWrite _ _ => rest + 2
  | .optUnlock _ _ => rest + 1
  | _ => 0

/-- Two steps a level on the way down, and at most seven for each frame on the way up. -/
@[simp] def InsertPc.cost (rank : BlkAddress → Nat) (root : BlkAddress) : InsertPc K V → Nat
  | .arg => 9 * rank root + 12
  | .lock node true parents =>
      if node = root then 9 * rank root + 7 * parents.length + 11
      else 9 * rank root + 7 * parents.length + 15
  | .lock node false parents => 9 * rank node + 7 * parents.length + 10
  | .check node => if node = root then 9 * rank root + 10 else 9 * rank root + 14
  | .retry _ => 9 * rank root + 13
  | .read node _ parents => 9 * rank node + 7 * parents.length + 9
  | .leaf _ _ parents _ => 7 * parents.length + 8
  | .writeLeft _ _ parents _ _ _ => 7 * parents.length + 7
  | .writeRight _ _ parents _ _ _ => 7 * parents.length + 6
  | .newRoot _ _ _ _ => 5
  | .writeRoot _ _ _ _ _ => 4
  | .updateRoot _ _ _ _ _ => 3
  | .writeBack _ parents => 7 * parents.length + 3
  | .inner _ parents _ => 7 * parents.length + 8
  | .unlock _ parents _ => 7 * parents.length + 2
  | .ret => 1
  | pc => optCost rank root (9 * rank root + 12) pc

@[simp] def Thread.cost (rank : BlkAddress → Nat) (root : BlkAddress) : Thread K V → Nat
  | .idle => 0
  | .searching _ _ pc => pc.cost rank root
  | .inserting _ _ _ pc => pc.cost rank root

/-- Whether an insertion may still replace the root. -/
def InsertPc.growth : InsertPc K V → Nat
  | .unlock _ [] _ => 0
  | .ret => 0
  | _ => 1

def Thread.growth : Thread K V → Nat
  | .inserting _ _ _ pc => pc.growth
  | _ => 0

theorem InsertPc.growth_le (pc : InsertPc K V) : pc.growth ≤ 1 := by
  unfold InsertPc.growth
  split
  · exact Nat.zero_le 1
  · exact Nat.zero_le 1
  · exact le_rfl

variable {T : Type*} [LinearOrder K] {cap : Nat} {w : World T K V BlkAddress} {t : T}
  {G' : Plan K BlkAddress} {root x : BlkAddress}

/-- The level of a node. -/
def level (G : Plan K BlkAddress) (x : BlkAddress) : Nat := ((G x).map Span.level).getD 0

omit [LinearOrder K] in
theorem KeepsLevels.level_eq (hle : KeepsLevels w.G G') (hx : w.Knows x) :
    level G' x = level w.G x := by
  obtain ⟨sp, hsp⟩ := hx
  obtain ⟨sp', hsp', hlevel⟩ := hle x sp hsp
  unfold level
  rw [hsp, hsp', Option.map_some, Option.map_some, hlevel]

/-- What a thread has left does not depend on the nodes that are new. -/
theorem ThreadOk.cost_eq {th : Thread K V} (h : ThreadOk cap w t th) (hroot : w.Knows root)
    (hle : KeepsLevels w.G G') : th.cost (level G') root = th.cost (level w.G) root := by
  have hr := hle.level_eq hroot
  cases th with
  | idle => rfl
  | searching id key pc =>
      cases pc with
      | lock node is_root parent =>
          cases is_root with
          | true => simp [hr]
          | false => simp [hle.level_eq h.1.toNear.plan]
      | unlockParent node parent => simp [hle.level_eq h.1.toNear.plan]
      | read node => simp [hle.level_eq h.1.toNear.plan]
      | _ => simp [hr]
  | inserting id key value pc =>
      cases pc with
      | optLock node depth is_root parent =>
          cases is_root with
          | true => simp [hr]
          | false => simp [hr, hle.level_eq h.1.toNear.plan]
      | optUnlockParent node depth parent => simp [hr, hle.level_eq h.1.toNear.plan]
      | optRead node depth => simp [hr, hle.level_eq h.1.toNear.plan]
      | lock node is_root parents =>
          cases is_root with
          | true => simp [hr]
          | false => simp [hle.level_eq h.1.toNear.plan]
      | read node is_root parents =>
          have hdown : Descending cap w t key node is_root parents := h
          simp [hle.level_eq hdown.at_node.toNear.plan]
      | _ => simp [hr]

end Cost

/-! ## §2. Every step counts down. -/

section Steps

variable {T K V : Type*} [DecidableEq T] {rank : BlkAddress → Nat} {s s' : State T K V} {t : T}
  {th : Thread K V} {node : BlkAddress}

/-- The step of `t` replaces the root, or `t` has less left. -/
def Falls (rank : BlkAddress → Nat) (s s' : State T K V) (t : T) : Prop :=
  ∃ th, s'.threads = Function.update s.threads t th
    ∧ (th.growth < (s.threads t).growth ∧ s.depth < s'.depth
      ∨ ((s'.root, s'.depth) = (s.root, s.depth) ∧ th.growth ≤ (s.threads t).growth
        ∧ th.cost rank s.root < (s.threads t).cost rank s.root))

theorem falls_goto {th₀ : Thread K V} (ht : s.threads t = th₀)
    (hthreads : s'.threads = Function.update s.threads t th)
    (hroot : (s'.root, s'.depth) = (s.root, s.depth)) (hgrowth : th.growth ≤ th₀.growth)
    (hcost : th.cost rank s.root < th₀.cost rank s.root) : Falls rank s s' t := by
  refine ⟨th, hthreads, .inr ⟨hroot, ?_, ?_⟩⟩
  · rw [ht]
    exact hgrowth
  · rw [ht]
    exact hcost

theorem falls_acquire {th₀ : Thread K V} {type : LockType} (ht : s.threads t = th₀)
    (hs : s.acquire t node type th = some s') (hgrowth : th.growth ≤ th₀.growth)
    (hcost : th.cost rank s.root < th₀.cost rank s.root) : Falls rank s s' t := by
  unfold State.acquire at hs
  split at hs
  · cases hs
    exact falls_goto ht rfl rfl hgrowth hcost
  · cases hs

variable [LinearOrder K] {cap : Nat} {m₀ m : K → Option V} {E : Store K V BlkAddress}
  {G : Plan K BlkAddress} {order : List (Nat × Op K V × Answer V)} {id : Nat} {key : K} {value : V}

/-- `rank` falls from a node of the tree to its children. -/
def Ranks (rank : BlkAddress → Nat) (w : World T K V BlkAddress) : Prop :=
  ∀ {p x}, w.Parent p x → rank x < rank p

theorem KeepsLevels.ranks {G' : Plan K BlkAddress} (h : Inv cap m₀ s E G m order)
    (hle : KeepsLevels G G') : Ranks (level G') (s.world E G) := by
  rintro p x ⟨sp, slots, k, hG, hE, hm⟩
  obtain ⟨sc, hc, hlevel⟩ := h.ok.level_child hG hE hm
  have hw : KeepsLevels (s.world E G).G G' := hle
  rw [hw.level_eq ⟨sp, hG⟩, hw.level_eq ⟨sc, hc⟩]
  unfold level
  rw [hG, hc]
  exact Nat.lt_of_succ_le hlevel.le

theorem searchStep_falls {pc : SearchPc V} (h : Inv cap m₀ s E G m order)
    (hrank : Ranks rank (s.world E G)) (ht : s.threads t = .searching id key pc)
    (hs : searchStep s t id key pc = some s') : Falls rank s s' t := by
  have hk : SearchOk (s.world E G) t key pc := by
    have := h.know t
    rw [ht] at this
    exact this
  cases pc with
  | lock node is_root parent =>
      refine falls_acquire ht hs le_rfl ?_
      cases is_root with
      | true =>
          simp only [Thread.cost, SearchPc.cost, if_true]
          split <;> omega
      | false => cases parent <;> simp [SearchPc.locked]
  | check node =>
      cases hs
      refine falls_goto ht rfl rfl le_rfl ?_
      by_cases hroot : node = s.root
      · simp [hroot]
      · simp [hroot, Ne.symm hroot]
  | read node =>
      obtain ⟨pc, hs', hpc⟩ := h.search_read hk.1.toNear.plan hk.2 id key
      cases hs'.symm.trans hs
      refine falls_goto ht rfl rfl le_rfl ?_
      rcases hpc with ⟨found, rfl⟩ | ⟨child, rfl, hparent⟩
      · simp
      · have := hrank hparent
        simp only [Thread.cost, SearchPc.cost]
        omega
  | _ =>
      cases hs
      exact falls_goto ht rfl rfl le_rfl (by simp)

omit [LinearOrder K] in
/-- A call that returns gives its frame's steps to the one that waits. -/
theorem resume_cost (rank : BlkAddress → Nat) (root : BlkAddress) (parents : List (Frame K))
    (split : Option (Split K)) :
    (InsertPc.resume cap parents split : InsertPc K V).cost rank root
      < 7 * parents.length + 2 := by
  cases parents with
  | nil => simp [InsertPc.resume, InsertPc.cost]
  | cons f parents =>
      cases split with
      | none =>
          rw [InsertPc.resume]
          split <;> simp only [InsertPc.cost, List.length_cons] <;> omega
      | some sp =>
          rw [InsertPc.resume]
          split <;> simp only [InsertPc.cost, List.length_cons] <;> omega

omit [LinearOrder K] in
theorem resume_growth (parents : List (Frame K)) (split : Option (Split K)) (node : BlkAddress) :
    (InsertPc.resume cap parents split : InsertPc K V).growth
      ≤ (InsertPc.unlock node parents split : InsertPc K V).growth := by
  cases parents with
  | nil => exact le_rfl
  | cons f parents => exact InsertPc.growth_le _

/-- **Every step of an insertion** brings it on, or replaces the root. -/
theorem insertStep_falls {pc : InsertPc K V} (h : Inv cap m₀ s E G m order)
    (hrank : Ranks rank (s.world E G)) (ht : s.threads t = .inserting id key value pc)
    (hs : insertStep cap s t id key value pc = some s') : Falls rank s s' t := by
  have hk : InsertOk cap (s.world E G) t key value pc := by
    have := h.know t
    rw [ht] at this
    exact this
  cases pc with
  | optHeight root =>
      cases hs
      refine falls_goto ht rfl rfl le_rfl ?_
      simp only [Thread.cost, InsertPc.cost, optCost]
      split <;> omega
  | optRoot height => cases hs
  | optLock node depth is_root parent =>
      refine falls_acquire ht hs (InsertPc.growth_le _) ?_
      cases is_root with
      | true =>
          simp only [Thread.cost, InsertPc.cost, optCost, if_true]
          split <;> omega
      | false => cases parent <;> simp [InsertPc.optLocked]
  | optCheck node depth =>
      cases hs
      refine falls_goto ht rfl rfl (InsertPc.growth_le _) ?_
      by_cases hroot : node = s.root
      · simp [hroot]
      · simp [hroot, Ne.symm hroot]
  | optRead node depth =>
      obtain ⟨pc, hs', hpc⟩ := h.optimistic_read hk.1.toNear.plan hk.2.1 id key value depth
      cases hs'.symm.trans hs
      refine falls_goto ht rfl rfl (InsertPc.growth_le _) ?_
      rcases hpc with rfl | ⟨leaf, rfl⟩ | ⟨child, rfl, hparent⟩
      · simp only [Thread.cost, InsertPc.cost, optCost]
        omega
      · simp only [Thread.cost, InsertPc.cost, optCost]
        omega
      · have := hrank hparent
        simp only [Thread.cost, InsertPc.cost, optCost]
        omega
  | optUnlock node is_succeed =>
      cases hs
      refine falls_goto ht rfl rfl (InsertPc.growth_le _) ?_
      cases is_succeed <;> simp
  | lock node is_root parents =>
      refine falls_acquire ht hs (InsertPc.growth_le _) ?_
      cases is_root with
      | true =>
          simp only [Thread.cost, InsertPc.cost, if_true]
          split <;> omega
      | false => simp
  | check node =>
      cases hs
      refine falls_goto ht rfl rfl (InsertPc.growth_le _) ?_
      by_cases hroot : node = s.root
      · simp [hroot]
      · simp [hroot, Ne.symm hroot]
  | read node is_root parents =>
      have hdown : Descending cap (s.world E G) t key node is_root parents := hk
      obtain ⟨pc, hs', hpc⟩ :=
        h.pessimistic_read hdown.at_node.toNear.plan hdown.clean id key value is_root parents
      cases hs'.symm.trans hs
      refine falls_goto ht rfl rfl (InsertPc.growth_le _) ?_
      rcases hpc with ⟨leaf, rfl⟩ | ⟨child, f, rfl, hparent⟩
      · simp only [Thread.cost, InsertPc.cost]
        omega
      · have := hrank hparent
        simp only [Thread.cost, InsertPc.cost, List.length_cons]
        omega
  | leaf node is_root parents leaf =>
      rw [insertStep] at hs
      split at hs
      · cases hs
        exact falls_goto ht rfl rfl (InsertPc.growth_le _) (by simp)
      · cases hs
        exact falls_goto ht rfl rfl le_rfl (by simp)
  | writeRight node is_root parents left right b =>
      cases hs
      refine falls_goto ht rfl rfl (InsertPc.growth_le _) ?_
      cases is_root with
      | true =>
          simp only [Thread.cost, InsertPc.cost, if_true]
          omega
      | false => simp
  | newRoot node left right b =>
      rw [insertStep] at hs
      dsimp only at hs
      split at hs
      · cases hs
        exact falls_goto ht rfl rfl le_rfl (by simp)
      · cases hs
  | updateRoot node left right b new =>
      -- the insertion has no frame left: it cannot replace the root again
      cases hs
      refine ⟨_, rfl, .inl ⟨?_, Nat.lt_succ_self _⟩⟩
      rw [ht]
      exact Nat.zero_lt_one
  | inner f parents split =>
      rw [insertStep] at hs
      split at hs
      · cases hs
      · cases hs
        exact falls_goto ht rfl rfl le_rfl (by simp)
  | unlock node parents split =>
      cases hs
      exact falls_goto ht rfl rfl (resume_growth parents split node) (resume_cost _ _ parents split)
  | writeBack f parents =>
      cases hs
      exact falls_goto ht rfl rfl (InsertPc.growth_le _) (by simp)
  | _ =>
      cases hs
      exact falls_goto ht rfl rfl le_rfl (by simp)

/-- **Every step that is no new call counts down.** -/
theorem step_falls {a : Action T K V} (ha : a.By t) (h : Inv cap m₀ s E G m order)
    (hrank : Ranks rank (s.world E G)) (hs : step cap s a = some s') : Falls rank s s' t := by
  cases a with
  | invoke u op => exact ha.elim
  | run u =>
      cases ha
      rw [step] at hs
      split at hs
      · cases hs
      · next id key pc ht => exact searchStep_falls h hrank ht hs
      · next id key value pc ht => exact insertStep_falls h hrank ht hs
  | heightFirst u =>
      cases ha
      rw [step] at hs
      split at hs
      · next id key value ht =>
          cases hs
          exact falls_goto ht rfl rfl le_rfl (by simp)
      · cases hs
  | rootAfter u =>
      cases ha
      rw [step] at hs
      split at hs
      · next id key value height ht =>
          cases hs
          exact falls_goto ht rfl rfl le_rfl (by simp)
      · cases hs

/-- A step of a thread is no step of another one. -/
theorem State.Sound.threads_by {a : Action T K V} (ha : a.By t) (h : s.Sound cap m₀)
    (hs : step cap s a = some s') {u : T} (hu : u ≠ t) : s'.threads u = s.threads u := by
  obtain ⟨E, G, m, order, h⟩ := h
  obtain ⟨th, hthreads, -⟩ :=
    step_falls ha h (KeepsLevels.ranks h fun _ sp hsp => ⟨sp, hsp, rfl⟩) hs
  rw [hthreads, Function.update_of_ne hu]

end Steps

/-! ## §3. All threads. -/

section Runs

variable {T K V : Type*} [DecidableEq T] [LinearOrder K] {cap : Nat} {m₀ : K → Option V}
  {s s' : State T K V}

/-- A step that is no new call. -/
def Serving (cap : Nat) (s : State T K V) (a : Action T K V) (s' : State T K V) : Prop :=
  a.Serves ∧ a.Current s ∧ step cap s a = some s'

/-- All calls are of the threads `A`, and `n` is what they have left together. -/
structure Ranked (cap : Nat) (m₀ : K → Option V) (G : Plan K BlkAddress) (A : Finset T)
    (s : State T K V) (n : Nat ×ₗ Nat) : Prop where
  inv : ∃ E m order, Inv cap m₀ s E G m order
  idle : ∀ t, t ∉ A → s.threads t = .idle
  rank : n = toLex (∑ t ∈ A, (s.threads t).growth, ∑ t ∈ A, (s.threads t).cost (level G) s.root)

/-- **What all threads have left falls**: one of them gets on and the others wait. -/
theorem Ranked.fall (hcap : 2 ≤ cap) {G : Plan K BlkAddress} {A : Finset T} {n : Nat ×ₗ Nat}
    {a : Action T K V} (h : Ranked cap m₀ G A s n) (hstep : Serving cap s a s') :
    ∃ G' n', n' < n ∧ Ranked cap m₀ G' A s' n' := by
  obtain ⟨ha, hcurrent, hs⟩ := hstep
  obtain ⟨E, m, order, hinv⟩ := h.inv
  obtain ⟨E', G', m', order', hinv', hle⟩ := step_from hcap hinv hcurrent hs
  obtain ⟨t, hby⟩ := ha.exists_by
  obtain ⟨th, hthreads, hfalls⟩ := step_falls hby hinv (KeepsLevels.ranks hinv hle) hs
  have ht : t ∈ A := by
    by_contra hnot
    exact hby.busy hs (h.idle t hnot)
  have hself : s'.threads t = th := by rw [hthreads, Function.update_self]
  have hother : ∀ u, u ≠ t → s'.threads u = s.threads u := by
    intro u hu
    rw [hthreads, Function.update_of_ne hu]
  have hless : ∀ f : Thread K V → Nat, f th ≤ f (s.threads t) →
      ∀ u ∈ A, f (s'.threads u) ≤ f (s.threads u) := by
    intro f hf u _
    by_cases hu : u = t
    · rw [hu, hself]
      exact hf
    · rw [hother u hu]
  have hcosts : ∀ u ∈ A, (s.threads u).cost (level G) s.root
      = (s.threads u).cost (level G') s.root :=
    fun u _ => ((hinv.know u).cost_eq ⟨_, hinv.ok.plan_root⟩ hle).symm
  refine ⟨G', _, ?_, ⟨E', m', order', hinv'⟩, fun u hu => ?_, rfl⟩
  · rw [h.rank, Prod.Lex.toLex_lt_toLex, Finset.sum_congr rfl hcosts]
    rcases hfalls with ⟨hgrowth, -⟩ | ⟨hroot, hgrowth, hcost⟩
    · exact .inl (Finset.sum_lt_sum (hless _ hgrowth.le) ⟨t, ht, hself ▸ hgrowth⟩)
    · rcases (Finset.sum_le_sum (hless _ hgrowth)).lt_or_eq with hlt | heq
      · exact .inl hlt
      · rw [(Prod.mk.inj hroot).1]
        exact .inr ⟨heq, Finset.sum_lt_sum (hless _ hcost.le) ⟨t, ht, hself ▸ hcost⟩⟩
  · rw [hother u fun he => hu (he ▸ ht)]
    exact h.idle u hu

/-- Finitely many steps are possible. -/
theorem finite_serving {A : Finset T} (hidle : ∀ t, t ∉ A → s.threads t = .idle) :
    {a : Action T K V | ∃ s', Serving cap s a s'}.Finite := by
  have hfinite := ((A.finite_toSet.image Action.run).union
    ((A.finite_toSet.image Action.heightFirst).union
      (A.finite_toSet.image (Action.rootAfter (K := K) (V := V)))))
  refine hfinite.subset ?_
  rintro a ⟨s', ha, -, hs⟩
  obtain ⟨t, hby⟩ := ha.exists_by
  have ht : t ∈ A := by
    by_contra hnot
    exact hby.busy hs (hidle t hnot)
  cases a with
  | invoke u op => exact ha.elim
  | run u => exact .inl ⟨t, ht, congrArg _ hby.symm⟩
  | heightFirst u => exact .inr (.inl ⟨t, ht, congrArg _ hby.symm⟩)
  | rootAfter u => exact .inr (.inr ⟨t, ht, congrArg _ hby.symm⟩)

theorem runs_serving : ∀ {as : List (Action T K V)} {s s' : State T K V},
    (∀ a ∈ as, a.Serves) → CurrentRun cap s as → run cap s as = some s' →
      Drain.Runs (Serving cap) s as s' := by
  intro as
  induction as with
  | nil =>
      intro s s' _ _ hrun
      cases hrun
      exact .nil s
  | cons a as ih =>
      intro s s' hserves hcurrent hrun
      obtain ⟨s₁, hs, hrun⟩ := Option.bind_eq_some_iff.1 hrun
      exact .cons ⟨hserves a List.mem_cons_self, hcurrent.1, hs⟩
        (ih (fun b hb => hserves b (List.mem_cons_of_mem _ hb)) (hcurrent.2 s₁ hs) hrun)

/-- Finitely many threads are in a call. -/
theorem run_finite (hcap : 2 ≤ cap) : ∀ {as : List (Action T K V)} {s s' : State T K V}
    {A : Finset T}, s.Sound cap m₀ → (∀ t, t ∉ A → s.threads t = .idle) → CurrentRun cap s as →
      run cap s as = some s' → ∃ A' : Finset T, ∀ t, t ∉ A' → s'.threads t = .idle := by
  intro as
  induction as with
  | nil =>
      intro s s' A _ hidle _ hrun
      cases hrun
      exact ⟨A, hidle⟩
  | cons a as ih =>
      intro s s' A hsound hidle hcurrent hrun
      obtain ⟨s₁, hs, hrun⟩ := Option.bind_eq_some_iff.1 hrun
      obtain ⟨t, hother⟩ : ∃ t, ∀ u, u ≠ t → s₁.threads u = s.threads u := by
        by_cases ha : a.Serves
        · obtain ⟨t, hby⟩ := ha.exists_by
          exact ⟨t, fun u hu => hsound.threads_by hby hs hu⟩
        · cases a with
          | invoke t op =>
              rw [step] at hs
              split at hs
              · cases hs
                exact ⟨t, fun u hu => goto_other hu⟩
              · cases hs
          | _ => exact absurd trivial ha
      refine ih (A := insert t A) (step_sound hcap hsound hcurrent.1 hs) (fun u hu => ?_)
        (hcurrent.2 s₁ hs) hrun
      rw [Finset.mem_insert, not_or] at hu
      rw [hother u hu.1]
      exact hidle u hu.2

/-- **Every call returns.**  From a state that is reached, the threads can take only so
many steps before a new call comes, in whatever order they take them; and when no step is
left, no thread is in a call. -/
theorem calls_return (hcap : 2 ≤ cap) {blocks : BlkAddress → Option (Block K V)}
    {allocator : Allocator} {root : BlkAddress} {depth : Nat}
    (hstored : Stored cap blocks allocator root depth m₀) (as : List (Action T K V))
    (hcurrent : CurrentRun cap (start blocks allocator root depth) as) (s : State T K V)
    (hrun : run cap (start blocks allocator root depth) as = some s) :
    ∃ N, ∀ bs s', (∀ b ∈ bs, Action.Serves b) → CurrentRun cap s bs → run cap s bs = some s' →
      bs.length ≤ N
        ∧ ((∀ b, Action.Serves b → step cap s' b = none) → ∀ t, s'.threads t = .idle) := by
  have hstart := start_sound (T := T) hstored
  have hsound := run_sound hcap hstart hcurrent hrun
  obtain ⟨A, hidle⟩ := run_finite hcap (A := ∅) hstart (fun _ _ => rfl) hcurrent hrun
  obtain ⟨E, G, m, order, hinv⟩ := hsound
  have hbounded := Drain.Runs.bounded (R := Serving cap)
    (P := fun s n => ∃ G, Ranked cap m₀ G A s n) ?_ ?_ ?_ _ ⟨G, ⟨E, m, order, hinv⟩, hidle, rfl⟩
  · obtain ⟨N, hN⟩ := hbounded
    refine ⟨N, fun bs s' hserves hcur hrun' =>
      ⟨hN bs s' (runs_serving hserves hcur hrun'), fun hstuck t => ?_⟩⟩
    by_contra hbusy
    have hsound' := run_sound hcap hinv.sound hcur hrun'
    obtain ⟨b, s₁, hb, hs⟩ := hsound'.exists_step hcap hbusy
    rw [hstuck b hb] at hs
    cases hs
  · rintro s n a s' ⟨G, hranked⟩ hstep
    obtain ⟨G', n', hlt, hranked'⟩ := hranked.fall hcap hstep
    exact ⟨n', hlt, G', hranked'⟩
  · rintro s n ⟨G, hranked⟩
    exact finite_serving hranked.idle
  · rintro s a s₁ s₂ ⟨-, -, h₁⟩ ⟨-, -, h₂⟩
    exact Option.some.inj (h₁.symm.trans h₂)

/-- The same two threads as in `waitsForSplit`, both in a call. -/
theorem calls_return_split :
    ∃ s, run 2 init waitsForSplit = some s ∧ s.threads false ≠ .idle ∧ s.threads true ≠ .idle
      ∧ ∃ N, ∀ bs s', (∀ b ∈ bs, Action.Serves b) → CurrentRun 2 s bs → run 2 s bs = some s' →
        bs.length ≤ N
          ∧ ((∀ b, Action.Serves b → step 2 s' b = none) → ∀ t, s'.threads t = .idle) := by
  have hrun : (run 2 init waitsForSplit).map (fun s => (decide (s.threads false = .idle),
      decide (s.threads true = .idle))) = some (false, false) := by decide +kernel
  obtain ⟨s, hs, heq⟩ := Option.map_eq_some_iff.1 hrun
  simp only [Prod.mk.injEq, decide_eq_false_iff_not] at heq
  have hcurrent : CurrentRun 2 init waitsForSplit :=
    currentRun_of_rootFirst (by simp [waitsForSplit, steps, Action.RootFirst])
  exact ⟨s, hs, heq.1, heq.2, calls_return le_rfl (Stored.single 2 0) waitsForSplit hcurrent s hs⟩

/-! ## §4. One thread. -/

variable {t : T} {E : Store K V BlkAddress} {G G' : Plan K BlkAddress} {m : K → Option V}
  {order : List (Nat × Op K V × Answer V)}

/-- The thread whose action it is. -/
def Action.thread : Action T K V → T
  | .invoke t _ => t
  | .run t => t
  | .heightFirst t => t
  | .rootAfter t => t

omit [DecidableEq T] [LinearOrder K] in
theorem Action.By.thread_eq {a : Action T K V} (ha : a.By t) : a.thread = t := by
  cases a with
  | invoke u op => exact ha.elim
  | _ => exact ha

/-- The tree does not get lower; and while it is as high, `t` has less left after a step of
its own, and as much as before after one of another thread. -/
theorem Inv.own_step (h : Inv cap m₀ s E G m order) (hle : KeepsLevels G G') {a : Action T K V}
    (hs : step cap s a = some s') (ha : ∀ op, a ≠ .invoke t op) :
    s.depth ≤ s'.depth ∧ (s'.depth = s.depth →
      (s'.threads t).cost (level G') s'.root + (if a.thread = t then 1 else 0)
        ≤ (s.threads t).cost (level G) s.root) := by
  have hcosts : (s.threads t).cost (level G') s.root = (s.threads t).cost (level G) s.root :=
    (h.know t).cost_eq ⟨_, h.ok.plan_root⟩ hle
  rw [← hcosts]
  by_cases hserves : a.Serves
  · obtain ⟨u, hby⟩ := hserves.exists_by
    obtain ⟨th, hthreads, ⟨-, hlt⟩ | ⟨hroot, -, hcost⟩⟩ :=
      step_falls hby h (KeepsLevels.ranks h hle) hs
    · exact ⟨hlt.le, fun heq => absurd heq hlt.ne'⟩
    · obtain ⟨hroot, hdepth⟩ := Prod.mk.inj hroot
      refine ⟨hdepth.ge, fun _ => ?_⟩
      rw [hthreads, hroot, hby.thread_eq]
      by_cases hu : u = t
      · rw [if_pos hu, ← hu, Function.update_self]
        exact hcost
      · rw [if_neg hu, Function.update_of_ne (Ne.symm hu)]
        exact le_rfl
  · cases a with
    | invoke u op =>
        have hu : t ≠ u := fun heq => ha op (heq ▸ rfl)
        rw [step] at hs
        split at hs
        · cases hs
          refine ⟨le_rfl, fun _ => ?_⟩
          rw [goto_other hu, Action.thread, if_neg hu.symm]
          exact le_rfl
        · cases hs
    | _ => exact absurd trivial hserves

theorem Inv.own_run (hcap : 2 ≤ cap) : ∀ {bs : List (Action T K V)} {s s' : State T K V}
    {E : Store K V BlkAddress} {G : Plan K BlkAddress} {m : K → Option V}
    {order : List (Nat × Op K V × Answer V)}, Inv cap m₀ s E G m order → CurrentRun cap s bs →
      run cap s bs = some s' → (∀ op, .invoke t op ∉ bs) →
      s.depth ≤ s'.depth ∧ (s'.depth = s.depth →
        (bs.map Action.thread).count t ≤ (s.threads t).cost (level G) s.root) := by
  intro bs
  induction bs with
  | nil =>
      intro s s' E G m order _ _ hrun _
      cases hrun
      exact ⟨le_rfl, fun _ => Nat.zero_le _⟩
  | cons a bs ih =>
      intro s s' E G m order h hcurrent hrun hnew
      obtain ⟨s₁, hs, hrun⟩ := Option.bind_eq_some_iff.1 hrun
      obtain ⟨E₁, G₁, m₁, order₁, h₁, hle⟩ := step_from hcap h hcurrent.1 hs
      obtain ⟨hdepth, hcost⟩ :=
        h.own_step hle hs fun op heq => hnew op (heq ▸ List.mem_cons_self)
      obtain ⟨hdepth₁, hcost₁⟩ :=
        ih h₁ (hcurrent.2 s₁ hs) hrun fun op hm => hnew op (List.mem_cons_of_mem _ hm)
      refine ⟨hdepth.trans hdepth₁, fun heq => ?_⟩
      have hfirst := hcost (by omega)
      have hrest := hcost₁ (by omega)
      simp only [List.map_cons, List.count_cons, beq_iff_eq]
      omega

omit [LinearOrder K] in
theorem start_cost (rank : BlkAddress → Nat) (root : BlkAddress) (id : Nat) (op : Op K V) :
    (Thread.start id op).cost rank root = match op with
      | .search _ => 3 * rank root + 6
      | .insert _ _ => 12 * rank root + 21 := by
  cases op with
  | search key => rfl
  | insert key value =>
      simp only [Thread.start, Thread.cost, InsertPc.cost, optCost]
      omega

/-- **A call takes few steps of its own**, whatever the other threads do meanwhile: as long
as the tree does not get higher, at most three a level for a search, and twelve for an
insertion. -/
theorem own_steps (hcap : 2 ≤ cap) {blocks : BlkAddress → Option (Block K V)}
    {allocator : Allocator} {root : BlkAddress} {depth : Nat}
    (hstored : Stored cap blocks allocator root depth m₀) (as : List (Action T K V))
    (hcurrent : CurrentRun cap (start blocks allocator root depth) as) (s : State T K V)
    (hrun : run cap (start blocks allocator root depth) as = some s) (t : T) (op : Op K V)
    (bs : List (Action T K V)) (hcurrent' : CurrentRun cap s (.invoke t op :: bs))
    (s' : State T K V) (hrun' : run cap s (.invoke t op :: bs) = some s')
    (hnew : ∀ op, .invoke t op ∉ bs) (hdepth : s'.depth = s.depth) :
    (bs.map Action.thread).count t ≤ match op with
      | .search _ => 3 * s.depth + 6
      | .insert _ _ => 12 * s.depth + 21 := by
  obtain ⟨E, G, m, order, h⟩ := run_sound hcap (start_sound hstored) hcurrent hrun
  obtain ⟨s₁, hs, hrun'⟩ := Option.bind_eq_some_iff.1 hrun'
  obtain ⟨E₁, G₁, m₁, order₁, h₁, -⟩ := step_from hcap h hcurrent'.1 hs
  have hown := (h₁.own_run hcap (hcurrent'.2 s₁ hs) hrun' hnew).2
  rw [step] at hs
  split at hs
  · cases hs
    have hle := hown hdepth
    rw [goto_self, start_cost] at hle
    have hlevel : level G₁ s.root = s.depth :=
      congrArg (fun sp => (sp.map Span.level).getD 0) h₁.ok.plan_root
    rw [← hlevel]
    exact hle
  · cases hs

/-- The first insertion into an empty tree, while another thread searches. -/
theorem own_steps_insert :
    ∃ s', run 2 init (.invoke false (.insert 10 1) :: .invoke true (.search 10) :: steps 9 false)
        = some s' ∧ s'.threads false = .idle
      ∧ ((.invoke true (.search 10) :: steps 9 false).map Action.thread).count false ≤ 33 := by
  have hrun : (run 2 init (.invoke false (.insert 10 1) :: .invoke true (.search 10)
      :: steps 9 false)).map (fun s => (decide (s.threads false = .idle), s.depth))
      = some (true, 1) := by decide +kernel
  obtain ⟨s', hs, heq⟩ := Option.map_eq_some_iff.1 hrun
  simp only [Prod.mk.injEq, decide_eq_true_eq] at heq
  exact ⟨s', hs, heq.1, own_steps le_rfl (Stored.single 2 0) [] trivial init rfl false
    (.insert 10 1) _ (currentRun_of_rootFirst (by simp [steps, Action.RootFirst])) s' hs
    (by simp [steps]) heq.2⟩

end Runs

end ConcurrentBPlusTree

end NvmTree
