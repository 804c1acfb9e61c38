/-
  NvmTree.Concurrent.Linearizable — the lock-based tree is linearizable.

  An optimistic insertion reads the root id and the height apart.  `Action.Current`
  says of a step that reads the root id last that the height is still the tree's;
  `Action.RootFirst` that no step reads the root id last.  Under the former every step
  keeps `State.Sound`, so every run does.

  Main results:
    * `step_sound`, `run_sound` — the threads share a tree, along every run.
    * `run_linearizable`        — there is an order of the operations that a map allows,
      and at quiescence the blocks are a well-formed tree of that map.
-/
import NvmTree.Concurrent.Optimistic
import NvmTree.Concurrent.Pessimistic
import NvmTree.Concurrent.Search
import NvmTree.RangeTree.Walk

namespace NvmTree

open RangeTree Linearize

namespace ConcurrentBPlusTree

variable {T K V : Type*} [DecidableEq T] [LinearOrder K] {cap : Nat} {m₀ m : K → Option V}
  {s s' : State T K V} {E : Store K V BlkAddress} {G : Plan K BlkAddress}
  {order : List (Nat × Op K V × Answer V)} {t : T}

/-! ## §1. One step. -/

/-- **Every step of an insertion keeps the invariant.** -/
theorem insertStep_sound (hcap : 2 ≤ cap) {id : Nat} {key : K} {value : V} {pc : InsertPc K V}
    (h : Inv cap m₀ s E G m order) (ht : s.threads t = .inserting id key value pc)
    (hstep : insertStep cap s t id key value pc = some s') : s'.SoundFrom cap m₀ G := by
  have hk : InsertOk cap (s.world E G) t key value pc := by
    have := h.know t
    rw [ht] at this
    exact this
  cases pc with
  | start =>
      cases hstep
      exact Inv.same (h.pass (by rw [ht]; rfl) (by rw [ht]; simp [Thread.nodes, InsertPc.nodes]) (by rw [ht]; rfl) trivial)
  | optArgs =>
      cases hstep
      exact Inv.same (h.pass (by rw [ht]; rfl) (by rw [ht]; simp [Thread.nodes, InsertPc.nodes]) (by rw [ht]; rfl)
        ⟨_, h.ok.plan_root⟩)
  | optHeight root =>
      cases hstep
      exact Inv.same (h.pass (by rw [ht]; rfl) (by rw [ht]; simp [Thread.nodes, InsertPc.nodes]) (by rw [ht]; rfl)
        ⟨hk, rfl, s.depth, rfl, fun _ => rfl⟩)
  | optRoot height => cases hstep
  | optLock node depth is_root parent => exact optLock_sound h ht hstep
  | optCheck node depth => exact optCheck_sound h ht hstep
  | optRetry node =>
      cases hstep
      exact Inv.same (h.release hk.2 (by rw [ht]; rfl)
        (by rw [ht]; simp [Thread.nodes, InsertPc.nodes]) (by rw [ht]; rfl) (fun _ _ _ _ => trivial))
  | optUnlockParent node depth parent => exact optUnlockParent_sound h ht hstep
  | optRead node depth => exact optRead_sound h ht hstep
  | optWrite node leaf => exact optWrite_sound h ht hstep
  | optUnlock node is_succeed =>
      -- either the answer, or the pessimistic insertion
      cases hstep
      cases is_succeed <;>
        exact Inv.same (h.release hk (by rw [ht]; rfl)
          (by rw [ht]; simp [Thread.nodes, InsertPc.nodes]) (by rw [ht]; rfl)
          (fun _ _ _ _ => trivial))
  | arg =>
      cases hstep
      exact Inv.same (h.pass (by rw [ht]; rfl) (by rw [ht]; simp [Thread.nodes, InsertPc.nodes]) (by rw [ht]; rfl)
        ⟨⟨_, h.ok.plan_root⟩, rfl⟩)
  | lock node is_root parents => exact lock_sound h ht hstep
  | check node => exact check_sound h ht hstep
  | retry node =>
      cases hstep
      exact Inv.same (h.release hk.2 (by rw [ht]; rfl)
        (by rw [ht]; simp [Thread.nodes, InsertPc.nodes]) (by rw [ht]; rfl) (fun _ _ _ _ => trivial))
  | read node is_root parents => exact read_sound h ht hstep
  | leaf node is_root parents leaf => exact leaf_sound hcap h ht hstep
  | writeLeft node is_root parents left right b => exact writeLeft_sound h ht hstep
  | writeRight node is_root parents left right b => exact writeRight_sound h ht hstep
  | newRoot node left right b => exact newRoot_sound h ht hstep
  | writeRoot node left right b new => exact writeRoot_sound hcap h ht hstep
  | updateRoot node left right b new => exact updateRoot_sound h ht hstep
  | writeBack f parents => exact writeBack_sound h ht hstep
  | inner f parents split => exact inner_sound hcap h ht hstep
  | unlock node parents split => exact unlock_sound h ht hstep
  | ret =>
      cases hstep
      exact Inv.same (h.respond (by rw [ht]; rfl) (by rw [ht]; rfl) (by rw [ht]; rfl))

/-- No root id is read after the height. -/
def Action.RootFirst : Action T K V → Prop
  | .heightFirst _ => False
  | .rootAfter _ => False
  | _ => True

/-- A height that was read before the root id is still the tree's. -/
def Action.Current (s : State T K V) : Action T K V → Prop
  | .rootAfter t =>
      match s.threads t with
      | .inserting _ _ _ (.optRoot height) => height = s.depth
      | _ => True
  | _ => True

instance (s : State T K V) (a : Action T K V) : Decidable (a.Current s) := by
  unfold Action.Current
  split
  · split <;> infer_instance
  · infer_instance

omit [DecidableEq T] [LinearOrder K] in
theorem Action.RootFirst.current {a : Action T K V} (h : a.RootFirst) : a.Current s := by
  cases a with
  | rootAfter t => exact h.elim
  | _ => trivial

/-- **Every step keeps the invariant**, and every node its level. -/
theorem step_from (hcap : 2 ≤ cap) {a : Action T K V} (h : Inv cap m₀ s E G m order)
    (ha : a.Current s) (hstep : step cap s a = some s') : s'.SoundFrom cap m₀ G := by
  cases a with
  | invoke t op =>
      rw [step] at hstep
      split at hstep
      · next hidle =>
          cases hstep
          exact Inv.same (h.invoke hidle op)
      · cases hstep
  | run t =>
      rw [step] at hstep
      split at hstep
      · cases hstep
      · next id key pc ht =>
          obtain ⟨order', h'⟩ := searchStep_inv h ht hstep
          exact Inv.same h'
      · next id key value pc ht => exact insertStep_sound hcap h ht hstep
  | heightFirst t =>
      rw [step] at hstep
      split at hstep
      · next id key value ht =>
          cases hstep
          exact Inv.same (h.pass (by rw [ht]; rfl) (by rw [ht]; simp [Thread.nodes, InsertPc.nodes]) (by rw [ht]; rfl) trivial)
      · cases hstep
  | rootAfter t =>
      rw [step] at hstep
      split at hstep
      · next id key value height ht =>
          cases hstep
          simp only [Action.Current, ht] at ha
          subst ha
          exact Inv.same (h.pass (by rw [ht]; rfl) (by rw [ht]; simp [Thread.nodes, InsertPc.nodes]) (by rw [ht]; rfl)
            ⟨⟨_, h.ok.plan_root⟩, rfl, s.depth, rfl, fun _ => rfl⟩)
      · cases hstep

theorem step_sound (hcap : 2 ≤ cap) {a : Action T K V} (h : s.Sound cap m₀) (ha : a.Current s)
    (hstep : step cap s a = some s') : s'.Sound cap m₀ := by
  obtain ⟨E, G, m, order, h⟩ := h
  obtain ⟨E', G', m', order', h', -⟩ := step_from hcap h ha hstep
  exact h'.sound

/-! ## §2. Every run. -/

/-- Each step of the run is `Current`. -/
def CurrentRun (capacity : Nat) : State T K V → List (Action T K V) → Prop
  | _, [] => True
  | s, a :: as => a.Current s ∧ ∀ s' ∈ step capacity s a, CurrentRun capacity s' as

instance CurrentRun.decidable (capacity : Nat) : ∀ (s : State T K V) (as : List (Action T K V)),
    Decidable (CurrentRun capacity s as)
  | _, [] => inferInstanceAs (Decidable True)
  | s, a :: as =>
      have : Decidable (∀ s' ∈ step capacity s a, CurrentRun capacity s' as) :=
        match step capacity s a with
        | none => isTrue nofun
        | some s' =>
            have := CurrentRun.decidable capacity s' as
            decidable_of_iff (CurrentRun capacity s' as)
              ⟨fun h _ hs => Option.some.inj hs ▸ h, fun h => h s' rfl⟩
      inferInstanceAs (Decidable (_ ∧ _))

theorem currentRun_of_rootFirst : ∀ {as : List (Action T K V)} {s : State T K V},
    (∀ a ∈ as, a.RootFirst) → CurrentRun cap s as
  | [], _, _ => trivial
  | a :: _, _, h => ⟨(h a List.mem_cons_self).current, fun _ _ =>
      currentRun_of_rootFirst fun a' ha' => h a' (List.mem_cons_of_mem _ ha')⟩

theorem run_sound (hcap : 2 ≤ cap) : ∀ {as : List (Action T K V)} {s s' : State T K V},
    s.Sound cap m₀ → CurrentRun cap s as → run cap s as = some s' → s'.Sound cap m₀ := by
  intro as
  induction as with
  | nil =>
      intro s s' h _ hrun
      cases hrun
      exact h
  | cons a as ih =>
      intro s s' h hcur hrun
      obtain ⟨s₁, hstep, hrun⟩ := Option.bind_eq_some_iff.1 hrun
      exact ih (step_sound hcap h hcur.1 hstep) (hcur.2 s₁ hstep) hrun

/-- A stored tree, before any call. -/
theorem start_sound {blocks : BlkAddress → Option (Block K V)} {allocator : Allocator}
    {root : BlkAddress} {depth : Nat} (h : Stored cap blocks allocator root depth m₀) :
    (start blocks allocator root depth : State T K V).Sound cap m₀ := by
  obtain ⟨⟨G, κ, ht, hm, hfree⟩, hblocks, halloc⟩ := h
  have hmode : ∀ (t : T) x, (start blocks allocator root depth : State T K V).mode t x = none :=
    fun t x => if_neg List.not_mem_nil
  refine ⟨_, G, m₀, [], ⟨⟨⟨κ, ht⟩, hm, fun {i j x} hw _ => ?_, fun _ _ => rfl⟩, hblocks, halloc,
    fun x hx => ⟨hfree x hx, fun t => List.not_mem_nil⟩, fun t x hx => (hx rfl).elim,
    fun t => trivial, .nil⟩⟩
  have hnone := hmode i x
  cases hnone.symm.trans hw

/-- When no thread is in a call, nobody writes. -/
theorem Inv.quiescent (h : Inv cap m₀ s E G m order) (hidle : ∀ t, s.threads t = .idle) (t : T)
    (x : BlkAddress) : ¬ (s.world E G).Writes t x := by
  intro hw
  have hmode : s.mode t x = some .write := hw
  unfold State.mode at hmode
  rw [if_neg (by rw [hidle t]; exact List.not_mem_nil)] at hmode
  obtain ⟨hmem, -⟩ := h.locked t x (by rw [hmode]; nofun)
  rw [hidle t] at hmem
  exact absurd hmem List.not_mem_nil

/-- **The lock-based tree is linearizable.**  In every run in which the root id is read
before the height there is an order of the operations in which each answers as a map
does, and that keeps the order of operations that did not overlap.  When no thread is
in a call the blocks are a well-formed tree, with the entries of that map. -/
theorem run_linearizable (hcap : 2 ≤ cap) {blocks : BlkAddress → Option (Block K V)}
    {allocator : Allocator} {root : BlkAddress} {depth : Nat}
    (hstored : Stored cap blocks allocator root depth m₀) (as : List (Action T K V))
    (hfirst : ∀ a ∈ as, a.RootFirst) (s : State T K V)
    (hrun : run cap (start blocks allocator root depth) as = some s) :
    ∃ order m, Linearization mapSpec m₀ s.history order m
      ∧ ((∀ t, s.threads t = .idle) → WellFormed s.raw s.root s.depth
        ∧ ∀ k v, Contents s.raw s.root k v ↔ m k = some v) := by
  obtain ⟨E, G, m, order, h⟩ :=
    run_sound hcap (start_sound hstored) (currentRun_of_rootFirst hfirst) hrun
  refine ⟨order, m, h.ledger.lin, fun hidle => ?_⟩
  obtain ⟨⟨κ, ht⟩, hmap⟩ := h.ok.at_rest (h.quiescent hidle)
  exact ⟨ht.wellFormed, fun k v => ht.contents_iff.trans (hmap k v).symm⟩

/-- `n` steps of a thread. -/
def steps (n : Nat) (t : Bool) : List (Action Bool Nat Nat) := List.replicate n (.run t)

/-- Two inserts at once, and a third that splits the root while a search waits for it. -/
def searchDuringSplit : List (Action Bool Nat Nat) :=
  [.invoke false (.insert 10 1), .invoke true (.insert 20 2)] ++ steps 9 false ++ steps 9 true
    ++ [.invoke false (.insert 30 3)] ++ steps 9 false ++ [.invoke true (.search 20), .run true]
    ++ steps 9 false ++ steps 12 true ++ steps 1 false

/-- The search found that the root had changed, and then its key below the new root. -/
theorem run_linearizable_split :
    ∃ s, run 2 init searchDuringSplit = some s ∧ s.depth = 2
      ∧ Event.respond 3 (Answer.searched (some 2)) ∈ s.history
      ∧ ∃ order m, Linearization mapSpec (fun _ => none) s.history order m
        ∧ WellFormed s.raw s.root s.depth ∧ ∀ k v, Contents s.raw s.root k v ↔ m k = some v := by
  have hrun : (run 2 init searchDuringSplit).map (fun s => (s.depth,
      decide (Event.respond 3 (Answer.searched (some 2)) ∈ s.history),
      decide (s.threads false = .idle), decide (s.threads true = .idle)))
      = some (2, true, true, true) := by decide +kernel
  obtain ⟨s, hs, heq⟩ := Option.map_eq_some_iff.1 hrun
  simp only [Prod.mk.injEq, decide_eq_true_eq] at heq
  obtain ⟨hdepth, hanswer, hidle₁, hidle₂⟩ := heq
  have hfirst : ∀ a ∈ searchDuringSplit, a.RootFirst := by
    simp [searchDuringSplit, steps, Action.RootFirst]
  obtain ⟨order, m, hlin, hrest⟩ := run_linearizable le_rfl (Stored.single 2 0) searchDuringSplit
    hfirst s hs
  exact ⟨s, hs, hdepth, hanswer, order, m, hlin, hrest (Bool.forall_bool.2 ⟨hidle₁, hidle₂⟩)⟩

end ConcurrentBPlusTree

end NvmTree
