/-
  NvmTree.Alone.Threads — `concurrent_insert` of one thread, as the machine.

  `Tracks` says for each program counter how the blocks and the local variables of
  the thread stand to the machine: what the thread has decided and not written yet,
  the machine has written already.  The optimistic calls look ahead: they walk down
  with the machine still at the root, and either find a leaf with room, which is all
  that changes, or give up, and the pessimistic calls start with the machine.

  That the thread is never stuck and comes to an end is what all threads together do
  (`NvmTree.Concurrent.Progress`, `NvmTree.Concurrent.Returns`), for one thread.

  Main results:
    * `step_tracks` — a step of the thread.
    * `insert_alone` — the call returns, and leaves the end of the machine.
-/
import NvmTree.Alone.Machine
import NvmTree.Concurrent.Returns

namespace NvmTree

open RangeTree Linearize

namespace ConcurrentBPlusTree

open Alone (Machine)

variable {T K V : Type*}

/-! ## §1. The thread and the machine. -/

/-- The blocks of the state, the root and the height. -/
def State.machine (s : State T K V) : Machine K V := ⟨s.blocks, s.allocator, s.root, s.depth, .done⟩

/-- The copy of a call that waits. -/
def Frame.kept (f : Frame K) : Alone.Frame K := ⟨f.inner_node, f.target_node_index⟩

def Unmodified (parents : List (Alone.Frame K)) : Prop := ∀ p ∈ parents, p.node.modified = false

section Tracks

variable [LinearOrder K] (cap : Nat) (G : Plan K BlkAddress) (key : K) (value : V)
  (τ σ : Machine K V)

/-- The machine with the blocks of `σ`, at `job`, comes to its end. -/
def Leading (job : Alone.Job K V) : Prop :=
  ∃ n, Machine.Leads cap G key value τ n (σ.goto job)

/-- Nothing is written yet. -/
def Fresh : Prop := Leading cap G key value τ σ (.down σ.root [])

/-- The optimistic calls are at `node`, below `parents`. -/
structure Looking (node : BlkAddress) (parents : List (Alone.Frame K)) : Prop where
  fresh : Fresh cap G key value τ σ
  leads : Leading cap G key value τ σ (.down node parents)
  unmodified : Unmodified parents

/-- The pessimistic calls are at `node`. -/
structure Descends (node : BlkAddress) (is_root : Bool) (parents : List (Frame K)) : Prop where
  leads : Leading cap G key value τ σ (.down node (parents.map Frame.kept))
  is_root : is_root = true ↔ parents = []
  frames : FramesOk parents

/-- The thread at a program counter. -/
def Tracks : InsertPc K V → Prop
  | .start => Fresh cap G key value τ σ
  | .optArgs => Fresh cap G key value τ σ
  | .optHeight root => root = σ.root ∧ Fresh cap G key value τ σ
  | .optRoot height => height = σ.depth ∧ Fresh cap G key value τ σ
  | .optLock node _ is_root _ => ∃ parents,
      Looking cap G key value τ σ node parents ∧ (is_root = true ↔ parents = [])
  | .optCheck node _ => node = σ.root ∧ Fresh cap G key value τ σ
  | .optRetry _ => False
  | .optUnlockParent node _ _ => ∃ parents, Looking cap G key value τ σ node parents
  | .optRead node _ => ∃ parents, Looking cap G key value τ σ node parents
  | .optWrite node leaf => leaf.selfRep = node ∧ τ = (σ.write (.leaf leaf)).goto .done
  | .optUnlock _ true => τ = σ.goto .done
  | .optUnlock _ false => Fresh cap G key value τ σ
  | .arg => Fresh cap G key value τ σ
  | .lock node is_root parents => Descends cap G key value τ σ node is_root parents
  | .check node => node = σ.root ∧ Fresh cap G key value τ σ
  | .retry _ => False
  | .read node is_root parents => Descends cap G key value τ σ node is_root parents
  | .leaf node is_root parents leaf =>
      (σ.blocks node).map Block.deserialize = some (.leaf leaf)
      ∧ Descends cap G key value τ σ node is_root parents
  | .writeLeft node is_root parents left right boundary_key =>
      Leading cap G key value τ ((σ.write left).write right)
        (.up (some ⟨left, right, boundary_key⟩) (parents.map Frame.kept))
      ∧ leftAddress node left = left.selfRep ∧ (is_root = true ↔ parents = []) ∧ FramesOk parents
  | .writeRight _ is_root parents left right boundary_key =>
      Leading cap G key value τ (σ.write right)
        (.up (some ⟨left, right, boundary_key⟩) (parents.map Frame.kept))
      ∧ (is_root = true ↔ parents = []) ∧ FramesOk parents
  | .newRoot _ left right boundary_key =>
      Leading cap G key value τ σ (.up (some ⟨left, right, boundary_key⟩) [])
  | .writeRoot _ _ _ _ new_inner_node =>
      τ = { σ.write (.inner new_inner_node) with
        root := new_inner_node.selfRep
        depth := σ.depth + 1
        job := .done }
  | .updateRoot _ _ _ _ new_inner_node =>
      τ = { σ with root := new_inner_node.selfRep, depth := σ.depth + 1, job := .done }
  | .writeBack f parents =>
      Leading cap G key value τ (σ.write (.inner f.inner_node)) (.up none (parents.map Frame.kept))
      ∧ f.inner_node.selfRep = f.current_node_id ∧ FramesOk parents
  | .inner f parents child_split => ∃ split,
      Leading cap G key value τ σ (.up (some split) ((f :: parents).map Frame.kept))
      ∧ child_split = ⟨split.right.selfRep, split.boundary⟩ ∧ FramesOk (f :: parents)
      ∧ ¬ f.inner_node.size < cap
  | .unlock _ parents split =>
      (parents = [] ∧ τ = σ.goto .done)
      ∨ (parents ≠ [] ∧ ∃ sp, Leading cap G key value τ σ (.up sp (parents.map Frame.kept))
        ∧ split = sp.map (fun sp => ⟨sp.right.selfRep, sp.boundary⟩) ∧ FramesOk parents)
  | .ret => τ = σ.goto .done

end Tracks

/-- The thread goes on, or the call has returned. -/
def Onward [LinearOrder K] (cap : Nat) (G : Plan K BlkAddress) (key : K) (value : V) (τ : Machine K V)
    (s : State T K V) (t : T) (id : Nat) : Prop :=
  (∃ pc, s.threads t = .inserting id key value pc ∧ Tracks cap G key value τ s.machine pc)
    ∨ (s.threads t = .idle ∧ τ = s.machine)

/-! ## §2. Steps that read a node. -/

section Steps

variable [LinearOrder K] [DecidableEq T] {cap : Nat} {G : Plan K BlkAddress} {key : K} {value : V}
  {τ σ : Machine K V} {s s' : State T K V} {t : T} {id : Nat} {pc : InsertPc K V}
  {node : BlkAddress}

theorem onward_goto (s : State T K V) (t : T) (id : Nat)
    (h : Tracks cap G key value τ s.machine pc) :
    Onward cap G key value τ (s.goto t (.inserting id key value pc)) t id :=
  Or.inl ⟨pc, Function.update_self .., h⟩

/-- A lock changes nothing else. -/
theorem onward_acquire {type : LockType}
    (hs : s.acquire t node type (.inserting id key value pc) = some s')
    (h : Tracks cap G key value τ s.machine pc) : Onward cap G key value τ s' t id := by
  unfold State.acquire at hs
  split at hs
  · cases hs
    exact onward_goto _ t id h
  · cases hs

omit [DecidableEq T] in
/-- The root is the node without parents. -/
theorem Leading.root (h : Leading cap G key value τ σ (.down node [])) : node = σ.root := by
  obtain ⟨n, h⟩ := h
  exact h.ok.job.2.2.1.1

omit [DecidableEq T] in
theorem Fresh.looking (h : Fresh cap G key value τ σ) : Looking cap G key value τ σ σ.root [] :=
  ⟨h, h, by simp [Unmodified]⟩

/-- An optimistic call reads its node.  A leaf with room takes the entry, and that is all;
an inner node leads on to a child.  A full leaf needs the pessimistic calls, and so does a
key below all slots. -/
theorem optRead_onward (hcap : 2 ≤ cap) {depth : Int} {parents : List (Alone.Frame K)}
    (hlook : Looking cap G key value τ s.machine node parents)
    (hs : insertStep cap s t id key value (.optRead node depth) = some s') :
    Onward cap G key value τ s' t id := by
  obtain ⟨n, hleads⟩ := hlook.leads
  unfold insertStep optStep at hs
  dsimp only at hs
  cases hb : (s.blocks node).map Block.deserialize with
  | none =>
      rw [hb] at hs
      cases hs
  | some x =>
      obtain ⟨hself, hsize, hmod, -⟩ := hleads.ok.read rfl hb
      rw [hb] at hs
      cases x with
      | leaf leaf =>
          dsimp only at hs
          by_cases hfull : leaf.size = cap
          · rw [if_pos hfull] at hs
            cases hs
            exact onward_goto s t id hlook.fresh
          · rw [if_neg hfull] at hs
            cases hs
            have hroom : leaf.size < cap := lt_of_le_of_ne hsize hfull
            have hsame := LeafNode.insertWithSplitSupport_of_room hroom key value s.allocator.next
            have hrep :=
              (LeafNode.insertWithSplitSupport_flags cap leaf key value s.allocator.next).1
            rw [hsame] at hrep
            obtain ⟨k, -, hk⟩ := hleads.next hcap (Machine.step_leaf rfl hb)
            rw [Machine.insertLeaf_kept hsame] at hk
            exact onward_goto s t id
              ⟨hrep.trans hself, hk.eq_of_unmodified hlook.unmodified hcap rfl⟩
      | inner inner_node =>
          dsimp only at hs
          by_cases hbelow : inner_node.locateChildIndex key < 0
          · rw [if_pos hbelow] at hs
            cases hs
            exact onward_goto s t id hlook.fresh
          · rw [if_neg hbelow] at hs
            have htoward := Alone.Frame.toward_of_nonneg hbelow
            cases hslot : inner_node.slots[(inner_node.locateChildIndex key).toNat]? with
            | none =>
                rw [hslot] at hs
                cases hs
            | some sl =>
                obtain ⟨ki, child⟩ := sl
                rw [hslot] at hs
                cases hs
                rw [← congrArg (fun p => p.node.slots[p.position]?) htoward] at hslot
                obtain ⟨k, -, hk⟩ := hleads.visit hcap rfl hb hslot
                rw [htoward] at hk
                refine onward_goto s t id ⟨_, ⟨hlook.fresh, ⟨k, hk⟩, fun p hp => ?_⟩, by simp⟩
                rcases List.mem_cons.1 hp with rfl | hp
                · exact hmod
                · exact hlook.unmodified p hp

/-- A pessimistic call reads its node, and keeps a copy of an inner one. -/
theorem read_onward (hcap : 2 ≤ cap) {is_root : Bool} {parents : List (Frame K)}
    (hdown : Descends cap G key value τ s.machine node is_root parents)
    (hs : insertStep cap s t id key value (.read node is_root parents) = some s') :
    Onward cap G key value τ s' t id := by
  obtain ⟨n, hleads⟩ := hdown.leads
  unfold insertStep readStep at hs
  dsimp only at hs
  cases hb : (s.blocks node).map Block.deserialize with
  | none =>
      rw [hb] at hs
      cases hs
  | some x =>
      obtain ⟨hself, -, -, -⟩ := hleads.ok.read rfl hb
      cases x with
      | leaf leaf =>
          rw [hb] at hs
          cases hs
          exact onward_goto s t id ⟨hb, hdown⟩
      | inner inner_node =>
          rw [hb] at hs
          dsimp only at hs
          have hrep := (Alone.Frame.toward_node key inner_node).1
          have hslots : (if inner_node.locateChildIndex key < 0 then inner_node.setFirstKey key
              else inner_node).slots[(inner_node.locateChildIndex key).toNat]?
              = (Alone.Frame.toward key inner_node).node.slots[(Alone.Frame.toward key
                inner_node).position]? := rfl
          rw [hslots] at hs
          cases hslot : (Alone.Frame.toward key inner_node).node.slots[(Alone.Frame.toward key
              inner_node).position]? with
          | none =>
              rw [hslot] at hs
              cases hs
          | some sl =>
              obtain ⟨ki, child⟩ := sl
              rw [hslot] at hs
              cases hs
              obtain ⟨k, -, hk⟩ := hleads.visit hcap rfl hb hslot
              exact onward_goto s t id
                ⟨⟨k, hk⟩, by simp, hdown.is_root, hrep.trans hself, hdown.frames⟩

/-! ## §3. Steps that write, and the way up. -/

omit [DecidableEq T] in
/-- A call that returns without a parent was the call on the root. -/
theorem tracks_unlock (hcap : 2 ≤ cap) (node : BlkAddress) {parents : List (Frame K)}
    {sp : Option (Alone.Split K V)}
    (hup : Leading cap G key value τ σ (.up sp (parents.map Frame.kept)))
    (hframes : FramesOk parents) (hsp : sp = none ∨ parents ≠ []) :
    Tracks cap G key value τ σ (.unlock node parents
      (sp.map (fun sp => ⟨sp.right.selfRep, sp.boundary⟩))) := by
  by_cases hnil : parents = []
  · left
    have hnone := hsp.resolve_right (not_not.2 hnil)
    rw [hnil, hnone] at hup
    obtain ⟨n, hup⟩ := hup
    obtain ⟨k, -, hk⟩ := hup.next hcap (Machine.step_top rfl)
    exact ⟨hnil, hk.ends.eq_of_done rfl⟩
  · exact Or.inr ⟨hnil, sp, hup, rfl, hframes⟩

/-- The leaf takes the entry, or is split. -/
theorem leaf_onward (hcap : 2 ≤ cap) {is_root : Bool} {parents : List (Frame K)}
    {leaf : LeafNode K V} (hb : (s.blocks node).map Block.deserialize = some (.leaf leaf))
    (hdown : Descends cap G key value τ s.machine node is_root parents)
    (hs : insertStep cap s t id key value (.leaf node is_root parents leaf) = some s') :
    Onward cap G key value τ s' t id := by
  obtain ⟨n, hleads⟩ := hdown.leads
  obtain ⟨k, -, hk⟩ := hleads.next hcap (Machine.step_leaf rfl hb)
  obtain ⟨⟨left, split⟩, hres⟩ :
    ∃ res, leaf.insertWithSplitSupport cap key value s.allocator.next = res := ⟨_, rfl⟩
  unfold insertStep at hs
  dsimp only at hs
  rw [hres] at hs
  cases split with
  | none =>
      cases hs
      rw [Machine.insertLeaf_kept hres] at hk
      exact onward_goto _ t id (tracks_unlock hcap node ⟨k, hk⟩ hdown.frames (Or.inl rfl))
  | some r =>
      obtain ⟨right, boundary_key⟩ := r
      cases hs
      rw [Machine.insertLeaf_split hres] at hk
      exact onward_goto _ t id ⟨⟨k, hk⟩, rfl, hdown.is_root, hdown.frames⟩

/-- A root over the two halves. -/
theorem newRoot_onward (hcap : 2 ≤ cap) {left right : Node K V} {boundary_key : K}
    (hup : Leading cap G key value τ s.machine (.up (some ⟨left, right, boundary_key⟩) []))
    (hs : insertStep cap s t id key value (.newRoot node left right boundary_key) = some s') :
    Onward cap G key value τ s' t id := by
  obtain ⟨n, hup⟩ := hup
  obtain ⟨hnl, hnr⟩ := hup.ok.job.2.2 _ rfl
  obtain ⟨kl, hkl⟩ := Option.ne_none_iff_exists'.1 hnl
  obtain ⟨kr, hkr⟩ := Option.ne_none_iff_exists'.1 hnr
  dsimp only at hkl hkr
  obtain ⟨k, -, hk⟩ := hup.next hcap ((Machine.step_root rfl).trans (Machine.newRoot_eq hkl hkr))
  unfold insertStep at hs
  dsimp only at hs
  rw [hkl, hkr] at hs
  cases hs
  exact onward_goto _ t id (hk.ends.eq_of_done rfl)

/-- A full parent is split. -/
theorem inner_onward (hcap : 2 ≤ cap) {f : Frame K} {parents : List (Frame K)}
    {split : Alone.Split K V}
    (hup : Leading cap G key value τ s.machine (.up (some split) ((f :: parents).map Frame.kept)))
    (hframes : FramesOk (f :: parents)) (hroom : ¬ f.inner_node.size < cap)
    (hs : insertStep cap s t id key value
      (.inner f parents ⟨split.right.selfRep, split.boundary⟩) = some s') :
    Onward cap G key value τ s' t id := by
  obtain ⟨n, hup⟩ := hup
  obtain ⟨hroot, hself, hframes⟩ := hframes
  have hflags := InnerNode.splitInsert_flags cap f.inner_node f.target_node_index split.right.selfRep
    split.boundary s.allocator.next
  obtain ⟨⟨left, right⟩, hhalves⟩ : ∃ halves, f.inner_node.splitInsert cap f.target_node_index
    split.right.selfRep split.boundary s.allocator.next = halves := ⟨_, rfl⟩
  rw [hhalves] at hflags
  unfold insertStep at hs
  dsimp only at hs
  rw [hhalves] at hs
  dsimp only at hs
  cases hslots : right.slots with
  | nil =>
      rw [hslots] at hs
      cases hs
  | cons sl rest =>
      obtain ⟨boundary_key, c⟩ := sl
      rw [hslots] at hs
      cases hs
      obtain ⟨k, -, hk⟩ := hup.next hcap
        ((Machine.step_split rfl).trans (Machine.addSplit_full hroom hhalves hslots))
      exact onward_goto _ t id ⟨⟨k, hk⟩, hself.symm.trans hflags.1.symm, hroot, hframes⟩

omit [DecidableEq T] in
/-- The call that waited goes on. -/
theorem tracks_resume (hcap : 2 ≤ cap) {f : Frame K} {parents : List (Frame K)}
    {sp : Option (Alone.Split K V)}
    (hup : Leading cap G key value τ σ (.up sp ((f :: parents).map Frame.kept)))
    (hframes : FramesOk (f :: parents)) :
    Tracks cap G key value τ σ (InsertPc.resume cap (f :: parents)
      (sp.map (fun sp => ⟨sp.right.selfRep, sp.boundary⟩))) := by
  obtain ⟨n, hleads⟩ := hup
  obtain ⟨hroot, hself, hrest⟩ := hframes
  cases sp with
  | none =>
      obtain ⟨k, -, hk⟩ := hleads.next hcap (Machine.step_up rfl)
      rw [Option.map_none, InsertPc.resume]
      by_cases hmod : f.inner_node.modified = true
      · rw [if_pos hmod]
        rw [if_pos (show f.kept.node.modified = true from hmod)] at hk
        exact ⟨⟨k, hk⟩, hself, hrest⟩
      · rw [if_neg hmod]
        rw [if_neg (show ¬ f.kept.node.modified = true from hmod)] at hk
        exact tracks_unlock hcap f.current_node_id ⟨k, hk⟩ hrest (Or.inl rfl)
  | some sp =>
      rw [Option.map_some, InsertPc.resume]
      by_cases hroom : f.inner_node.size < cap
      · obtain ⟨k, -, hk⟩ := hleads.next hcap
          ((Machine.step_split rfl).trans (Machine.addSplit_room hroom))
        rw [if_pos hroom]
        exact ⟨⟨k, hk⟩, hself, hrest⟩
      · rw [if_neg hroom]
        exact ⟨sp, ⟨n, hleads⟩, rfl, ⟨hroot, hself, hrest⟩, hroom⟩

/-- **A step of the thread.** -/
theorem step_tracks (hcap : 2 ≤ cap) (hs : insertStep cap s t id key value pc = some s')
    (h : Tracks cap G key value τ s.machine pc) : Onward cap G key value τ s' t id := by
  cases pc with
  | start =>
      cases hs
      exact onward_goto s t id h
  | optArgs =>
      cases hs
      exact onward_goto s t id ⟨rfl, h⟩
  | optHeight root =>
      cases hs
      obtain ⟨rfl, hfresh⟩ := h
      exact onward_goto s t id ⟨[], hfresh.looking, by simp⟩
  | optRoot height => cases hs
  | optLock node depth is_root parent =>
      obtain ⟨parents, hlook, hroot⟩ := h
      refine onward_acquire hs ?_
      cases is_root with
      | true =>
          obtain rfl := hroot.1 rfl
          exact ⟨hlook.leads.root, hlook.fresh⟩
      | false =>
          cases parent with
          | none => exact ⟨parents, hlook⟩
          | some p => exact ⟨parents, hlook⟩
  | optCheck node depth =>
      obtain ⟨rfl, hfresh⟩ := h
      unfold insertStep at hs
      dsimp only at hs
      rw [if_neg (show ¬ s.root ≠ s.machine.root from not_not.2 rfl)] at hs
      cases hs
      exact onward_goto s t id ⟨[], hfresh.looking⟩
  | optRetry node => exact h.elim
  | optUnlockParent node depth parent =>
      cases hs
      exact onward_goto _ t id h
  | optRead node depth =>
      obtain ⟨parents, hlook⟩ := h
      exact optRead_onward hcap hlook hs
  | optWrite node leaf =>
      obtain ⟨rfl, hend⟩ := h
      cases hs
      exact onward_goto _ t id hend
  | optUnlock node is_succeed =>
      cases hs
      cases is_succeed with
      | true => exact onward_goto _ t id h
      | false => exact onward_goto _ t id h
  | arg =>
      cases hs
      exact onward_goto s t id ⟨h, by simp, trivial⟩
  | lock node is_root parents =>
      refine onward_acquire hs ?_
      cases is_root with
      | true =>
          have hleads := h.leads
          rw [h.is_root.1 rfl] at hleads
          obtain rfl := Leading.root hleads
          exact ⟨rfl, hleads⟩
      | false => exact h
  | check node =>
      obtain ⟨rfl, hfresh⟩ := h
      unfold insertStep at hs
      dsimp only at hs
      rw [if_neg (show ¬ s.root ≠ s.machine.root from not_not.2 rfl)] at hs
      cases hs
      exact onward_goto s t id ⟨hfresh, by simp, trivial⟩
  | retry node => exact h.elim
  | read node is_root parents => exact read_onward hcap h hs
  | leaf node is_root parents leaf => exact leaf_onward hcap h.1 h.2 hs
  | writeLeft node is_root parents left right boundary_key =>
      obtain ⟨hup, haddr, hrest⟩ := h
      unfold insertStep at hs
      dsimp only at hs
      rw [haddr] at hs
      cases hs
      exact onward_goto _ t id ⟨hup, hrest⟩
  | writeRight node is_root parents left right boundary_key =>
      obtain ⟨hup, hroot, hframes⟩ := h
      cases hs
      cases is_root with
      | true =>
          rw [hroot.1 rfl] at hup
          exact onward_goto _ t id hup
      | false =>
          have hne : parents ≠ [] := fun hnil => Bool.false_ne_true (hroot.2 hnil)
          exact onward_goto _ t id (tracks_unlock hcap node hup hframes (Or.inr hne))
  | newRoot node left right boundary_key => exact newRoot_onward hcap h hs
  | writeRoot node left right boundary_key new_inner_node =>
      cases hs
      exact onward_goto _ t id h
  | updateRoot node left right boundary_key new_inner_node =>
      cases hs
      exact onward_goto _ t id (Or.inl ⟨rfl, h⟩)
  | writeBack f parents =>
      obtain ⟨hup, hself, hframes⟩ := h
      unfold insertStep at hs
      dsimp only at hs
      rw [← hself] at hs
      cases hs
      exact onward_goto _ t id (tracks_unlock hcap _ hup hframes (Or.inl rfl))
  | inner f parents child_split =>
      obtain ⟨split, hup, rfl, hframes, hroom⟩ := h
      exact inner_onward hcap hup hframes hroom hs
  | unlock node parents split =>
      cases hs
      rcases h with ⟨rfl, hend⟩ | ⟨hne, sp, hup, rfl, hframes⟩
      · exact onward_goto _ t id hend
      · obtain ⟨f, parents, rfl⟩ := List.exists_cons_of_ne_nil hne
        exact onward_goto _ t id (tracks_resume hcap hup hframes)
  | ret =>
      cases hs
      exact Or.inr ⟨Function.update_self .., h⟩

/-! ## §4. The thread alone. -/

/-- `t` inserts, and no other thread is in a call. -/
structure Solo (cap : Nat) (G : Plan K BlkAddress) (m₀ : K → Option V) (key : K) (value : V)
    (τ : Machine K V) (s : State T K V) (t : T) (id : Nat) (pc : InsertPc K V) : Prop where
  sound : s.Sound cap m₀
  others : ∀ u, u ≠ t → s.threads u = .idle
  thread : s.threads t = .inserting id key value pc
  tracks : Tracks cap G key value τ s.machine pc

/-- A step of the thread, whichever argument it evaluates first. -/
theorem by_onward (hcap : 2 ≤ cap) {a : Action T K V} (ha : a.By t)
    (hthread : s.threads t = .inserting id key value pc)
    (h : Tracks cap G key value τ s.machine pc) (hs : step cap s a = some s') :
    Onward cap G key value τ s' t id := by
  cases a with
  | invoke u op => exact ha.elim
  | run u =>
      cases ha
      rw [step, hthread] at hs
      exact step_tracks hcap hs h
  | heightFirst u =>
      cases ha
      rw [step, hthread] at hs
      cases pc with
      | optArgs =>
          cases hs
          exact onward_goto s _ id ⟨rfl, h⟩
      | _ => cases hs
  | rootAfter u =>
      cases ha
      rw [step, hthread] at hs
      cases pc with
      | optRoot height =>
          cases hs
          exact onward_goto s _ id ⟨[], h.2.looking, by simp⟩
      | _ => cases hs

omit [DecidableEq T] in
/-- The height that the thread has read is still the tree's. -/
theorem by_current {a : Action T K V} (ha : a.By t)
    (hthread : s.threads t = .inserting id key value pc)
    (h : Tracks cap G key value τ s.machine pc) : a.Current s := by
  cases a with
  | rootAfter u =>
      cases ha
      unfold Action.Current
      dsimp only
      rw [hthread]
      cases pc with
      | optRoot height => exact h.1
      | _ => trivial
  | _ => trivial

variable {m₀ : K → Option V} {n : Nat}

/-- A step of the thread alone. -/
theorem Solo.next (hcap : 2 ≤ cap) (h : Solo cap G m₀ key value τ s t id pc) {a : Action T K V}
    (ha : a.By t) (hs : step cap s a = some s') :
    (∃ pc', Solo cap G m₀ key value τ s' t id pc') ∨ (s'.threads t = .idle ∧ τ = s'.machine) := by
  rcases by_onward hcap ha h.thread h.tracks hs with ⟨pc', hthread, htracks⟩ | hdone
  · refine Or.inl ⟨pc', ?_, fun u hu => ?_, hthread, htracks⟩
    · exact step_sound hcap h.sound (by_current ha h.thread h.tracks) hs
    · rw [h.sound.threads_by ha hs hu]
      exact h.others u hu
  · exact Or.inr hdone

/-- The call returns, by induction on what the thread has left. -/
theorem Solo.returns (hcap : 2 ≤ cap) (n : Nat ×ₗ Nat) : ∀ {G' : Plan K BlkAddress}
    {s : State T K V} {pc : InsertPc K V}, Ranked cap m₀ G' {t} s n →
      Solo cap G m₀ key value τ s t id pc →
      ∃ as s', (∀ a ∈ as, Action.By t a) ∧ run cap s as = some s' ∧ s'.threads t = .idle := by
  induction n using WellFoundedLT.induction with
  | _ n ih =>
      intro G' s pc hranked h
      obtain ⟨a, s', ha, hs⟩ := h.sound.exists_step hcap (t := t) (by rw [h.thread]; simp)
      obtain ⟨u, hby⟩ := ha.exists_by
      obtain rfl : u = t := by
        by_contra hne
        exact hby.busy hs (h.others u hne)
      obtain ⟨G₁, n', hlt, hranked'⟩ :=
        hranked.fall hcap ⟨ha, by_current hby h.thread h.tracks, hs⟩
      have hrun : ∀ as, run cap s (a :: as) = run cap s' as := fun as => by
        rw [run, hs, Option.bind_some]
      rcases h.next hcap hby hs with ⟨pc', h'⟩ | ⟨hidle, -⟩
      · obtain ⟨as, s'', has, hr, hidle⟩ := ih n' hlt hranked' h'
        refine ⟨a :: as, s'', fun b hb => ?_, (hrun as).trans hr, hidle⟩
        rcases List.mem_cons.1 hb with rfl | hb
        · exact hby
        · exact has b hb
      · refine ⟨[a], s', fun b hb => ?_, hrun [], hidle⟩
        rw [List.mem_singleton.1 hb]
        exact hby

/-- Whenever it returns, it leaves the end of the machine. -/
theorem Solo.ends (hcap : 2 ≤ cap) : ∀ {as : List (Action T K V)} {s s' : State T K V}
    {pc : InsertPc K V}, Solo cap G m₀ key value τ s t id pc → (∀ a ∈ as, a.By t) →
      run cap s as = some s' → s'.threads t = .idle → s'.machine = τ := by
  intro as
  induction as with
  | nil =>
      intro s s' pc h _ hrun hidle
      cases hrun
      cases h.thread.symm.trans hidle
  | cons a as ih =>
      intro s s' pc h has hrun hidle
      obtain ⟨s₁, hs, hrun⟩ := Option.bind_eq_some_iff.1 hrun
      have hrest : ∀ b ∈ as, Action.By t b := fun b hb => has b (List.mem_cons_of_mem _ hb)
      rcases h.next hcap (has a List.mem_cons_self) hs with ⟨pc', h'⟩ | ⟨hidle₁, hend⟩
      · exact ih h' hrest hrun hidle
      · -- a thread that is not in a call takes no step
        cases as with
        | nil =>
            cases hrun
            exact hend.symm
        | cons b as =>
            obtain ⟨s₂, hs₂, -⟩ := Option.bind_eq_some_iff.1 hrun
            exact absurd hidle₁ ((hrest b List.mem_cons_self).busy hs₂)

/-- **One insertion alone** returns, and whenever it does it leaves the end of the
machine. -/
theorem insert_alone (hcap : 2 ≤ cap) {blocks : BlkAddress → Option (Block K V)}
    {allocator : Allocator} {root : BlkAddress} {depth : Nat}
    (hstored : Stored cap blocks allocator root depth m₀)
    (hleads : Machine.Leads cap G key value τ n ⟨blocks, allocator, root, depth, .down root []⟩)
    (t : T) :
    (∃ as s, (∀ a ∈ as, Action.By t a) ∧ run cap (start blocks allocator root depth)
        (.invoke t (.insert key value) :: as) = some s ∧ s.threads t = .idle)
      ∧ ∀ as s, (∀ a ∈ as, Action.By t a) → run cap (start blocks allocator root depth)
        (.invoke t (.insert key value) :: as) = some s → s.threads t = .idle → s.machine = τ := by
  obtain ⟨s₀, hs₀⟩ : ∃ s, step cap (start blocks allocator root depth) (.invoke t (.insert key value))
      = some s := ⟨_, rfl⟩
  have hsolo : Solo cap G m₀ key value τ s₀ t 0 .start := by
    have hsound := step_sound (a := .invoke t (.insert key value)) hcap (start_sound hstored)
      trivial hs₀
    cases hs₀
    exact ⟨hsound, fun u hu => Function.update_of_ne hu _ _, Function.update_self ..,
      n, hleads⟩
  have hrun : ∀ as, run cap (start blocks allocator root depth)
      (.invoke t (.insert key value) :: as) = run cap s₀ as := fun as => by
    rw [run, hs₀, Option.bind_some]
  constructor
  · obtain ⟨E, G', m, order, hinv⟩ := hsolo.sound
    have hranked : Ranked cap m₀ G' {t} s₀ _ :=
      ⟨⟨E, m, order, hinv⟩, fun u hu => hsolo.others u fun he => hu (Finset.mem_singleton.2 he), rfl⟩
    obtain ⟨as, s, has, hr, hidle⟩ := hsolo.returns hcap _ hranked
    exact ⟨as, s, has, (hrun as).trans hr, hidle⟩
  · intro as s has hr hidle
    exact hsolo.ends hcap has ((hrun as).symm.trans hr) hidle

end Steps

end ConcurrentBPlusTree

end NvmTree
