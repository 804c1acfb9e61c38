/-
  NvmTree.Concurrent.Accesses — what one access to shared state does to the invariant.

  A step does one access and then goes to its next program counter.  For each kind of
  access there is one lemma: it keeps the invariant if the thread knows afterwards what
  its new program counter asks for.  What the others know is kept by `Inv.next`.

  Main results: `Inv.goto`, `Inv.acquire`, `Inv.release`, `Inv.write`, `Inv.alloc`,
  `Inv.invoke`, `Inv.respond`.
-/
import NvmTree.Concurrent.Invariant
import NvmTree.RangeTree.Flush

namespace NvmTree

open RangeTree Linearize

namespace ConcurrentBPlusTree

variable {T K V : Type*} [DecidableEq T]

/-! ## §1. The locks of a thread. -/

namespace LockManager

variable {m : LockManager T} {t u : T} {id x : BlkAddress} {type : LockType}

theorem lockOf_acquire_self (m : LockManager T) (t : T) (id : BlkAddress) (type : LockType) :
    (m.acquire t id type).lockOf t id = some type := by
  unfold lockOf acquire
  rw [Function.update_self]
  simp

theorem lockOf_acquire_of_ne (h : u ≠ t ∨ x ≠ id) :
    (m.acquire t id type).lockOf u x = m.lockOf u x := by
  unfold lockOf acquire
  by_cases hx : x = id
  · subst hx
    have hut : u ≠ t := h.resolve_right (fun hn => hn rfl)
    rw [Function.update_self, List.lookup_cons, beq_eq_false_iff_ne.2 hut]
  · rw [Function.update_of_ne hx]

theorem lookup_filter (l : List (T × LockType)) (u t : T) :
    (l.filter (fun h => h.1 ≠ t)).lookup u = if u = t then none else l.lookup u := by
  induction l with
  | nil => simp
  | cons e l ih =>
      obtain ⟨v, type⟩ := e
      by_cases hvt : v = t
      · rw [List.filter_cons_of_neg (by simpa using hvt), ih, List.lookup_cons]
        by_cases hut : u = t
        · rw [if_pos hut, if_pos hut]
        · have huv : u ≠ v := fun he => hut (he.trans hvt)
          rw [if_neg hut, if_neg hut, beq_eq_false_iff_ne.2 huv]
      · rw [List.filter_cons_of_pos (by simpa using hvt), List.lookup_cons, List.lookup_cons, ih]
        by_cases huv : u = v
        · subst huv
          simp [hvt]
        · rw [beq_eq_false_iff_ne.2 huv]

theorem lockOf_release_self (m : LockManager T) (t : T) (id : BlkAddress) :
    (m.release t id).lockOf t id = none := by
  unfold lockOf release
  rw [Function.update_self, lookup_filter, if_pos rfl]

theorem lockOf_release_of_ne (h : u ≠ t ∨ x ≠ id) :
    (m.release t id).lockOf u x = m.lockOf u x := by
  unfold lockOf release
  by_cases hx : x = id
  · subst hx
    have hut : u ≠ t := h.resolve_right (fun hn => hn rfl)
    rw [Function.update_self, lookup_filter, if_neg hut]
  · rw [Function.update_of_ne hx]

/-- A release takes nothing but that lock. -/
theorem lockOf_of_release (h : (m.release t id).lockOf u x = some type) :
    m.lockOf u x = some type := by
  by_cases hne : u ≠ t ∨ x ≠ id
  · rwa [lockOf_release_of_ne hne] at h
  · obtain ⟨rfl, rfl⟩ : u = t ∧ x = id := by simpa using hne
    rw [lockOf_release_self] at h
    cases h

theorem mem_of_lockOf (h : m.lockOf u x = some type) : (u, type) ∈ m x := by
  unfold lockOf at h
  obtain ⟨l₁, l₂, hl, -⟩ := List.lookup_eq_some_iff.1 h
  rw [hl]
  simp

/-- Nobody writes a node whose lock is admitted … -/
theorem not_write_of_admits (h : m.admits id type = true) : m.lockOf u id ≠ some .write := by
  intro hw
  have hm := mem_of_lockOf hw
  cases type with
  | read => simpa using List.all_eq_true.1 h _ hm
  | write =>
      rw [List.isEmpty_iff.1 h] at hm
      cases hm

/-- … and nobody holds it when it is admitted in write mode. -/
theorem lockOf_of_admits (h : m.admits id .write = true) : m.lockOf u id = none := by
  unfold lockOf
  rw [List.isEmpty_iff.1 h]
  rfl

end LockManager

/-! ## §2. The world after an access. -/

section

variable [LinearOrder K] {cap : Nat} {m₀ m m' : K → Option V} {s s' : State T K V}
  {E E' : Store K V BlkAddress} {G G' : Plan K BlkAddress}
  {order order' : List (Nat × Op K V × Answer V)} {t : T} {th : Thread K V} {node : BlkAddress}

omit [LinearOrder K] in
/-- The modes depend on the new blocks and the locks of each thread. -/
theorem mode_congr (hfresh : ∀ u, (s'.threads u).fresh = (s.threads u).fresh)
    (hlocks : s'.locks = s.locks) : s'.mode = s.mode := by
  funext u x
  unfold State.mode
  rw [hfresh u, hlocks]

omit [LinearOrder K] in
theorem fresh_goto (hfresh : th.fresh = (s.threads t).fresh) (u : T) :
    ((s.goto t th).threads u).fresh = (s.threads u).fresh := by
  by_cases hu : u = t
  · rw [hu]
    show (Function.update s.threads t th t).fresh = _
    rw [Function.update_self, hfresh]
  · show (Function.update s.threads t th u).fresh = _
    rw [Function.update_of_ne hu]

omit [LinearOrder K] in
@[simp] theorem goto_self (s : State T K V) (t : T) (th : Thread K V) :
    (s.goto t th).threads t = th := Function.update_self ..

omit [LinearOrder K] in
theorem goto_other {u : T} (hu : u ≠ t) : (s.goto t th).threads u = s.threads u :=
  Function.update_of_ne hu ..

omit [LinearOrder K] in
/-- The new blocks of all threads, when one goes on. -/
theorem not_fresh_goto {x : BlkAddress} (hsub : x ∈ th.fresh → x ∈ (s.threads t).fresh)
    (h : ∀ u, x ∉ (s.threads u).fresh) (u : T) : x ∉ ((s.goto t th).threads u).fresh := by
  by_cases hu : u = t
  · rw [hu, goto_self]
    exact fun hx => h t (hsub hx)
  · rw [goto_other hu]
    exact h u

/-- The ledger of a thread that stays at its operation. -/
theorem Inv.ledger_same (h : Inv cap m₀ s E G m order) (hst : th.status = (s.threads t).status) :
    Ledger mapSpec m₀ s.nextId s.history
      (Function.update (fun u => (s.threads u).status) t th.status) order m := by
  rw [hst, Function.update_eq_self]
  exact h.ledger

/-- What is read from a node that shows the tree. -/
theorem Inv.shows (h : Inv cap m₀ s E G m order) (hk : (s.world E G).Knows node)
    (hclean : (s.world E G).Clean t node) :
    ∃ b, s.blocks node = some b ∧ b.selfRep = node ∧ b.deserialize.size ≤ cap
      ∧ E node = some b.shape := by
  obtain ⟨sp, hsp⟩ := hk
  obtain ⟨κ, ht⟩ := h.ok.tree
  obtain ⟨sh, hE, -⟩ := ht.node hsp
  obtain ⟨b, hb, hshape⟩ := Option.map_eq_some_iff.1 (hclean.2.trans hE)
  obtain ⟨hself, hsize⟩ := h.blocks node b hb
  exact ⟨b, hb, hself, hsize, by rw [hshape]; exact hE⟩

/-! ## §3. No access. -/

/-- **A thread goes on**, and may decide what a node it writes is to contain. -/
theorem Inv.goto (h : Inv cap m₀ s E G m order) (hfresh : th.fresh = (s.threads t).fresh)
    (hnodes : ∀ x ∈ (s.threads t).nodes, x ∈ th.nodes)
    (hguars : World.Guars t (s.world E G) (s.world E' G)) (hok : (s.world E' G).Ok m)
    (hknow : ThreadOk cap (s.world E' G) t th)
    (hledger : Ledger mapSpec m₀ s.nextId s.history
      (Function.update (fun u => (s.threads u).status) t th.status) order' m) :
    Inv cap m₀ (s.goto t th) E' G m order' := by
  have hworld : (s.goto t th).world E' G = s.world E' G := by
    unfold State.world
    rw [mode_congr (fresh_goto hfresh) rfl]
    rfl
  refine h.next t (hworld ▸ hguars) (hworld ▸ hok) h.blocks h.allocator (fun x hx => ?_)
    (fun u hu => goto_other hu) (fun _ _ _ => rfl) (fun x hx => ?_) ?_ ?_
  · obtain ⟨hG, hnot⟩ := h.unused x hx
    exact ⟨hG, not_fresh_goto (fun hx => hfresh ▸ hx) hnot⟩
  · obtain ⟨hmem, hplan⟩ := h.locked t x hx
    rw [goto_self]
    exact ⟨hnodes x hmem, hplan⟩
  · rw [hworld, goto_self]
    exact hknow
  · rw [goto_self]
    exact hledger

/-- A thread goes on and nothing is decided. -/
theorem Inv.pass (h : Inv cap m₀ s E G m order) (hfresh : th.fresh = (s.threads t).fresh)
    (hnodes : ∀ x ∈ (s.threads t).nodes, x ∈ th.nodes)
    (hst : th.status = (s.threads t).status) (hknow : ThreadOk cap (s.world E G) t th) :
    Inv cap m₀ (s.goto t th) E G m order :=
  h.goto hfresh hnodes (.refl _) h.ok hknow (h.ledger_same hst)

/-! ## §4. Locks. -/

/-- **A lock is acquired.**  The node shows the tree, since nobody writes it. -/
theorem Inv.acquire {type : LockType} (h : Inv cap m₀ s E G m order)
    (hacq : s.acquire t node type th = some s') (hnode : (s.world E G).Knows node)
    (hfresh : th.fresh = (s.threads t).fresh)
    (hnodes : ∀ x, x = node ∨ x ∈ (s.threads t).nodes → x ∈ th.nodes)
    (hst : th.status = (s.threads t).status)
    (hknow : ∀ w', (s.world E G).withMode w'.mode = w' → w'.Ok m → w'.mode t node = some type →
      (∀ x, x ≠ node → w'.mode t x = s.mode t x) → w'.Clean t node → ThreadOk cap w' t th) :
    Inv cap m₀ s' E G m order := by
  unfold State.acquire at hacq
  split at hacq
  case isFalse => cases hacq
  case isTrue hadm =>
  cases hacq
  generalize hs' : ({ s with locks := s.locks.acquire t node type }.goto t th : State T K V) = s'
  have hthreads : s'.threads = Function.update s.threads t th := by rw [← hs']; rfl
  have hlocks : s'.locks = s.locks.acquire t node type := by rw [← hs']; rfl
  have hself : s'.threads t = th := by rw [hthreads, Function.update_self]
  have hother : ∀ u, u ≠ t → s'.threads u = s.threads u := by
    intro u hu
    rw [hthreads, Function.update_of_ne hu]
  have hworld : (s.world E G).withMode (s'.mode) = s'.world E G := by
    rw [← hs']
    rfl
  obtain ⟨sp, hsp⟩ := hnode
  -- `node` is in the tree, so it is nobody's new block
  have hnotfresh : ∀ u, node ∉ (s.threads u).fresh := by
    intro u hm
    have hnone : G node = none := (h.know u).fresh hm
    cases hnone.symm.trans hsp
  have hmode : ∀ u x, u ≠ t ∨ x ≠ node → s'.mode u x = s.mode u x := by
    intro u x hne
    have hfr : (s'.threads u).fresh = (s.threads u).fresh := by
      by_cases hu : u = t
      · rw [hu, hself, hfresh]
      · rw [hother u hu]
    unfold State.mode
    rw [hfr, hlocks, LockManager.lockOf_acquire_of_ne hne]
  have hgot : s'.mode t node = some type := by
    unfold State.mode
    rw [hself, hfresh, if_neg (hnotfresh t), hlocks, LockManager.lockOf_acquire_self]
  have hnowrite : ∀ u, ¬ (s.world E G).Writes u node := by
    intro u hw
    have hw' : s.mode u node = some .write := hw
    unfold State.mode at hw'
    rw [if_neg (hnotfresh u)] at hw'
    exact LockManager.not_write_of_admits hadm hw'
  have hkeep : ∀ j x ν, j ≠ t → (s.world E G).mode j x = some ν → s'.mode j x = some ν :=
    fun j x ν hj hm => (hmode j x (.inl hj)).trans hm
  have hok : (s'.world E G).Ok m := by
    rw [← hworld]
    refine h.ok.remode hkeep ?_ ?_
    · intro j j' x hj hj'
      by_cases hx : x = node
      · subst hx
        -- a new writer finds the node free, and there was no other
        by_cases hjt : j = t
        · subst hjt
          rw [hgot] at hj
          cases hj
          by_contra hne
          rw [hmode j' x (.inl (fun he => hne he.symm))] at hj'
          unfold State.mode at hj'
          rw [if_neg (hnotfresh j'), LockManager.lockOf_of_admits hadm] at hj'
          exact hj' rfl
        · rw [hmode j x (.inl hjt)] at hj
          exact absurd hj (hnowrite j)
      · rw [hmode j x (.inr hx)] at hj
        rw [hmode j' x (.inr hx)] at hj'
        exact h.ok.excl hj hj'
    · intro x sp' _ hw hne
      by_cases hx : x = node
      · exact absurd (hx ▸ hw) (hnowrite t)
      · exact absurd ((hmode t x (.inr hx)).trans hw) hne
  have hguar : World.Guar t (s.world E G) (s'.world E G) := by
    rw [← hworld]
    exact World.guar_withMode hkeep
  have hclean : (s'.world E G).Clean t node := by
    refine ⟨?_, ?_⟩
    · show s'.mode t node ≠ none
      rw [hgot]
      nofun
    · rw [← hworld]
      exact h.ok.clean hsp hnowrite
  refine h.next t (.one h.ok hok hguar) hok ?_ ?_ (fun x hx => ?_) hother (fun u x hu => ?_)
    (fun x hx => ?_) ?_ ?_
  · rw [← hs']; exact h.blocks
  · rw [← hs']; exact h.allocator
  · rw [← hs'] at hx ⊢
    obtain ⟨hG, hnot⟩ := h.unused x hx
    exact ⟨hG, not_fresh_goto (fun hx => hfresh ▸ hx) hnot⟩
  · rw [hlocks, LockManager.lockOf_acquire_of_ne (.inl hu)]
  · rw [hself]
    by_cases hxn : x = node
    · exact ⟨hnodes x (.inl hxn), sp, hxn ▸ hsp⟩
    · rw [hlocks, LockManager.lockOf_acquire_of_ne (.inr hxn)] at hx
      obtain ⟨hmem, hplan⟩ := h.locked t x hx
      exact ⟨hnodes x (.inr hmem), hplan⟩
  · rw [hself]
    exact hknow _ hworld hok hgot (fun x hx => hmode t x (.inr hx)) hclean
  · rw [hself, ← hs']
    exact h.ledger_same hst

omit [LinearOrder K] in
/-- A thread that acquires a lock holds what it held. -/
theorem held_acquired {w' : World T K V BlkAddress}
    (hkeep : ∀ x, x ≠ node → w'.mode t x = s.mode t x) (hclean : w'.Clean t node) {x : BlkAddress}
    (hx : (s.world E G).Held t x) : w'.Held t x := by
  by_cases hxn : x = node
  · exact hxn ▸ hclean.1
  · unfold World.Held
    rw [hkeep x hxn]
    exact hx

omit [LinearOrder K] in
/-- A node that is kept shows the tree as before. -/
theorem clean_released {w' : World T K V BlkAddress} {a : BlkAddress}
    (hw' : (s.world E G).withMode w'.mode = w') (hkeep : w'.mode t a = s.mode t a)
    (h : (s.world E G).Clean t a) : w'.Clean t a := by
  refine ⟨?_, ?_⟩
  · unfold World.Held
    rw [hkeep]
    exact h.1
  · rw [← hw']
    exact h.2

/-- **A lock is released**, of a node that shows the tree. -/
theorem Inv.release (h : Inv cap m₀ s E G m order) (hclean : (s.world E G).Clean t node)
    (hfresh : th.fresh = (s.threads t).fresh)
    (hnodes : ∀ x ∈ (s.threads t).nodes, x ≠ node → x ∈ th.nodes)
    (hst : th.status = (s.threads t).status)
    (hknow : ∀ w', (s.world E G).withMode w'.mode = w' → w'.Ok m →
      (∀ x, x ≠ node → w'.mode t x = s.mode t x) → ThreadOk cap w' t th) :
    Inv cap m₀ (s.release t node th) E G m order := by
  generalize hs' : s.release t node th = s'
  have hthreads : s'.threads = Function.update s.threads t th := by rw [← hs']; rfl
  have hlocks : s'.locks = s.locks.release t node := by rw [← hs']; rfl
  have hself : s'.threads t = th := by rw [hthreads, Function.update_self]
  have hother : ∀ u, u ≠ t → s'.threads u = s.threads u := by
    intro u hu
    rw [hthreads, Function.update_of_ne hu]
  have hworld : (s.world E G).withMode (s'.mode) = s'.world E G := by
    rw [← hs']
    rfl
  have hfr : ∀ u, (s'.threads u).fresh = (s.threads u).fresh := by
    intro u
    by_cases hu : u = t
    · rw [hu, hself, hfresh]
    · rw [hother u hu]
  have hmode : ∀ u x, u ≠ t ∨ x ≠ node → s'.mode u x = s.mode u x := by
    intro u x hne
    unfold State.mode
    rw [hfr u, hlocks, LockManager.lockOf_release_of_ne hne]
  have hless : ∀ {u x ν}, s'.mode u x = some ν → s.mode u x = some ν := by
    intro u x ν hm
    unfold State.mode at hm ⊢
    rw [hfr u] at hm
    split at hm
    · next hx => rw [if_pos hx]; exact hm
    · next hx =>
        rw [if_neg hx]
        exact LockManager.lockOf_of_release (hlocks ▸ hm)
  have hkeep : ∀ j x ν, j ≠ t → (s.world E G).mode j x = some ν → s'.mode j x = some ν :=
    fun j x ν hj hm => (hmode j x (.inl hj)).trans hm
  have hok : (s'.world E G).Ok m := by
    rw [← hworld]
    refine h.ok.remode hkeep ?_ ?_
    · intro j j' x hj hj'
      obtain ⟨ν, hν⟩ := Option.ne_none_iff_exists'.1 hj'
      refine h.ok.excl (hless hj) ?_
      show s.mode j' x ≠ none
      rw [hless hν]
      nofun
    · intro x sp' _ hw hne
      by_cases hx : x = node
      · rw [hx]
        exact hclean.2
      · exact absurd ((hmode t x (.inr hx)).trans hw) hne
  have hguar : World.Guar t (s.world E G) (s'.world E G) := by
    rw [← hworld]
    exact World.guar_withMode hkeep
  refine h.next t (.one h.ok hok hguar) hok ?_ ?_ (fun x hx => ?_) hother (fun u x hu => ?_)
    (fun x hx => ?_) ?_ ?_
  · rw [← hs']; exact h.blocks
  · rw [← hs']; exact h.allocator
  · rw [← hs'] at hx ⊢
    obtain ⟨hG, hnot⟩ := h.unused x hx
    exact ⟨hG, not_fresh_goto (fun hx => hfresh ▸ hx) hnot⟩
  · rw [hlocks, LockManager.lockOf_release_of_ne (.inl hu)]
  · rw [hself]
    rw [hlocks] at hx
    have hxn : x ≠ node := by
      rintro rfl
      exact hx (LockManager.lockOf_release_self ..)
    rw [LockManager.lockOf_release_of_ne (.inr hxn)] at hx
    obtain ⟨hmem, hplan⟩ := h.locked t x hx
    exact ⟨hnodes x hmem hxn, hplan⟩
  · rw [hself]
    exact hknow _ hworld hok (fun x hx => hmode t x (.inr hx))
  · rw [hself, ← hs']
    exact h.ledger_same hst

/-! ## §5. Blocks. -/

omit [LinearOrder K] in
/-- What the blocks contain after a write. -/
theorem raw_write (s : State T K V) (t : T) (a : BlkAddress) (b : Block K V) (th : Thread K V) :
    (s.write t a b th).raw = Function.update s.raw a (some b.shape) :=
  map_shape_update s.blocks a b

omit [LinearOrder K] in
theorem world_write (hfresh : th.fresh = (s.threads t).fresh) (a : BlkAddress) (b : Block K V)
    (E : Store K V BlkAddress) (G : Plan K BlkAddress) :
    { s.world E G with raw := Function.update s.raw a (some b.shape) }
      = (s.write t a b th).world E G := by
  have hmode : (s.write t a b th).mode = s.mode := mode_congr (fresh_goto hfresh) rfl
  unfold State.world
  rw [raw_write, hmode]
  rfl

/-- **A block is written**, as part of a change of the tree. -/
theorem Inv.write (h : Inv cap m₀ s E G m order) {a : BlkAddress} {b : Block K V}
    (hself : b.selfRep = a) (hsize : b.deserialize.size ≤ cap)
    (hguars : World.Guars t (s.world E G) ((s.write t a b th).world E' G'))
    (hok : ((s.write t a b th).world E' G').Ok m')
    (hfresh : ∀ x ∈ th.fresh, x ∈ (s.threads t).fresh)
    (hplan : ∀ x, x ∉ (s.threads t).fresh → G x = none → G' x = none)
    (hnodes : ∀ x ∈ (s.threads t).nodes, x ∈ th.nodes)
    (hknow : ThreadOk cap ((s.write t a b th).world E' G') t th)
    (hledger : Ledger mapSpec m₀ s.nextId s.history
      (Function.update (fun u => (s.threads u).status) t th.status) order' m') :
    Inv cap m₀ (s.write t a b th) E' G' m' order' := by
  have hthread : (s.write t a b th).threads t = th := Function.update_self ..
  refine h.next t hguars hok (h.blocks.update hself hsize) h.allocator (fun x hx => ?_)
    (fun u hu => Function.update_of_ne hu ..) (fun _ _ _ => rfl) (fun x hx => ?_) ?_ ?_
  · obtain ⟨hG, hnot⟩ := h.unused x hx
    exact ⟨hplan x (hnot t) hG, not_fresh_goto (hfresh x) hnot⟩
  · obtain ⟨hmem, hknown⟩ := h.locked t x hx
    rw [hthread]
    exact ⟨hnodes x hmem,
      hguars.induct (P := fun w => w.Knows x) (fun _ _ hg hk => hk.stable hg) hknown⟩
  · rw [hthread]
    exact hknow
  · rw [hthread]
    exact hledger

/-- A block is written that the thread writes alone, in the tree decided so far. -/
theorem Inv.writeBlock (h : Inv cap m₀ s E G m order) {a : BlkAddress} {b : Block K V}
    (hself : b.selfRep = a) (hsize : b.deserialize.size ≤ cap)
    (hguars : World.Guars t (s.world E G) (s.world E' G)) (hok : (s.world E' G).Ok m')
    (hwrites : (s.world E G).Writes t a) (hfresh : th.fresh = (s.threads t).fresh)
    (hnodes : ∀ x ∈ (s.threads t).nodes, x ∈ th.nodes)
    (hknow : ThreadOk cap ((s.world E' G).writeRaw a b.shape) t th)
    (hledger : Ledger mapSpec m₀ s.nextId s.history
      (Function.update (fun u => (s.threads u).status) t th.status) order' m') :
    Inv cap m₀ (s.write t a b th) E' G m' order' := by
  have hworld : (s.world E' G).writeRaw a b.shape = (s.write t a b th).world E' G :=
    world_write hfresh a b E' G
  have hok' : ((s.world E' G).writeRaw a b.shape).Ok m' := hok.writeRaw (i := t) hwrites
  have hguars' := hguars.trans (.one hok hok' (World.guar_writeRaw hwrites))
  rw [hworld] at hok' hguars' hknow
  exact h.write hself hsize hguars' hok' (fun x hx => hfresh ▸ hx) (fun _ _ hx => hx) hnodes hknow
    hledger

/-- **An insertion takes effect**: its leaf gets the new entry, and is written. -/
theorem Inv.writeEntry (h : Inv cap m₀ s E G m order) {id : Nat} {key : K} {value : V}
    {es : List (K × V)} {next : Option BlkAddress}
    (hst : (s.threads t).status = some (id, .insert key value, none))
    (hst' : th.status = some (id, .insert key value, some .inserted))
    (hfresh : th.fresh = (s.threads t).fresh)
    (hnodes : ∀ x ∈ (s.threads t).nodes, x ∈ th.nodes) (hwrites : (s.world E G).Writes t node)
    (hat : (s.world E G).At t node key) (hE : E node = some (.leaf es next))
    (hsize : (setEntry key value es).length ≤ cap)
    (hknow : ∀ w', w'.Clean t node → (∀ fs, (s.world E G).Path t key cap none fs node →
      w'.Path t key cap none fs node) → ThreadOk cap w' t th) :
    (s.write t node (.leaf node next (setEntry key value es)) th).SoundFrom cap m₀ G := by
  obtain ⟨hok₁, hguar₁⟩ := h.ok.setEntry (v := value) hwrites hat hE
  have hcommit : Ledger mapSpec m₀ s.nextId s.history
      (Function.update (fun u => (s.threads u).status) t th.status)
      (order ++ [(id, .insert key value, .inserted)]) (Function.update m key (some value)) := by
    rw [hst']
    exact h.ledger.commit hst
  refine Inv.same (h.writeBlock rfl hsize (.one h.ok hok₁ hguar₁) hok₁ hwrites hfresh hnodes
    (hknow _ ⟨hwrites.held, ?_⟩ fun fs hfs => (hfs.setE h.ok).writeRaw hok₁) hcommit)
  show Function.update _ node _ node = Function.update _ node _ node
  rw [Function.update_self, Function.update_self]
  rfl

/-- The next address is nobody's. -/
theorem Inv.next_unused (h : Inv cap m₀ s E G m order) :
    G s.allocator.next = none ∧ (∀ u, s.allocator.next ∉ (s.threads u).fresh)
      ∧ ∀ u, s.mode u s.allocator.next = none := by
  obtain ⟨hG, hnot⟩ := h.unused _ (Allocator.free_next _)
  refine ⟨hG, hnot, fun u => ?_⟩
  unfold State.mode
  rw [if_neg (hnot u)]
  by_contra hne
  obtain ⟨-, sp, hsp⟩ := h.locked u _ hne
  cases hG.symm.trans hsp

/-- **A block is allocated**, and is the thread's own. -/
theorem Inv.alloc (h : Inv cap m₀ s E G m order)
    (hfresh : ∀ x, x ∈ th.fresh ↔ x = s.allocator.next ∨ x ∈ (s.threads t).fresh)
    (hnodes : ∀ x ∈ (s.threads t).nodes, x ∈ th.nodes)
    (hst : th.status = (s.threads t).status)
    (hknow : ∀ w', (s.world E G).withMode w'.mode = w' → w'.Ok m →
      (∀ x, x ≠ s.allocator.next → w'.mode t x = s.mode t x) → w'.Fresh t s.allocator.next →
      ThreadOk cap w' t th) :
    Inv cap m₀ (s.alloc t th) E G m order := by
  generalize hs' : s.alloc t th = s'
  obtain ⟨hG, hnot, hfree⟩ := h.next_unused
  have hthreads : s'.threads = Function.update s.threads t th := by rw [← hs']; rfl
  have halloc : s'.allocator = s.allocator.allocate := by rw [← hs']; rfl
  have hself : s'.threads t = th := by rw [hthreads, Function.update_self]
  have hother : ∀ u, u ≠ t → s'.threads u = s.threads u := by
    intro u hu
    rw [hthreads, Function.update_of_ne hu]
  have hworld : (s.world E G).withMode (s'.mode) = s'.world E G := by
    rw [← hs']
    rfl
  have hmode : ∀ u x, u ≠ t ∨ x ≠ s.allocator.next → s'.mode u x = s.mode u x := by
    intro u x hne
    have hlocks : s'.locks = s.locks := by rw [← hs']; rfl
    unfold State.mode
    rw [hlocks]
    by_cases hu : u = t
    · subst hu
      have hx := hne.resolve_left (fun hn => hn rfl)
      rw [hself]
      simp only [hfresh x, hx, false_or]
    · rw [hother u hu]
  have hgot : s'.mode t s.allocator.next = some .write := by
    unfold State.mode
    rw [hself, if_pos ((hfresh _).2 (.inl rfl))]
  obtain ⟨hok, hguar, hfr⟩ := h.ok.takeFresh (i := t) hG hfree hmode hgot
  rw [hworld] at hok hguar hfr
  refine h.next t (.one h.ok hok hguar) hok ?_ ?_ (fun x hx => ?_) hother (fun u x hu => ?_)
    (fun x hx => ?_) ?_ ?_
  · rw [← hs']; exact h.blocks
  · rw [halloc]; exact h.allocator.allocate
  · rw [halloc] at hx
    obtain ⟨hfreex, hne⟩ := h.allocator.free_allocate.1 hx
    obtain ⟨hGx, hnotx⟩ := h.unused x hfreex
    refine ⟨hGx, fun u hxu => ?_⟩
    by_cases hu : u = t
    · rw [hu, hself, hfresh] at hxu
      rcases hxu with hxu | hxu
      · exact hne hxu
      · exact hnotx t hxu
    · rw [hother u hu] at hxu
      exact hnotx u hxu
  · rw [← hs']; rfl
  · rw [← hs'] at hx
    obtain ⟨hmem, hplan⟩ := h.locked t x hx
    rw [hself]
    exact ⟨hnodes x hmem, hplan⟩
  · rw [hself]
    exact hknow _ hworld hok (fun x hx => hmode t x (.inr hx)) hfr
  · rw [hself, ← hs']
    exact h.ledger_same hst

/-! ## §6. Calls and answers. -/

/-- The world of a thread that has no new blocks, before and after. -/
theorem Inv.settle (h : Inv cap m₀ s E G m order) (hs' : s'.threads = Function.update s.threads t th)
    (hblocks : s'.blocks = s.blocks) (halloc : s'.allocator = s.allocator)
    (hroot : s'.root = s.root) (hdepth : s'.depth = s.depth) (hlocks : s'.locks = s.locks)
    (hfresh : (s.threads t).fresh = [] ∧ th.fresh = [])
    (hnodes : (s.threads t).nodes = []) (hknow : ThreadOk cap (s.world E G) t th)
    (hledger : Ledger mapSpec m₀ s'.nextId s'.history
      (Function.update (fun u => (s.threads u).status) t th.status) order m) :
    Inv cap m₀ s' E G m order := by
  have hself : s'.threads t = th := by rw [hs', Function.update_self]
  have hother : ∀ u, u ≠ t → s'.threads u = s.threads u := by
    intro u hu
    rw [hs', Function.update_of_ne hu]
  have hfr : ∀ u, (s'.threads u).fresh = (s.threads u).fresh := by
    intro u
    by_cases hu : u = t
    · rw [hu, hself, hfresh.1, hfresh.2]
    · rw [hother u hu]
  have hworld : s'.world E G = s.world E G := by
    unfold State.world State.raw
    rw [mode_congr hfr hlocks, hblocks, hroot, hdepth]
  refine h.next t (hworld ▸ .refl _) (hworld ▸ h.ok) (hblocks ▸ h.blocks) (halloc ▸ h.allocator)
    (fun x hx => ?_) hother (fun u x _ => by rw [hlocks]) (fun x hx => ?_) ?_ ?_
  · rw [halloc] at hx
    obtain ⟨hG, hnot⟩ := h.unused x hx
    exact ⟨hG, fun u => hfr u ▸ hnot u⟩
  · rw [hlocks] at hx
    have hmem := (h.locked t x hx).1
    rw [hnodes] at hmem
    cases hmem
  · rw [hworld, hself]
    exact hknow
  · rw [hself]
    exact hledger

/-- **An operation is called.** -/
theorem Inv.invoke (h : Inv cap m₀ s E G m order) (hidle : s.threads t = .idle) (op : Op K V) :
    Inv cap m₀ ({ s with
      nextId := s.nextId + 1
      history := s.history ++ [Event.invoke s.nextId op] }.goto t (Thread.start s.nextId op))
      E G m order := by
  have hstatus : (Thread.start s.nextId op : Thread K V).status = some (s.nextId, op, none) := by
    cases op <;> rfl
  have hfresh : (Thread.start s.nextId op : Thread K V).fresh = [] := by cases op <;> rfl
  refine h.settle rfl rfl rfl rfl rfl rfl ⟨by rw [hidle]; rfl, hfresh⟩ (by rw [hidle]; rfl) ?_ ?_
  · cases op <;> trivial
  · rw [hstatus]
    exact h.ledger.invoke (by rw [hidle]; rfl) op

/-- **An operation answers.** -/
theorem Inv.respond (h : Inv cap m₀ s E G m order) {id : Nat} {op : Op K V} {answer : Answer V}
    (hfresh : (s.threads t).fresh = []) (hnodes : (s.threads t).nodes = [])
    (hst : (s.threads t).status = some (id, op, some answer)) :
    Inv cap m₀ (s.respond t id answer) E G m order :=
  h.settle rfl rfl rfl rfl rfl rfl ⟨hfresh, rfl⟩ hnodes trivial (h.ledger.respond hst)

end

end ConcurrentBPlusTree

end NvmTree
