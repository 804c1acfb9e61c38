/-
  NvmTree.Pull.Writes — an insert writes what it has decided.

  `Decided` is the tree to come: it is the tree of the ghost `g₁`, in which the insert
  has taken effect.  A write brings the blocks closer to it, and the insert waits for
  the completion knowing what is left to do.

  Main results:
    * `Decided.commit`     — an insert takes effect.
    * `Driven.writeNode`   — one node is written, with room for what was added.
    * `Driven.writeHalves` — a full node is cut, and both halves are written.
    * `Driven.cutRoot`     — the same for the root, which gets no parent yet.
-/
import NvmTree.Pull.Driven
import NvmTree.RangeTree.Flush

namespace NvmTree

open RangeTree

namespace PullBasedBPlusTree

variable {K V : Type*} [LinearOrder K] {cap q : Nat} {m₀ : K → Option V} {s s' : State K V}
  {ph ph' : ContextId → Phase} {g g' g₁ : Ghost K V} {c : ContextId} {i : Nat}

/-! ## §1. What is decided. -/

omit [LinearOrder K] in
/-- Another context serves another request. -/
theorem Running.request_ne {r r' : InsertRequest K V} {d : ContextId}
    (h : Running q s ph (.insert i)) (hact : ph (.insert i) ≠ .free)
    (hr : (s.inserts i).request = some r) (hd : d ≠ .insert i)
    (hr' : s.request d = some (.insert r')) (hdact : ph d ≠ .free) : r' ≠ r := by
  rintro rfl
  refine hd (h.requests.serving_unique (h.placed.lists.bound d hdact)
    (h.placed.lists.bound _ hact) hdact hact hr' ?_ rfl)
  simp [State.request, hr]

/-- The insert has taken effect with the ghost `g₁`, and the tree is to become that
of `g₁`. -/
structure Decided (m₀ : K → Option V) (s : State K V) (ph : ContextId → Phase) (g g₁ : Ghost K V)
    (i : Nat) (r : InsertRequest K V) : Prop where
  ok : (g₁.world s).Ok g₁.m
  guars : World.Guars (.insert i) (g.world s) (g₁.world s)
  G : g₁.G = g.G
  fr : g₁.fr = g.fr
  lost : g₁.lost = g.lost
  order : ∀ d, d ≠ .insert i → ∀ r', s.request d = some (.insert r') → ph d ≠ .free →
    (r' ∈ g₁.order ↔ r' ∈ g.order)
  done : r ∈ g₁.order
  ledger : Ledger m₀ s.log g₁

theorem Driven.decided {r : InsertRequest K V} (h : Driven cap q m₀ s ph g (.insert i))
    (hdone : r ∈ g.order) : Decided m₀ s ph g g i r :=
  ⟨h.shared.ok, .refl _, rfl, rfl, rfl, fun _ _ _ _ _ => Iff.rfl, hdone, h.ledger⟩

/-- **An insert takes effect**: its leaf is to have the new entry. -/
theorem Decided.commit {r : InsertRequest K V} {node : BlkAddress} {es : List (K × V)}
    {next : Option BlkAddress} (h : Driven cap q m₀ s ph g (.insert i))
    (hact : ph (.insert i) ≠ .free) (hr : (s.inserts i).request = some r) (hnot : r ∉ g.order)
    (hw : (g.world s).Writes (.insert i) node) (hat : (g.world s).At (.insert i) node r.key)
    (hE : g.E node = some (.leaf es next))
    (hg₁ : { g with
      E := Function.update g.E node (some (.leaf (setEntry r.key r.value es) next))
      m := Function.update g.m r.key (some r.value)
      order := g.order ++ [r] } = g₁) : Decided m₀ s ph g g₁ i r := by
  obtain ⟨hok, hguar⟩ := h.shared.ok.setEntry (v := r.value) hw hat hE
  obtain ⟨r', hr', -, hadm⟩ := h.running.requests.active _ hact
  have hrr : s.request (.insert i) = some (.insert r) := by simp [State.request, hr]
  obtain rfl : Request.insert r = r' := Option.some.inj (hrr.symm.trans hr')
  have hworld : g₁.world s
      = (g.world s).setE node (.leaf (setEntry r.key r.value es) next) := by
    rw [← hg₁]
    rfl
  have hm : g₁.m = Function.update g.m r.key (some r.value) := by rw [← hg₁]
  have horder : g₁.order = g.order ++ [r] := by rw [← hg₁]
  have hlost : g₁.lost = g.lost := by rw [← hg₁]
  refine ⟨?_, ?_, by rw [← hg₁], by rw [← hg₁], hlost, ?_, by simp [horder], ?_⟩
  · rw [hworld, hm]
    exact hok
  · rw [hworld]
    exact .one h.shared.ok hok hguar
  · intro d hd r' hr' hdact
    have hne := h.running.request_ne hact hr hd hr' hdact
    simp [horder, hne]
  · exact h.ledger.commit h.running.requests.admittedIds hadm hnot horder hm
      (fun hl => hlost ▸ hl)

/-! ## §2. The blocks after a write. -/

omit [LinearOrder K] in
/-- A block is written. -/
theorem State.raw_update {a : BlkAddress} {b : Block K V}
    (hb : s'.blocks = Function.update s.blocks a (some b)) :
    s'.raw = Function.update s.raw a (some b.shape) := by
  unfold State.raw
  rw [hb]
  exact map_shape_update s.blocks a b

/-- **The insert has submitted its writes** and waits for them. -/
theorem Shared.wrote {x : InsertContext K V} {st : CtxState} {n : Nat} {r : InsertRequest K V}
    (h : Shared cap s ph g (some (.insert i))) (hp : Placed q s ph (some (.insert i)))
    (hdata : s'.inserts = Function.update s.inserts i x) (hsearch : s'.searches = s.searches)
    (hctx : s'.contexts = Function.update s.contexts (.insert i)
      { s.contexts (.insert i) with nextState := some st })
    (hguars : World.Guars (.insert i) (g.world s) (g'.world s')) (hok : (g'.world s').Ok g'.m)
    (hblocks : BlocksOk cap s'.blocks) (halloc : s'.allocator.Ok)
    (hunused : ∀ x, s'.allocator.Free x → g'.G x = none ∧ ∀ c, x ∉ g'.fr c)
    (hfresh : ∀ c x, x ∈ g'.fr c → g'.G x = none ∧ ∀ d, x ∈ g'.fr d → d = c)
    (hfr : ∀ d, d ≠ .insert i → g'.fr d = g.fr d)
    (horder : ∀ d, d ≠ .insert i → ∀ r', s.request d = some (.insert r') → ph d ≠ .free →
      (r' ∈ g'.order ↔ r' ∈ g.order))
    (hlost : g.lost → g'.lost) (hroot : s'.root ≠ s.root → Waiting s ph → g'.lost)
    (hr : x.request = some r)
    (hwait : InsertWait cap (g'.world s') (.insert i) r.key x (r ∈ g'.order) (s.held (.insert i))
      (g'.fr (.insert i)) st) :
    Shared cap s' (Function.update ph (.insert i) (.io n)) g' none := by
  have hheld : s'.held = s.held := by
    funext d
    unfold State.held
    rw [hctx]
    by_cases hd : d = .insert i
    · rw [hd, Function.update_self]
    · rw [Function.update_of_ne hd]
  have hmoves : Shared cap s' (Function.update ph (.insert i) (.io n)) g' (some (.insert i)) := by
    refine h.moves hp hguars hok hblocks halloc hunused hfresh hheld
      (fun d hd => ⟨?_, ?_, ?_, hfr d hd⟩) horder hlost (fun hne j hj hnil => hroot hne ⟨j, hj, hnil⟩)
    · cases d with
      | search j =>
          show s'.searches j = s.searches j
          rw [hsearch]
      | insert j =>
          show s'.inserts j = s.inserts j
          rw [hdata, Function.update_of_ne (fun hj => hd (by rw [hj]))]
    · rw [hctx, Function.update_of_ne hd]
    · rw [Function.update_of_ne hd]
  refine hmoves.park ⟨fun hf => ?_, fun _ => ⟨r, ?_, ?_⟩⟩
  · rw [Function.update_self] at hf
    cases hf
  · rw [hdata, Function.update_self]
    exact hr
  · rw [Function.update_self, hdata, Function.update_self, hctx, Function.update_self]
    exact ⟨st, rfl, hwait⟩

/-! ## §3. One node is written. -/

omit [LinearOrder K] in
/-- What is left of the way up after the node at its end was written. -/
theorem Settled.tail {w w' : World ContextId K V BlkAddress} {tokens : List BarrierToken}
    {a : BlkAddress} {nodes : List BlkAddress} (h : Settled w c tokens (a :: nodes))
    (ha : w'.Clean c a) (hkeep : ∀ x, x ∉ nodes → w.Clean c x → w'.Clean c x) :
    Settled w' c tokens nodes := by
  intro t ht
  by_cases hm : t.barrierId ∈ nodes
  · exact .inl hm
  · rcases h t ht with hcons | hclean
    · rcases List.mem_cons.1 hcons with he | hm'
      · rw [he]
        exact .inr ha
      · exact absurd hm' hm
    · exact .inr (hkeep _ hm hclean)

/-- **A node is written as it is in the tree**, and the insert waits for that. -/
theorem Driven.writeNode {x : InsertContext K V} {r : InsertRequest K V} {a : BlkAddress}
    {b : Block K V} {live stale : List (ParentNodeContext K)}
    (h : Driven cap q m₀ s ph g (.insert i)) (hph : ph (.insert i) = .io 0)
    (hr : (s.inserts i).request = some r) (hfr : g.fr (.insert i) = [])
    (hd : Decided m₀ s ph g g₁ i r) (hx : x.request = (s.inserts i).request)
    (hawaits : x.awaitsState2 = false) (hno : x.childNodeSplit = false)
    (hcount : x.writeBackCompletionCount + 1 = x.writeBackCompletionTarget)
    (hpending : x.pendingParentNodes = live ++ stale) (hstale : Unmodified stale)
    (hpath : live = [] ∨ (g₁.world s).Path (.insert i) r.key cap none
      (live.map ParentNodeContext.copy) a)
    (hwrites : (g₁.world s).Writes (.insert i) a) (hE : g₁.E a = some b.shape)
    (hself : b.selfRep = a) (hsize : b.deserialize.size ≤ cap)
    (hsettled : Settled (g₁.world s) (.insert i) (s.held (.insert i))
      (a :: live.map fun p => p.node.selfRep)) :
    (Outcome.stop (((s.setInsert i x).setNextState (.insert i) .s10).asynchWrite false (.insert i)
      a b)).Fine cap q m₀ s ph g (.insert i) := by
  generalize hs' : ((s.setInsert i x).setNextState (.insert i) .s10).asynchWrite false (.insert i)
    a b = s'
  have hbooks : Books q s' (Function.update ph (.insert i) (.io 1)) := by
    rw [← hs']
    exact Books.setWrite h.running.placed h.running.requests hph hx (.inl ⟨rfl, hcount⟩)
  have hblocks : s'.blocks = Function.update s.blocks a (some b) := by
    rw [← hs']
    rfl
  have hheld : s'.held = s.held := by
    rw [← hs']
    exact (s.setInsert i x).held_setNextState _ _
  have hmode : s'.mode g₁.fr = s.mode g₁.fr := by
    funext d y
    rw [State.mode, State.mode, hheld]
  have hworld : { g₁.world s with raw := Function.update (g₁.world s).raw a (some b.shape) }
      = g₁.world s' := by
    have hroot : s'.root = s.root := by rw [← hs']; rfl
    have hdepth : s'.depth = s.depth := by rw [← hs']; rfl
    unfold Ghost.world State.world
    rw [State.raw_update hblocks, hroot, hdepth, hmode]
  obtain ⟨hok, hguars, hclean, hkeep, hpaths⟩ := hd.ok.writeNode hwrites hE hworld
  have hsame : s'.allocator = s.allocator ∧ s'.root = s.root ∧ s'.log = s.log := by
    rw [← hs']
    exact ⟨rfl, rfl, rfl⟩
  obtain ⟨halloc, hroot, hlog⟩ := hsame
  have hwait : InsertWait cap (g₁.world s') (.insert i) r.key x (r ∈ g₁.order)
      (s.held (.insert i)) (g₁.fr (.insert i)) .s10 := by
    refine ⟨⟨hd.done, hd.fr ▸ hfr, hawaits⟩, live, stale, hpending, hstale,
      hsettled.tail hclean (fun y _ hy => hkeep y hy), fun _ => ?_, fun hyes => ?_⟩
    · rcases hpath with rfl | hpath
      · exact .inl rfl
      · exact .inr ⟨a, hpaths _ _ _ hpath⟩
    · cases hno.symm.trans hyes
  refine .stop ⟨_, g₁, ⟨hbooks, ?_, ?_⟩, fun hl => .inl (hd.lost ▸ hl)⟩
  · refine h.shared.wrote h.running.placed ?_ ?_ ?_ (hd.guars.trans hguars) hok
      ?_ ?_ ?_ ?_ (fun d _ => by rw [hd.fr]) hd.order (fun hl => hd.lost ▸ hl)
      (fun hne => absurd hroot hne) (hx.trans hr) hwait
    · rw [← hs']
      rfl
    · rw [← hs']
      rfl
    · rw [← hs']
      rfl
    · rw [hblocks]
      exact BlocksOk.update h.shared.blocks hself hsize
    · rw [halloc]
      exact h.shared.allocator
    · rw [halloc, hd.G, hd.fr]
      exact h.shared.unused
    · rw [hd.G, hd.fr]
      exact h.shared.fresh
  · rw [hlog]
    exact hd.ledger

/-! ## §4. A node is cut. -/

/-- Nobody has the address that is allocated next. -/
theorem Shared.next_unused {run : Option ContextId} (h : Shared cap s ph g run) :
    g.G s.allocator.next = none ∧ (∀ d, s.allocator.next ∉ g.fr d)
      ∧ ∀ d, s.mode g.fr d s.allocator.next = none := by
  obtain ⟨hG, hfr⟩ := h.unused _ (Allocator.free_next _)
  refine ⟨hG, hfr, fun d => ?_⟩
  rw [State.mode, if_neg (hfr d)]
  cases hm : tokenMode (s.held d) s.allocator.next with
  | none => rfl
  | some type =>
      obtain ⟨sp, hsp⟩ := h.token d _ (mem_of_tokenMode hm)
      cases hG.symm.trans hsp

theorem Decided.next_unused {r : InsertRequest K V} {run : Option ContextId}
    (hd : Decided m₀ s ph g g₁ i r) (h : Shared cap s ph g run) :
    (g₁.world s).G s.allocator.next = none ∧ (∀ d, s.allocator.next ∉ g.fr d)
      ∧ ∀ d, (g₁.world s).mode d s.allocator.next = none := by
  obtain ⟨hG, hfr, hmode⟩ := h.next_unused
  refine ⟨?_, hfr, fun d => ?_⟩
  · show g₁.G _ = none
    rw [hd.G]
    exact hG
  · show s.mode g₁.fr d _ = none
    rw [hd.fr]
    exact hmode d

/-- The addresses that are still unused after one was allocated. -/
theorem Shared.unused_allocate {run : Option ContextId} (h : Shared cap s ph g run)
    {x : BlkAddress} (hx : s.allocator.allocate.Free x) :
    x ≠ s.allocator.next ∧ g.G x = none ∧ ∀ d, x ∉ g.fr d := by
  obtain ⟨hfree, hne⟩ := h.allocator.free_allocate.1 hx
  exact ⟨hne, h.unused x hfree⟩

section Fresh

variable {fr : ContextId → List BlkAddress} {ρ : BlkAddress}

omit [LinearOrder K] in
/-- The modes with a new node in the hands of `c`. -/
theorem State.mode_fresh (hfr : fr c = []) {d : ContextId} {x : BlkAddress} (hne : d ≠ c ∨ x ≠ ρ) :
    s.mode (Function.update fr c [ρ]) d x = s.mode fr d x := by
  unfold State.mode
  by_cases hd : d = c
  · subst hd
    have hx : x ≠ ρ := hne.resolve_left (fun hn => hn rfl)
    rw [Function.update_self, hfr, if_neg (by simpa using hx), if_neg (by simp)]
  · rw [Function.update_of_ne hd]

omit [LinearOrder K] in
theorem State.mode_fresh_self : s.mode (Function.update fr c [ρ]) c ρ = some .write := by
  unfold State.mode
  rw [Function.update_self, if_pos (by simp)]

end Fresh

section Cut

variable {x : InsertContext K V} {r : InsertRequest K V} {a : BlkAddress} {bl br : Block K V}
  {left right : Node K V} {b : K} {sh : Shape K V BlkAddress}
  {live stale : List (ParentNodeContext K)}

/-- The context after it has cut a node: its data, and the block of each half. -/
structure Cutting (cap : Nat) (s : State K V) (x : InsertContext K V) (a : BlkAddress)
    (left right : Node K V) (b : K) (bl br : Block K V) : Prop where
  awaits : x.awaitsState2 = false
  yes : x.childNodeSplit = true
  split : x.split = some ⟨left, right, b⟩
  count : x.writeBackCompletionCount = 0
  target : x.writeBackCompletionTarget = 2
  leftRep : left.selfRep = a
  rightRep : right.selfRep = s.allocator.next
  blockLeft : bl.selfRep = a ∧ bl.shape = left.shape ∧ bl.deserialize.size ≤ cap
  blockRight : br.selfRep = s.allocator.next ∧ br.shape = right.shape ∧ br.deserialize.size ≤ cap

omit [LinearOrder K] in
/-- What the blocks contain when both halves are written. -/
theorem Cutting.raw (h : Cutting cap s x a left right b bl br)
    (hs' : s'.blocks = Function.update (Function.update s.blocks a (some bl)) s.allocator.next
      (some br)) :
    s'.raw = Function.update (Function.update s.raw a (some left.shape)) s.allocator.next
      (some right.shape) := by
  have h₁ : ({ s with blocks := Function.update s.blocks a (some bl) } : State K V).raw
      = Function.update s.raw a (some bl.shape) := State.raw_update rfl
  have h₂ := State.raw_update (s := { s with blocks := Function.update s.blocks a (some bl) }) hs'
  rw [h₂, h₁, h.blockLeft.2.1, h.blockRight.2.1]

/-- **A node below the root is cut**: the upper half is linked in the tree to come, and
the parent is next. -/
theorem Driven.writeHalves (h : Driven cap q m₀ s ph g (.insert i)) (hph : ph (.insert i) = .io 0)
    (hr : (s.inserts i).request = some r) (hfr : g.fr (.insert i) = [])
    (hd : Decided m₀ s ph g g₁ i r) (hx : x.request = (s.inserts i).request)
    (hcut : Cutting cap s x a left right b bl br) (hpending : x.pendingParentNodes = live ++ stale)
    (hstale : Unmodified stale) (hroot : a ≠ s.root)
    (hpath : (g₁.world s).Path (.insert i) r.key cap none (live.map ParentNodeContext.copy) a)
    (hwrites : (g₁.world s).Writes (.insert i) a) (hE : g₁.E a = some sh)
    (hhalf : Halves s.allocator.next b sh left.shape right.shape)
    (hsettled : Settled (g₁.world s) (.insert i) (s.held (.insert i))
      (a :: live.map fun p => p.node.selfRep)) :
    (Outcome.stop ((((s.allocate.setInsert i x).setNextState (.insert i) .s10).asynchWrite false
      (.insert i) a bl).asynchWrite false (.insert i) s.allocator.next br)).Fine cap q m₀ s ph g
      (.insert i) := by
  generalize hs' : (((s.allocate.setInsert i x).setNextState (.insert i) .s10).asynchWrite false
    (.insert i) a bl).asynchWrite false (.insert i) s.allocator.next br = s'
  have hbooks : Books q s' (Function.update ph (.insert i) (.io 2)) := by
    rw [← hs']
    exact Books.setWrites h.running.placed.allocate h.running.requests.allocate hph hx (.inl rfl)
      hcut.count hcut.target
  have hblocks : s'.blocks = Function.update (Function.update s.blocks a (some bl))
      s.allocator.next (some br) := by
    rw [← hs']
    rfl
  have hsame : s'.allocator = s.allocator.allocate ∧ s'.root = s.root ∧ s'.depth = s.depth
      ∧ s'.log = s.log := by
    rw [← hs']
    exact ⟨rfl, rfl, rfl, rfl⟩
  obtain ⟨halloc, hroot', hdepth, hlog⟩ := hsame
  have hheld : s'.held = s.held := by
    rw [← hs']
    exact (s.allocate.setInsert i x).held_setNextState _ _
  obtain ⟨hnextG₁, hnextFr, hnextMode₁⟩ := hd.next_unused h.shared
  -- the path ends below the root, so there is a parent
  obtain ⟨p, ps, rfl⟩ : ∃ p ps, live = p :: ps := by
    cases live with
    | nil => exact absurd hpath.2.1 hroot
    | cons p ps => exact ⟨p, ps, rfl⟩
  obtain ⟨E', G', hsplit⟩ := hd.ok.writeSplit hnextG₁ hnextMode₁ hpath hwrites hE hhalf
  generalize hg' : ({ g₁ with E := E', G := G' } : Ghost K V) = g'
  have hworld : { g₁.world s with
      raw := Function.update (Function.update (g₁.world s).raw a (some left.shape)) s.allocator.next
        (some right.shape)
      E := E'
      G := G' } = g'.world s' := by
    have hmode : s'.mode g'.fr = s.mode g₁.fr := by
      funext d y
      rw [State.mode, State.mode, hheld, ← hg']
    unfold Ghost.world State.world
    rw [hcut.raw hblocks, hroot', hdepth, hmode, ← hg']
  obtain ⟨hok, hguars, hpath', hclean, hkeep, hplan⟩ := hsplit _ hworld
  have hfields : g'.G = G' ∧ g'.m = g₁.m ∧ g'.fr = g.fr ∧ g'.order = g₁.order
      ∧ g'.lost = g.lost := by
    rw [← hg']
    exact ⟨rfl, rfl, hd.fr, rfl, hd.lost⟩
  obtain ⟨hG', hm', hfr', horder', hlost'⟩ := hfields
  have hwait : InsertWait cap (g'.world s') (.insert i) r.key x (r ∈ g'.order)
      (s.held (.insert i)) (g'.fr (.insert i)) .s10 := by
    refine ⟨⟨horder' ▸ hd.done, hfr' ▸ hfr, hcut.awaits⟩, p :: ps, stale, hpending, hstale, ?_,
      fun hno => ?_, fun _ => ⟨_, a, hcut.split, by simp, ?_⟩⟩
    · refine hsettled.tail hclean (fun y hy hyc => ?_)
      by_cases hya : y = a
      · rw [hya]
        exact hclean
      · refine hkeep y hya ?_ ?_ hyc
        · rintro rfl
          exact hyc.1 (hnextMode₁ (.insert i))
        · intro he
          exact hy (by rw [he]; simp [ParentNodeContext.copy])
    · cases hno.symm.trans hcut.yes
    · rw [hcut.rightRep]
      exact hpath'
  refine .stop ⟨_, g', ⟨hbooks, ?_, ?_⟩, fun hl => .inl (hlost' ▸ hl)⟩
  · refine h.shared.wrote h.running.placed ?_ ?_ ?_ (hd.guars.trans hguars) (hm' ▸ hok) ?_ ?_
      (fun y hy => ?_) (fun d y hy => ?_) (fun d _ => by rw [hfr']) ?_ (fun hl => hlost' ▸ hl)
      (fun hne => absurd hroot' hne) (hx.trans hr) hwait
    · rw [← hs']
      rfl
    · rw [← hs']
      rfl
    · rw [← hs']
      rfl
    · rw [hblocks]
      exact (BlocksOk.update h.shared.blocks hcut.blockLeft.1 hcut.blockLeft.2.2).update
        hcut.blockRight.1 hcut.blockRight.2.2
    · rw [halloc]
      exact h.shared.allocator.allocate
    · rw [halloc] at hy
      obtain ⟨hne, hnone, hnot⟩ := h.shared.unused_allocate hy
      rw [hG', hfr']
      exact ⟨hplan y hne (by rw [← hnone]; exact congrFun hd.G y), hnot⟩
    · rw [hfr'] at hy ⊢
      obtain ⟨hnone, honly⟩ := h.shared.fresh d y hy
      have hne : y ≠ s.allocator.next := by
        rintro rfl
        exact hnextFr d hy
      rw [hG']
      exact ⟨hplan y hne (by rw [← hnone]; exact congrFun hd.G y), honly⟩
    · rw [horder']
      exact hd.order
  · rw [hlog]
    exact hd.ledger.congr horder' hm' (fun hl => hlost' ▸ hd.lost ▸ hl)

/-- **The root is cut**: the upper half stays with the context, and a new root is next. -/
theorem Driven.cutRoot (h : Driven cap q m₀ s ph g (.insert i)) (hph : ph (.insert i) = .io 0)
    (hr : (s.inserts i).request = some r) (hfr : g.fr (.insert i) = [])
    (hd : Decided m₀ s ph g g₁ i r) (hx : x.request = (s.inserts i).request)
    (hcut : Cutting cap s x a left right b bl br) (hroot : a = s.root)
    (hwrites : (g₁.world s).Writes (.insert i) a) (hE : g₁.E a = some sh)
    (hhalf : Halves s.allocator.next b sh left.shape right.shape)
    (hsettled : Settled (g₁.world s) (.insert i) (s.held (.insert i)) [a]) :
    (Outcome.stop ((((s.allocate.setInsert i x).setNextState (.insert i) .s12).asynchWrite false
      (.insert i) a bl).asynchWrite false (.insert i) s.allocator.next br)).Fine cap q m₀ s ph g
      (.insert i) := by
  generalize hs' : (((s.allocate.setInsert i x).setNextState (.insert i) .s12).asynchWrite false
    (.insert i) a bl).asynchWrite false (.insert i) s.allocator.next br = s'
  have hbooks : Books q s' (Function.update ph (.insert i) (.io 2)) := by
    rw [← hs']
    exact Books.setWrites h.running.placed.allocate h.running.requests.allocate hph hx (.inr rfl)
      hcut.count hcut.target
  have hblocks : s'.blocks = Function.update (Function.update s.blocks a (some bl))
      s.allocator.next (some br) := by
    rw [← hs']
    rfl
  have hsame : s'.allocator = s.allocator.allocate ∧ s'.root = s.root ∧ s'.depth = s.depth
      ∧ s'.log = s.log := by
    rw [← hs']
    exact ⟨rfl, rfl, rfl, rfl⟩
  obtain ⟨halloc, hroot', hdepth, hlog⟩ := hsame
  have hheld : s'.held = s.held := by
    rw [← hs']
    exact (s.allocate.setInsert i x).held_setNextState _ _
  obtain ⟨hnextG₁, hnextFr, hnextMode₁⟩ := hd.next_unused h.shared
  generalize hg' : ({ g₁ with
    fr := Function.update g.fr (.insert i) [s.allocator.next] } : Ghost K V) = g'
  subst hroot
  have hworld : { g₁.world s with
      raw := Function.update (Function.update (g₁.world s).raw s.root (some left.shape))
        s.allocator.next (some right.shape)
      mode := s.mode (Function.update g.fr (.insert i) [s.allocator.next]) } = g'.world s' := by
    have hmode : s'.mode g'.fr = s.mode (Function.update g.fr (.insert i) [s.allocator.next]) := by
      funext d y
      rw [State.mode, State.mode, hheld, ← hg']
    unfold Ghost.world State.world
    rw [hcut.raw hblocks, hroot', hdepth, hmode, ← hg']
  have hμ : ∀ d y, d ≠ .insert i ∨ y ≠ s.allocator.next →
      s.mode (Function.update g.fr (.insert i) [s.allocator.next]) d y
        = (g₁.world s).mode d y := by
    intro d y hne
    show _ = s.mode g₁.fr d y
    rw [hd.fr]
    exact State.mode_fresh hfr hne
  obtain ⟨hok, hguars, hcut', hleft, hright, hkeep⟩ :=
    hd.ok.cutRoot hnextG₁ hnextMode₁ hwrites hE hhalf hμ State.mode_fresh_self hworld
  have hfields : g'.G = g.G ∧ g'.m = g₁.m
      ∧ g'.fr = Function.update g.fr (.insert i) [s.allocator.next] ∧ g'.order = g₁.order
      ∧ g'.lost = g.lost := by
    rw [← hg']
    exact ⟨hd.G, rfl, rfl, rfl, hd.lost⟩
  obtain ⟨hG', hm', hfr', horder', hlost'⟩ := hfields
  have hself : g'.fr (.insert i) = [s.allocator.next] := by
    rw [hfr', Function.update_self]
  have hother : ∀ d, d ≠ .insert i → g'.fr d = g.fr d := by
    intro d hdi
    rw [hfr', Function.update_of_ne hdi]
  have hwroot : (g'.world s').root = s.root := hroot'
  have hwait : InsertWait cap (g'.world s') (.insert i) r.key x (r ∈ g'.order)
      (s.held (.insert i)) (g'.fr (.insert i)) .s12 := by
    refine ⟨⟨horder' ▸ hd.done, hcut.awaits⟩, ⟨_, hcut.split, ?_, ?_, ?_, ?_, ?_⟩, ?_⟩
    · rw [hself, hcut.rightRep]
    · rw [hcut.leftRep, hwroot]
    · rw [hwroot, hcut.rightRep]
      exact hcut'
    · rw [hwroot]
      exact hleft
    · rw [hcut.rightRep]
      exact hright
    · intro t ht
      by_cases hta : t.barrierId = s.root
      · exact .inl (by rw [hta, hwroot]; simp)
      · rcases hsettled t ht with hm | hclean
        · exact absurd (List.mem_singleton.1 hm) hta
        · refine .inr (hkeep _ hta ?_ hclean)
          intro he
          exact hclean.1 (he ▸ hnextMode₁ (.insert i))
  refine .stop ⟨_, g', ⟨hbooks, ?_, ?_⟩, fun hl => .inl (hlost' ▸ hl)⟩
  · refine h.shared.wrote h.running.placed ?_ ?_ ?_ (hd.guars.trans hguars) (hm' ▸ hok) ?_ ?_
      (fun y hy => ?_) (fun d y hy => ?_) hother ?_ (fun hl => hlost' ▸ hl)
      (fun hne => absurd hroot' hne) (hx.trans hr) hwait
    · rw [← hs']
      rfl
    · rw [← hs']
      rfl
    · rw [← hs']
      rfl
    · rw [hblocks]
      exact (BlocksOk.update h.shared.blocks hcut.blockLeft.1 hcut.blockLeft.2.2).update
        hcut.blockRight.1 hcut.blockRight.2.2
    · rw [halloc]
      exact h.shared.allocator.allocate
    · rw [halloc] at hy
      obtain ⟨hne, hnone, hnot⟩ := h.shared.unused_allocate hy
      rw [hG']
      refine ⟨hnone, fun d hyd => ?_⟩
      by_cases hdi : d = .insert i
      · rw [hdi, hself] at hyd
        exact hne (List.mem_singleton.1 hyd)
      · rw [hother d hdi] at hyd
        exact hnot d hyd
    · -- the new node is only in the hands of this context
      rw [hG']
      by_cases hdi : d = .insert i
      · rw [hdi, hself] at hy
        obtain rfl := List.mem_singleton.1 hy
        refine ⟨(h.shared.next_unused).1, fun d' hyd' => ?_⟩
        by_contra hne
        rw [hother d' (fun he => hne (he.trans hdi.symm))] at hyd'
        exact hnextFr d' hyd'
      · rw [hother d hdi] at hy
        obtain ⟨hnone, honly⟩ := h.shared.fresh d y hy
        refine ⟨hnone, fun d' hyd' => ?_⟩
        by_cases hdi' : d' = .insert i
        · rw [hdi', hself] at hyd'
          rw [List.mem_singleton.1 hyd'] at hy
          exact absurd hy (hnextFr d)
        · rw [hother d' hdi'] at hyd'
          exact honly d' hyd'
    · rw [horder']
      exact hd.order
  · rw [hlog]
    exact hd.ledger.congr horder' hm' (fun hl => hlost' ▸ hd.lost ▸ hl)

end Cut

end PullBasedBPlusTree

end NvmTree
