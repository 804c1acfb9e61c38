/-
  NvmTree.Pull.InsertUp — an insert takes effect and climbs back.

  State 2 at a leaf, and states 9 to 12 of `insert_context::run`: none of them fails,
  and the context knows afterwards what its next state asks for.  A leaf with room is
  written; a full one is cut, and the parents get the slots of the new nodes or are
  cut in turn (state 9), up to a new root (state 12).
-/
import NvmTree.Pull.InsertDown
import NvmTree.Pull.Writes

namespace NvmTree

open RangeTree

namespace PullBasedBPlusTree

variable {K V : Type*} [LinearOrder K] {cap q : Nat} {m₀ : K → Option V} {s : State K V}
  {ph : ContextId → Phase} {g g₁ : Ghost K V} {c : ContextId} {i : Nat}

/-! ## §1. State 2. -/

/-- The token of the node comes first, and those of the parents are settled later. -/
theorem Entered.settled {w : World ContextId K V BlkAddress} {key : K} {x : InsertContext K V}
    {tokens : List BarrierToken} {node : BlkAddress} (h : Entered cap w c key x tokens node)
    (hlevel : x.currentNodeLevel = 1) :
    (∃ others, tokens = ⟨node, .write⟩ :: others) ∧ ∃ live stale,
      x.pendingParentNodes = live ++ stale ∧ Unmodified stale
      ∧ ((x.optimistic = true ∧ live = [])
        ∨ (x.optimistic = false ∧ w.Path c key cap none (live.map ParentNodeContext.copy) node))
      ∧ Settled w c tokens (node :: live.map fun p => p.node.selfRep) := by
  rcases h.way with ⟨hopt, hstale, type, rfl, htype⟩ | ⟨hpess, live, rfl, hlive⟩
  · refine ⟨⟨[], by rw [htype hlevel]⟩, [], x.pendingParentNodes, rfl, hstale, .inl ⟨hopt, rfl⟩, ?_⟩
    intro t ht
    rw [List.mem_singleton.1 ht]
    exact .inl List.mem_cons_self
  · obtain ⟨stale, hpending, hstale⟩ := hlive.pending
    refine ⟨⟨_, rfl⟩, live, stale, hpending, hstale, .inr ⟨hpess, hlive.path⟩, ?_⟩
    intro t ht
    rcases List.mem_cons.1 ht with rfl | ht
    · exact .inl List.mem_cons_self
    · obtain ⟨p, hp, rfl⟩ := List.mem_map.1 ht
      exact .inl (List.mem_cons_of_mem _ (List.mem_map_of_mem hp))

/-- What is decided about a leaf leaves the way to it as it was. -/
theorem Decided.path {r : InsertRequest K V} {node : BlkAddress} {sh : Shape K V BlkAddress}
    {fs : List (World.Frame K BlkAddress)} (hw : (g.world s).Ok g.m) (hfr : g₁.fr = g.fr)
    (hG : g₁.G = g.G) (hE : g₁.E = Function.update g.E node (some sh))
    (h : (g.world s).Path (.insert i) r.key cap none fs node) :
    (g₁.world s).Path (.insert i) r.key cap none fs node := by
  refine World.Path.congr (w := g.world s) ?_ (fun f hf => ?_) (fun _ => ?_) h
  · rfl
  · refine ⟨?_, rfl, ?_, fun sp hsp => ⟨sp, ?_⟩⟩
    · show g₁.E _ = g.E _
      rw [hE, Function.update_of_ne (h.ne hw hf)]
    · show s.mode g₁.fr _ _ = s.mode g.fr _ _
      rw [hfr]
    · show g₁.G _ = some sp
      rw [hG]
      exact hsp
  · show s.mode g₁.fr _ _ = s.mode g.fr _ _
    rw [hfr]

omit [LinearOrder K] in
theorem Decided.settled {node : BlkAddress} {nodes : List BlkAddress}
    {tokens : List BarrierToken} {sh : Shape K V BlkAddress} (hfr : g₁.fr = g.fr)
    (hE : g₁.E = Function.update g.E node (some sh))
    (h : Settled (g.world s) c tokens (node :: nodes)) :
    Settled (g₁.world s) c tokens (node :: nodes) := by
  intro t ht
  rcases h t ht with hm | ⟨hheld, hraw⟩
  · exact .inl hm
  · by_cases htn : t.barrierId = node
    · exact .inl (htn ▸ List.mem_cons_self)
    · refine .inr ⟨?_, ?_⟩
      · show s.mode g₁.fr _ _ ≠ none
        rw [hfr]
        exact hheld
      · show _ = g₁.E _
        rw [hE, Function.update_of_ne htn]
        exact hraw

theorem insertLeaf_fine (hcap : 2 ≤ cap) {x : InsertContext K V} {r : InsertRequest K V}
    {node : BlkAddress} {es : List (K × V)} {next : Option BlkAddress}
    (h : Driven cap q m₀ s ph g (.insert i))
    (hst : (s.contexts (.insert i)).currentState = .s2) (hr : (s.inserts i).request = some r)
    (hnot : r ∉ g.order) (hfr : g.fr (.insert i) = []) (hx : x.request = (s.inserts i).request)
    (hawaits : x.awaitsState2 = false) (hnode : x.nodeRef = some node)
    (hent : Entered cap (g.world s) (.insert i) r.key x (s.held (.insert i)) node)
    (hlevel : x.currentNodeLevel = 1) (hE : g.E node = some (.leaf es next))
    (hsize : es.length ≤ cap) :
    (insertLeaf cap false s i x ⟨node, next, es, false⟩).Fine cap q m₀ s ph g (.insert i) := by
  have hph := h.running.io_zero (by simp [hst])
  obtain ⟨⟨others, htokens⟩, live, stale, hpending, hstale, hway, hsettled⟩ := hent.settled hlevel
  have hwrites : (g.world s).Writes (.insert i) node :=
    h.shared.mode_of_mem (htokens ▸ List.mem_cons_self)
  obtain ⟨sp, hsp, -⟩ := hent.at_node.plan
  obtain ⟨hsorted, -⟩ := h.shared.ok.sorted_leaf hsp hE
  rw [insertLeaf.eq_def]
  split
  case h_2 hnone => exact (hnone r node (hx.trans hr) hnode).elim
  case h_1 r' node' hr' hnode' =>
  obtain rfl : r = r' := Option.some.inj ((hx.trans hr).symm.trans hr')
  obtain rfl : node = node' := Option.some.inj (hnode.symm.trans hnode')
  split
  · -- an optimistic insert does not split a leaf
    next hfull =>
      simp only [Bool.and_eq_true, decide_eq_true_eq] at hfull
      rcases hway with ⟨-, rfl⟩ | ⟨hpess, -⟩
      · refine h.setAgain hph hr hx (by simp) ⟨⟨hnot, hfr, hawaits⟩, fun t ht => .inr ?_, ?_⟩ ?_
        · rcases hsettled t ht with hm | hclean
          · rw [List.mem_singleton.1 hm]
            exact hent.clean
          · exact hclean
        · rw [hpending]
          exact hstale
        · rw [rank, hst]
          simp [insertRank]
      · cases hfull.1.symm.trans hpess
  next hfull =>
  generalize hg₁ : ({ g with
    E := Function.update g.E node (some (.leaf (setEntry r.key r.value es) next))
    m := Function.update g.m r.key (some r.value)
    order := g.order ++ [r] } : Ghost K V) = g₁
  have hd := Decided.commit h (by simp [hph]) hr hnot hwrites hent.at_node hE hg₁
  have hE₁ : g₁.E = Function.update g.E node (some (.leaf (setEntry r.key r.value es) next)) := by
    rw [← hg₁]
  have hE₁node : g₁.E node = some (.leaf (setEntry r.key r.value es) next) := by
    rw [hE₁, Function.update_self]
  have hwrites₁ : (g₁.world s).Writes (.insert i) node := by
    show s.mode g₁.fr _ _ = _
    rw [hd.fr]
    exact hwrites
  have hsettled₁ : Settled (g₁.world s) (.insert i) (s.held (.insert i))
      (node :: live.map fun p => p.node.selfRep) := Decided.settled hd.fr hE₁ hsettled
  rcases LeafNode.insertWithSplitSupport_cases (n := ⟨node, next, es, false⟩) r.key r.value hsorted
    hcap hsize s.allocator.next with ⟨heq, hlen⟩ | ⟨L, b, v, R, heq, happ, hL, hlL, hlR, hcapsize⟩
  · rw [heq]
    refine h.writeNode hph hr hfr hd hx hawaits rfl rfl hpending hstale ?_ hwrites₁ hE₁node rfl hlen
      hsettled₁
    rcases hway with ⟨-, rfl⟩ | ⟨-, hpath⟩
    · exact .inl rfl
    · exact .inr (Decided.path h.shared.ok hd.fr hd.G hE₁ hpath)
  · -- the leaf is full, so the insert is pessimistic
    rcases hway with ⟨hopt, -⟩ | ⟨-, hpath⟩
    · exact absurd (by simp [hopt, ← hcapsize, LeafNode.size]) hfull
    have hpath₁ := Decided.path h.shared.ok hd.fr hd.G hE₁ hpath
    have hhalf : Halves s.allocator.next b (.leaf (setEntry r.key r.value es) next)
        (.leaf L (some s.allocator.next)) (.leaf ((b, v) :: R) next) := by
      rw [← happ]
      exact .leaf hL
    rw [heq]
    dsimp only
    by_cases hroot : node = s.root
    · rw [if_pos hroot]
      have hnil : live = [] := by
        cases live with
        | nil => rfl
        | cons p ps => exact absurd (hroot ▸ hpath.1.parent) h.shared.ok.root_no_parent
      subst hnil
      exact h.cutRoot hph hr hfr hd hx ⟨hawaits, rfl, rfl, rfl, rfl, rfl, rfl, ⟨rfl, rfl, hlL⟩,
        ⟨rfl, rfl, hlR⟩⟩ hroot hwrites₁ hE₁node hhalf hsettled₁
    · rw [if_neg hroot]
      exact h.writeHalves hph hr hfr hd hx ⟨hawaits, rfl, rfl, rfl, rfl, rfl, rfl, ⟨rfl, rfl, hlL⟩,
        ⟨rfl, rfl, hlR⟩⟩ hpending hstale hroot hpath₁ hwrites₁ hE₁node hhalf hsettled₁

/-- A leaf that was read is at level 1, and its write barrier is the last token. -/
theorem Entered.at_leaf {w : World ContextId K V BlkAddress} {m : K → Option V} {c : ContextId}
    {key : K} {x : InsertContext K V} {tokens : List BarrierToken} {node : BlkAddress}
    {es : List (K × V)} {sib : Option BlkAddress} (h : Entered cap w c key x tokens node)
    (hw : w.Ok m) (hE : w.E node = some (.leaf es sib)) :
    x.currentNodeLevel = 1 ∧ ∃ others, tokens = ⟨node, .write⟩ :: others := by
  obtain ⟨l, ⟨sp, hsp, hl⟩, hlev⟩ := h.level
  obtain ⟨-, hone⟩ := hw.sorted_leaf hsp hE
  have hlevel : x.currentNodeLevel = 1 := by omega
  exact ⟨hlevel, (h.settled hlevel).1⟩

/-- State 2: the node is a leaf at level 1 that the context may write, or an inner node. -/
theorem insertState2_fine (hcap : 2 ≤ cap) (h : Driven cap q m₀ s ph g (.insert i))
    (hst : (s.contexts (.insert i)).currentState = .s2) :
    (insertState2 cap false s i).Fine cap q m₀ s ph g (.insert i) := by
  obtain ⟨r, hr, hruns⟩ := h.request
  rw [hst] at hruns
  obtain ⟨⟨hnot, hfr⟩, node, b, hnode, hent, hbuffer, hshows⟩ := hruns
  have hbuf : (s.inserts i).buffer.map Block.deserialize = some b.deserialize := by rw [hbuffer]; rfl
  rw [insertState2.eq_def]
  dsimp only
  cases b with
  | leaf rep sib es =>
      obtain rfl : rep = node := hshows.self
      obtain ⟨hlevel, others, htokens⟩ := hent.at_leaf h.shared.ok hshows.shape
      have htokens' : (s.contexts (.insert i)).obtainedBarriers = ⟨rep, .write⟩ :: others := htokens
      rw [hbuf]
      dsimp only [Block.deserialize]
      rw [if_neg (not_not.2 hlevel), htokens']
      dsimp only
      rw [if_neg (not_not.2 rfl)]
      exact insertLeaf_fine hcap h hst hr hnot hfr rfl rfl hnode
        (hent.alike ⟨rfl, rfl, rfl, rfl, rfl, rfl, rfl, rfl, rfl, rfl⟩) hlevel hshows.shape
        hshows.size
  | inner rep slots =>
      obtain rfl : rep = node := hshows.self
      rw [hbuf]
      dsimp only [Block.deserialize]
      exact insertInner_fine h hst hr hnot hfr hent hshows.shape hshows.size

/-! ## §2. State 9. -/

section Climb

variable {x : InsertContext K V} {r : InsertRequest K V} {split : Split K V}
  {p : ParentNodeContext K} {ps stale : List (ParentNodeContext K)} {node : BlkAddress}

/-- The parent gets the slot of the new node, or is cut in turn. -/
theorem insertAddSplit_fine (hcap : 2 ≤ cap) (h : Driven cap q m₀ s ph g (.insert i))
    (hst : (s.contexts (.insert i)).currentState = .s9) (hr : (s.inserts i).request = some r)
    (hdone : r ∈ g.order) (hfr : g.fr (.insert i) = []) (hx : x.request = (s.inserts i).request)
    (hawaits : x.awaitsState2 = false) (hsplit : x.split = some split) (hstale : Unmodified stale)
    (hpath : (g.world s).Path (.insert i) r.key cap (some (split.boundaryKey, split.right.selfRep))
      ((p :: ps).map ParentNodeContext.copy) node)
    (hsettled : Settled (g.world s) (.insert i) (s.held (.insert i))
      (p.node.selfRep :: ps.map fun p => p.node.selfRep)) :
    (insertAddSplit cap false s i x p (ps ++ stale)).Fine cap q m₀ s ph g (.insert i) := by
  have hph := h.running.io_zero (by simp [hst])
  have hd := h.decided hdone
  obtain ⟨hf, hrest⟩ := hpath
  obtain ⟨⟨sp, hsp⟩, hwrites, ⟨xs, ka, ys, hslots, hindex, -, hE⟩, hsize, -⟩ := hf
  change p.node.slots = xs ++ (ka, node) :: ys at hslots
  change p.position = xs.length at hindex
  change g.E p.node.selfRep = _ at hE
  change p.node.slots.length ≤ cap at hsize
  rw [insertAddSplit.eq_def]
  split
  · next hnone => cases hsplit.symm.trans hnone
  next split' hsplit' =>
  obtain rfl : split = split' := Option.some.inj (hsplit.symm.trans hsplit')
  dsimp only
  split
  · -- there is room for one more slot
    next hroom =>
      have hins := InnerNode.insertInnerNode_slots hslots split.right.selfRep split.boundaryKey
      rw [← hindex] at hins
      refine h.writeNode hph hr hfr hd hx hawaits rfl rfl rfl hstale ?_ hwrites ?_ rfl ?_ hsettled
      · rcases hrest with hrest | ⟨hnil, -⟩
        · exact .inr hrest
        · exact .inl (List.map_eq_nil_iff.1 hnil)
      · exact hE.trans (by rw [Block.shape, InnerNode.serialize, hins]; rfl)
      · show (InnerNode.slots _).length ≤ cap
        rw [hins]
        have hlen : p.node.slots.length < cap := hroom
        rw [hslots] at hlen
        simp only [List.length_append, List.length_cons] at hlen ⊢
        omega
  · next hfull =>
      have hcapsize : p.node.size = cap := le_antisymm hsize (not_lt.1 hfull)
      obtain ⟨hsorted, -⟩ := h.shared.ok.sorted_inner hsp hE
      obtain ⟨L, b, child, R, heq, hhalf, hlL, hlR⟩ := InnerNode.splitInsert_halves (V := V) hsorted
        hslots hcapsize hcap s.allocator.next
      rw [hindex, heq]
      dsimp only
      -- a full parent has its own parent held, or is the root
      have hpath : (g.world s).Path (.insert i) r.key cap none (ps.map ParentNodeContext.copy)
          p.node.selfRep := by
        rcases hrest with hrest | ⟨-, hlt⟩
        · exact hrest
        · exact absurd hlt hfull
      by_cases hroot : p.node.selfRep = s.root
      · rw [if_neg (not_not.2 hroot.symm)]
        have hnil : ps = [] := by
          cases ps with
          | nil => rfl
          | cons p' ps =>
              have hparent := hpath.1.parent
              rw [hroot] at hparent
              exact absurd hparent h.shared.ok.root_no_parent
        subst hnil
        exact h.cutRoot hph hr hfr hd hx ⟨hawaits, rfl, rfl, rfl, rfl, rfl, rfl, ⟨rfl, rfl, hlL⟩,
          ⟨rfl, rfl, hlR⟩⟩ hroot hwrites hE hhalf hsettled
      · rw [if_pos (fun he => hroot he.symm)]
        exact h.writeHalves hph hr hfr hd hx ⟨hawaits, rfl, rfl, rfl, rfl, rfl, rfl,
          ⟨rfl, rfl, hlL⟩, ⟨rfl, rfl, hlR⟩⟩ rfl hstale hroot hpath hwrites hE hhalf hsettled

/-- The loop of state 9: by induction on the parents that are held.  One that is not
modified shows the tree. -/
theorem insertFlush_fine (h : Driven cap q m₀ s ph g (.insert i))
    (hst : (s.contexts (.insert i)).currentState = .s9) (hr : (s.inserts i).request = some r)
    (hdone : r ∈ g.order) (hfr : g.fr (.insert i) = []) (hx : x.request = (s.inserts i).request)
    (hawaits : x.awaitsState2 = false) (hno : x.childNodeSplit = false) (hstale : Unmodified stale) :
    ∀ {live : List (ParentNodeContext K)},
      (live = [] ∨ ∃ node, (g.world s).Path (.insert i) r.key cap none
        (live.map ParentNodeContext.copy) node) →
      Settled (g.world s) (.insert i) (s.held (.insert i)) (live.map fun p => p.node.selfRep) →
      (insertFlush false s i x (live ++ stale)).Fine cap q m₀ s ph g (.insert i) := by
  have hph := h.running.io_zero (by simp [hst])
  intro live
  induction live with
  | nil =>
      intro _ hsettled
      rw [List.nil_append, insertFlush_unmodified false s i x hstale]
      refine h.setAgain hph hr hx (by simp) ⟨⟨hdone, hfr, hawaits⟩, hsettled⟩ ?_
      rw [rank, hst]
      simp [insertRank]
  | cons p ps ih =>
      intro hpath hsettled
      obtain ⟨node, hf, hrest⟩ := hpath.resolve_left (List.cons_ne_nil _ _)
      have hpath' : ps = [] ∨ (g.world s).Path (.insert i) r.key cap none
          (ps.map ParentNodeContext.copy) p.node.selfRep := by
        rcases hrest with hrest | ⟨hnil, -⟩
        · exact .inr hrest
        · exact .inl (List.map_eq_nil_iff.1 hnil)
      rw [List.cons_append, insertFlush]
      split
      · exact h.writeNode hph hr hfr (h.decided hdone) hx hawaits hno rfl rfl hstale hpath'
          hf.writes hf.row_eq rfl hf.size hsettled
      · next hmod =>
          have hclean := hf.clean (Bool.eq_false_iff.2 hmod)
          exact ih (hpath'.imp_right fun hp => ⟨_, hp⟩)
            (hsettled.tail hclean (fun _ _ hy => hy))

end Climb

theorem insertState9_fine (hcap : 2 ≤ cap) (h : Driven cap q m₀ s ph g (.insert i))
    (hst : (s.contexts (.insert i)).currentState = .s9) :
    (insertState9 cap false s i).Fine cap q m₀ s ph g (.insert i) := by
  obtain ⟨r, hr, hruns⟩ := h.request
  rw [hst] at hruns
  obtain ⟨hafter, live, stale, hpending, hstale, hsettled, hno, hyes⟩ := hruns
  rw [insertState9.eq_def]
  dsimp only
  split
  · next hsplit =>
      obtain ⟨split, node, hsome, hne, hpath⟩ := hyes hsplit
      obtain ⟨p, ps, rfl⟩ := List.exists_cons_of_ne_nil hne
      rw [hpending]
      exact insertAddSplit_fine hcap h hst hr hafter.done hafter.fr rfl hafter.awaits hsome hstale
        hpath hsettled
  · next hsplit =>
      rw [Bool.not_eq_true] at hsplit
      have hfine := insertFlush_fine (x := { s.inserts i with lastState1 := false }) h hst hr
        hafter.done hafter.fr rfl hafter.awaits hsplit hstale (hno hsplit) hsettled
      rw [← hpending] at hfine
      exact hfine

/-! ## §3. States 10, 11 and 12. -/

/-- A write has completed, and others are missing. -/
theorem Driven.waitOn {x : InsertContext K V} {st : CtxState} {r : InsertRequest K V}
    (h : Driven cap q m₀ s ph g (.insert i)) (hst : (s.contexts (.insert i)).currentState = st)
    (hst' : st = .s10 ∨ st = .s12) (hr : (s.inserts i).request = some r)
    (hx : x.request = (s.inserts i).request)
    (hcount : x.writeBackCompletionCount = (s.inserts i).writeBackCompletionCount + 1)
    (htarget : x.writeBackCompletionTarget = (s.inserts i).writeBackCompletionTarget)
    (hne : x.writeBackCompletionCount ≠ x.writeBackCompletionTarget)
    (hwait : InsertWait cap (g.world s) (.insert i) r.key x (r ∈ g.order) (s.held (.insert i))
      (g.fr (.insert i)) st) :
    (Outcome.stop (s.setInsert i x)).Fine cap q m₀ s ph g (.insert i) := by
  have hst'' : (s.contexts (.insert i)).currentState = .s10
      ∨ (s.contexts (.insert i)).currentState = .s12 := by rw [hst]; exact hst'
  obtain ⟨n, hph, hnext, -⟩ := h.running.counting hst''
  refine .stop ⟨ph, g, ⟨h.running.wait hst'' hx hcount htarget hne, ?_, h.ledger⟩, .inl⟩
  have hdata : (s.setInsert i x).inserts i = x := Function.update_self ..
  refine (h.shared.setInsert x).park ⟨fun hf => ?_, fun _ => ⟨r, ?_, ?_⟩⟩
  · rw [hph] at hf
    cases hf
  · rw [hdata, hx, hr]
  · rw [hph, hdata]
    exact ⟨st, by rw [← hst]; exact hnext, hwait⟩

theorem insertState10_fine (h : Driven cap q m₀ s ph g (.insert i))
    (hst : (s.contexts (.insert i)).currentState = .s10) :
    (insertState10 s i).Fine cap q m₀ s ph g (.insert i) := by
  obtain ⟨r, hr, hruns⟩ := h.request
  rw [hst] at hruns
  obtain ⟨hafter, hclimb⟩ := hruns
  rw [insertState10.eq_def]
  dsimp only
  split
  · next hlast =>
      obtain ⟨n, hph, -, hsum⟩ := h.running.counting (.inl hst)
      obtain rfl : n = 0 := by omega
      refine h.setAgain hph hr rfl (by simp) ⟨⟨hafter.done, hafter.fr, hafter.awaits⟩, ?_⟩ ?_
      · exact hclimb.alike ⟨rfl, rfl, rfl, rfl, rfl, rfl, rfl, rfl, rfl, rfl⟩
      · rw [rank, hst]
        simp [insertRank]
  · next hmore =>
      refine h.waitOn hst (.inl rfl) hr rfl rfl rfl hmore ⟨⟨hafter.done, hafter.fr, hafter.awaits⟩, ?_⟩
      exact hclimb.alike ⟨rfl, rfl, rfl, rfl, rfl, rfl, rfl, rfl, rfl, rfl⟩

/-- State 11: the tokens are given back, and the insert is done. -/
theorem insertState11_fine (h : Driven cap q m₀ s ph g (.insert i))
    (hst : (s.contexts (.insert i)).currentState = .s11) :
    (insertState11 s i).Fine cap q m₀ s ph g (.insert i) := by
  have hph := h.running.io_zero (by simp [hst])
  obtain ⟨r, hr, hruns⟩ := h.request
  rw [hst] at hruns
  obtain ⟨hafter, hsettled⟩ := hruns
  rw [insertState11.eq_def]
  dsimp only
  split
  · next hnone => cases hr.symm.trans hnone
  next r' hr' =>
  obtain rfl : r = r' := Option.some.inj (hr.symm.trans hr')
  generalize hx : ({ s.inserts i with
    lastState1 := false
    request := if r.ownership then none else some r } : InsertContext K V) = x
  obtain ⟨ph', hrel, hbooks⟩ := Books.finishInsert (x := x) h.running hph hr
  obtain ⟨hshared, -⟩ := (h.shared.setInsert x).release (h.running.placed.setInsert x)
    (by simp [hph]) hrel (List.nil_sublist _) (fun t ht _ => (hsettled t ht).resolve_left nofun)
  obtain ⟨b, C, l, hs₁⟩ := hrel.frame
  have hlog : ((s.setInsert i x).releaseAllBut (.insert i) 0).log = s.log := by
    rw [hs₁]
    rfl
  have hdata : ((s.setInsert i x).releaseAllBut (.insert i) 0).inserts i = x := by
    rw [hs₁]
    exact Function.update_self ..
  refine .stop ⟨_, g, ⟨hbooks, ?_, ?_⟩, .inl⟩
  · refine Shared.park (c := .insert i)
      (hshared.self rfl rfl rfl rfl rfl (fun d hd => ⟨?_, rfl, Function.update_of_ne hd _ _⟩))
      ⟨fun _ => ⟨hafter.fr, ?_⟩, fun hne => ?_⟩
    · cases d <;> rfl
    · show (((s.setInsert i x).releaseAllBut (.insert i) 0).inserts i).awaitsState2 = false
      rw [hdata, ← hx]
      exact hafter.awaits
    · exact absurd (Function.update_self ..) hne
  · have hledger := h.ledger.finishInsert h.running.requests.admittedIds hafter.done
    rw [← hlog] at hledger
    exact hledger

/-- State 12: both halves of the old root are written, and a new root is put over them. -/
theorem insertNewRoot_fine {x : InsertContext K V} {r : InsertRequest K V} {split : Split K V}
    {kl kr : K} (h : Driven cap q m₀ s ph g (.insert i)) (hcap : 2 ≤ cap)
    (hph : ph (.insert i) = .io 0) (hr : (s.inserts i).request = some r)
    (hx : x.request = (s.inserts i).request) (hdone : r ∈ g.order)
    (hawaits : x.awaitsState2 = false) (hfr : g.fr (.insert i) = [split.right.selfRep])
    (hleft : split.left.selfRep = s.root)
    (hcut : (g.world s).Cut (.insert i) s.root split.right.selfRep split.boundaryKey
      split.left.shape split.right.shape)
    (hrawl : s.raw s.root = some split.left.shape)
    (hrawr : s.raw split.right.selfRep = some split.right.shape)
    (hsettled : Settled (g.world s) (.insert i) (s.held (.insert i)) [s.root])
    (hkr : kr = split.boundaryKey) (hkl : kl ∈ split.left.shape.keys)
    (hmin : ∀ k ∈ split.left.shape.keys, kl ≤ k) :
    (insertNewRoot false s i x split kl kr).Fine cap q m₀ s ph g (.insert i) := by
  subst hkr
  obtain ⟨hnextG, hnextFr, hnextMode⟩ := h.shared.next_unused
  generalize hy : ({ x with
    writeBackCompletionCount := 0
    writeBackCompletionTarget := 1
    childNodeSplit := false } : InsertContext K V) = y
  generalize hnew : ((InnerNode.ofChildren s.allocator.next (kl, split.left.selfRep)
    (split.boundaryKey, split.right.selfRep)).markModified) = new
  have hnewRep : new.selfRep = s.allocator.next := by
    rw [← hnew]
    rfl
  have hnewSlots : new.slots = [(kl, s.root), (split.boundaryKey, split.right.selfRep)] := by
    rw [← hnew, ← hleft]
    rfl
  have heq : insertNewRoot false s i x split kl split.boundaryKey = .stop
      ((({ s.allocate with
        root := new.selfRep
        rootInstance := some new
        depth := s.depth + 1 } : State K V).setInsert i y |>.setNextState (.insert i)
          .s11).asynchWrite false (.insert i) new.selfRep (new.serialize V)) := by
    rw [← hnew, ← hy]
    rfl
  rw [heq]
  generalize hs' : (({ s.allocate with
    root := new.selfRep
    rootInstance := some new
    depth := s.depth + 1 } : State K V).setInsert i y |>.setNextState (.insert i)
      .s11).asynchWrite false (.insert i) new.selfRep (new.serialize V) = s'
  have hyr : y.request = (s.inserts i).request := by
    rw [← hy]
    exact hx
  have hbooks : Books q s' (Function.update ph (.insert i) (.io 1)) := by
    rw [← hs']
    exact Books.setWrite (h.running.placed.store _ _ _ _ _)
      (h.running.requests.same (.of_eq rfl rfl rfl rfl rfl rfl rfl rfl) (fun _ => Iff.rfl)) hph hyr
      (.inr rfl)
  have hblocks : s'.blocks = Function.update s.blocks s.allocator.next (some (new.serialize V)) := by
    rw [← hnewRep, ← hs']
    rfl
  have hsame : s'.allocator = s.allocator.allocate ∧ s'.root = s.allocator.next
      ∧ s'.depth = s.depth + 1 ∧ s'.log = s.log := by
    rw [← hnewRep, ← hs']
    exact ⟨rfl, rfl, rfl, rfl⟩
  obtain ⟨halloc, hroot', hdepth, hlog⟩ := hsame
  have hheld : s'.held = s.held := by
    rw [← hs']
    exact State.held_setNextState _ _ _
  have hshape : (new.serialize V).shape = .inner [(kl, s.root),
      (split.boundaryKey, split.right.selfRep)] := by
    rw [← hnewSlots]
    rfl
  generalize hg' : ({ g with
    E := ((g.world s).growAt split.right.selfRep s.allocator.next split.left.shape
      split.right.shape kl split.boundaryKey).E
    G := ((g.world s).growAt split.right.selfRep s.allocator.next split.left.shape
      split.right.shape kl split.boundaryKey).G
    fr := Function.update g.fr (.insert i) []
    lost := g.lost ∨ Waiting s ph } : Ghost K V) = g'
  have hworld : (((g.world s).growAt split.right.selfRep s.allocator.next split.left.shape
      split.right.shape kl split.boundaryKey).writeRaw s.allocator.next
        (.inner [(kl, s.root), (split.boundaryKey, split.right.selfRep)])).withMode
          (s.mode (Function.update g.fr (.insert i) [])) = g'.world s' := by
    have hmode : s'.mode g'.fr = s.mode (Function.update g.fr (.insert i) []) := by
      funext d z
      rw [State.mode, State.mode, hheld, ← hg']
    unfold Ghost.world State.world
    rw [State.raw_update hblocks, hshape, hroot', hdepth, hmode, ← hg']
    rfl
  have hμ : ∀ d z, d ≠ .insert i ∨ z ≠ split.right.selfRep →
      s.mode (Function.update g.fr (.insert i) []) d z = (g.world s).mode d z := by
    intro d z hne
    show _ = s.mode g.fr d z
    unfold State.mode
    by_cases hdi : d = .insert i
    · have hz : z ∉ g.fr d := by
        rw [hdi, hfr]
        simpa using hne.resolve_left (fun hn => hn hdi)
      rw [if_neg hz, hdi, Function.update_self, if_neg (by simp)]
    · rw [Function.update_of_ne hdi]
  have hμr : s.mode (Function.update g.fr (.insert i) []) (.insert i) split.right.selfRep = none := by
    rw [State.mode, Function.update_self, if_neg (by simp)]
    cases hm : tokenMode (s.held (.insert i)) split.right.selfRep with
    | none => rfl
    | some type =>
        have hfresh : split.right.selfRep ∈ g.fr (.insert i) := by rw [hfr]; simp
        exact absurd rfl (h.shared.fresh_token hfresh (mem_of_tokenMode hm))
  obtain ⟨hok, hguars, hclean, hkeep, hplan⟩ := h.shared.ok.newRoot hcut hnextG hnextMode hkl hmin
    hrawl hrawr hμ hμr hworld
  have hfields : g'.m = g.m ∧ g'.order = g.order ∧ g'.lost = (g.lost ∨ Waiting s ph)
      ∧ g'.fr = Function.update g.fr (.insert i) [] := by
    rw [← hg']
    exact ⟨rfl, rfl, rfl, rfl⟩
  obtain ⟨hm', horder', hlost', hfr'⟩ := hfields
  have hself : g'.fr (.insert i) = [] := by rw [hfr', Function.update_self]
  have hother : ∀ d, d ≠ .insert i → g'.fr d = g.fr d := by
    intro d hd
    rw [hfr', Function.update_of_ne hd]
  have hsub : ∀ d z, z ∈ g'.fr d → d ≠ .insert i ∧ z ∈ g.fr d := by
    intro d z hz
    by_cases hd : d = .insert i
    · rw [hd, hself] at hz
      cases hz
    · rw [hother d hd] at hz
      exact ⟨hd, hz⟩
  have hright : split.right.selfRep ∈ g.fr (.insert i) := by rw [hfr]; simp
  have hrootne : s'.root ≠ s.root := by
    rw [hroot']
    intro he
    have hplan := h.shared.ok.plan_root
    change g.G s.root = _ at hplan
    rw [← he, hnextG] at hplan
    cases hplan
  have hwait : InsertWait cap (g'.world s') (.insert i) r.key y (r ∈ g'.order)
      (s.held (.insert i)) (g'.fr (.insert i)) .s11 := by
    refine ⟨⟨horder' ▸ hdone, hself, ?_⟩, fun t ht => .inr ?_⟩
    · rw [← hy]
      exact hawaits
    · by_cases hta : t.barrierId = s.root
      · rw [hta]
        exact hclean
      · have htclean := (hsettled t ht).resolve_left (fun hm => hta (List.mem_singleton.1 hm))
        refine hkeep _ hta (h.shared.fresh_token hright ht) ?_ htclean
        intro he
        exact htclean.1 (he ▸ hnextMode (.insert i))
  refine .stop ⟨_, g', ⟨hbooks, ?_, ?_⟩, fun hl => ?_⟩
  · refine h.shared.wrote h.running.placed ?_ ?_ ?_ hguars (hm' ▸ hok) ?_ ?_
      (fun z hz => ?_) (fun d z hz => ?_) hother ?_ (fun hl => hlost' ▸ .inl hl)
      (fun _ hw => hlost' ▸ .inr hw) (hyr.trans hr) hwait
    · rw [← hs']
      rfl
    · rw [← hs']
      rfl
    · rw [← hs']
      rfl
    · rw [hblocks]
      refine BlocksOk.update h.shared.blocks hnewRep ?_
      show new.slots.length ≤ cap
      rw [hnewSlots]
      exact hcap
    · rw [halloc]
      exact h.shared.allocator.allocate
    · rw [halloc] at hz
      obtain ⟨hne, hnone, hnot⟩ := h.shared.unused_allocate hz
      have hzr : z ≠ split.right.selfRep := by
        rintro rfl
        exact hnot _ hright
      exact ⟨hplan z hzr hne hnone, fun d hzd => hnot d (hsub d z hzd).2⟩
    · obtain ⟨hd, hzd⟩ := hsub d z hz
      obtain ⟨hnone, honly⟩ := h.shared.fresh d z hzd
      have hzr : z ≠ split.right.selfRep := by
        rintro rfl
        exact hd (honly _ hright).symm
      have hzn : z ≠ s.allocator.next := by
        rintro rfl
        exact hnextFr d hzd
      exact ⟨hplan z hzr hzn hnone, fun d' hzd' => honly d' (hsub d' z hzd').2⟩
    · rw [horder']
      exact fun _ _ _ _ _ => Iff.rfl
  · rw [hlog]
    exact h.ledger.congr horder' hm' (fun hl => hlost' ▸ .inl hl)
  · rw [hlost'] at hl
    exact hl.imp_right fun hw => ⟨hrootne, hw⟩

theorem insertState12_fine (hcap : 2 ≤ cap) (h : Driven cap q m₀ s ph g (.insert i))
    (hst : (s.contexts (.insert i)).currentState = .s12) :
    (insertState12 false s i).Fine cap q m₀ s ph g (.insert i) := by
  obtain ⟨r, hr, hruns⟩ := h.request
  rw [hst] at hruns
  obtain ⟨⟨hdone, hawaits⟩, hgrow⟩ := hruns
  rw [insertState12.eq_def]
  dsimp only
  split
  · next hlast =>
      obtain ⟨n, hph, -, hsum⟩ := h.running.counting (.inr hst)
      obtain rfl : n = 0 := by omega
      obtain ⟨split, hsome, hfr, hleft, hcut, hrawl, hrawr⟩ := hgrow.split
      obtain ⟨hhead, k₀, hk₀, hmem, hmin⟩ := h.shared.ok.cut_heads hcut ⟨_, h.shared.ok.plan_root⟩
      rw [← Node.getLeftmostKey_eq] at hhead hk₀
      split
      · next hnone => cases hsome.symm.trans hnone
      next split' hsome' =>
      obtain rfl : split = split' := Option.some.inj (hsome.symm.trans hsome')
      rw [hk₀, hhead]
      exact insertNewRoot_fine h hcap hph hr rfl hdone hawaits hfr hleft hcut hrawl hrawr
        hgrow.settled rfl hmem hmin
  · next hmore =>
      exact h.waitOn hst (.inr rfl) hr rfl rfl rfl hmore
        ⟨⟨hdone, hawaits⟩, hgrow.alike ⟨rfl, rfl, rfl, rfl, rfl, rfl, rfl, rfl, rfl, rfl⟩⟩

end PullBasedBPlusTree

end NvmTree
