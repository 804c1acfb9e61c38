/-
  NvmTree.Pull.InsertDown — an insert on its way down the tree.

  States 0, 10001, 1 and 13 of `insert_context::run`, and state 2 at an inner node:
  none of them fails, and the context knows afterwards what its next state asks for.
  An optimistic insert moves from one node to the next with one barrier at a time; a
  pessimistic one keeps the barriers of the parents that it may still have to change.
-/
import NvmTree.Pull.Driven

namespace NvmTree

open RangeTree

namespace PullBasedBPlusTree

variable {K V : Type*} [LinearOrder K] {cap q : Nat} {m₀ : K → Option V} {s s' : State K V}
  {ph ph' : ContextId → Phase} {g g' : Ghost K V} {c : ContextId} {i : Nat}

/-! ## §1. State 0. -/

/-- No node is higher than the root. -/
theorem Tall.depth {w : World ContextId K V BlkAddress} {m : K → Option V} (hw : w.Ok m)
    (h : Tall w) : 2 ≤ w.depth := by
  obtain ⟨a, l, ⟨sp, hsp, hl⟩, h2⟩ := h
  obtain ⟨κ, ht⟩ := hw.tree
  have hle := ht.level_le hsp
  omega

/-- The context aims at its node, or at the root if it has none yet. -/
theorem atRoot_aim {r : InsertRequest K V} {tokens : List BarrierToken} {node : BlkAddress}
    (hw : (g.world s).Ok g.m)
    (h : Begin (g.world s) (s.inserts i) tokens
      ∨ ∃ node, (s.inserts i).nodeRef = some node ∧ (s.inserts i).referToRoot = false
        ∧ Aim cap (g.world s) (.insert i) r.key (s.inserts i) tokens node)
    (hnode : (atRoot s i).nodeRef = some node) :
    Aim cap (g.world s) (.insert i) r.key (atRoot s i) tokens node
      ∧ ((atRoot s i).referToRoot = true → node = s.root) := by
  rcases h with hbegin | ⟨node', hnode', hrefer, haim⟩
  · rw [atRoot, if_pos hbegin.nodeRef] at hnode ⊢
    cases hnode
    refine ⟨⟨⟨s.depth, ⟨_, hw.plan_root, rfl⟩, rfl, fun hl => (hbegin.leaf hl).depth hw, ?_⟩, ?_⟩,
      fun _ => rfl⟩
    · rw [hbegin.tokens]
      exact nofun
    · rw [hbegin.tokens]
      exact .root rfl hbegin.free hbegin.stale
  · rw [atRoot, if_neg (by rw [hnode']; nofun)] at hnode ⊢
    obtain rfl : node' = node := Option.some.inj (hnode'.symm.trans hnode)
    refine ⟨haim.alike ⟨rfl, rfl, rfl, rfl, rfl, rfl, rfl, rfl, rfl, rfl⟩, fun hr => ?_⟩
    cases hr.symm.trans hrefer

omit [LinearOrder K] in
theorem atRoot_awaits (s : State K V) (i : Nat) :
    (atRoot s i).awaitsState2 = (s.inserts i).awaitsState2 := by
  unfold atRoot
  split <;> rfl

theorem insertState0_fine (h : Driven cap q m₀ s ph g (.insert i))
    (hst : (s.contexts (.insert i)).currentState = .s0) :
    (insertState0 s i).Fine cap q m₀ s ph g (.insert i) := by
  have hph := h.running.io_zero (by simp [hst])
  obtain ⟨r, hr, hruns⟩ := h.request
  have hrank : rank s (.insert i) = 3 := by rw [rank, hst]; rfl
  rw [hst] at hruns
  obtain ⟨hbefore, hway⟩ := hruns
  have hbefore' : Before (atRoot s i) (r ∈ g.order) (g.fr (.insert i)) :=
    ⟨hbefore.notDone, hbefore.fr, (atRoot_awaits s i).trans hbefore.awaits⟩
  obtain ⟨node, hnode, heq⟩ := insertState0_eq s i rfl
  obtain ⟨haim, hroot⟩ := atRoot_aim h.shared.ok hway hnode
  obtain ⟨l, hlevel, -, -, habove⟩ := haim.level
  have hrunning := h.running.setInsert hph (by simp [hst]) (atRoot_request s i)
  have hshared := h.shared.setInsert (atRoot s i)
  generalize hs₀ : s.setInsert i (atRoot s i) = s₀ at *
  have hworld : g.world s₀ = g.world s := by
    rw [← hs₀]
    rfl
  have hheld : s₀.held = s.held := by
    rw [← hs₀]
    rfl
  have hdata : s₀.inserts i = atRoot s i := by
    rw [← hs₀]
    exact Function.update_self ..
  have hreq : (s₀.inserts i).request = some r := by
    rw [hdata, atRoot_request, hr]
  have hroot₀ : s₀.root = s.root := by
    rw [← hs₀]
    rfl
  have hlog : s₀.log = s.log := by
    rw [← hs₀]
    rfl
  rw [heq]
  split
  · next hg =>
      have hknows : (g.world s).Knows node := hlevel.imp fun _ hsp => hsp.1
      have hgr := hshared.granted hrunning hph (by simp) (by simp) (hworld ▸ hknows)
        (hheld ▸ fun t ht => habove.ne hlevel ht) rfl hg
      obtain ⟨j, hcj, hguar⟩ := hgr.guar
      rw [hworld] at hguar
      refine .again ⟨ph, g, ⟨hgr.running, hgr.shared, ⟨r, ?_, ?_⟩, ?_⟩, ?_, ?_, id, fun hw => ?_⟩
      · rw [hgr.inserts]
        exact hreq
      · rw [hgr.state, hgr.inserts, hdata, hgr.held, hheld]
        exact ⟨hbefore', node, hnode, hgr.clean, _, rfl,
          haim.stable h.shared.ok hgr.shared.ok hguar hcj⟩
      · rw [hgr.log, hlog]
        exact h.ledger
      · rw [hrank, rank, hgr.state, hgr.inserts, hdata, hgr.held, hgr.root, hroot₀,
          insertRank_fresh _ hroot]
        omega
      · exact hgr.root.trans hroot₀
      · obtain ⟨k, hk, hnil⟩ := hgr.waiting hw
        exact ⟨k, hk, hheld ▸ hnil⟩
  · next hg =>
      have hbooks := Books.enqueue (x := node) (atRoot s i).access hrunning hph
        ⟨by rw [← hs₀]; exact hst, rfl, by rw [hdata]; exact hnode⟩
      refine .stop ⟨_, g, ⟨hbooks, hshared.queued rfl ⟨fun hf => ?_, fun _ => ⟨r, hreq, ?_⟩⟩, ?_⟩,
        .inl⟩
      · rw [Function.update_self] at hf
        cases hf
      · rw [Function.update_self]
        change InsertKnow cap (g.world (s₀.setNextState (.insert i) .s10001)) (.insert i) r.key
          (s₀.inserts i) (r ∈ g.order) ((s₀.setNextState (.insert i) .s10001).contexts (.insert i))
          (g.fr (.insert i)) _
        have hheld' : ((s₀.setNextState (.insert i) .s10001).contexts (.insert i)).obtainedBarriers
            = s.held (.insert i) := by
          rw [← hheld]
          exact congrFun (s₀.held_setNextState _ _) _
        rw [g.world_setNextState, hworld, hdata]
        refine ⟨hbefore', rfl, ?_⟩
        rw [hheld']
        exact haim
      · have hledger := h.ledger
        rw [← hlog] at hledger
        exact hledger

/-! ## §2. State 10001. -/

/-- A context that has got its barrier is at the right node, if that is still the root
where the root was meant. -/
theorem Aim.at_node {w : World ContextId K V BlkAddress} {m : K → Option V} {key : K}
    {x : InsertContext K V} {tokens : List BarrierToken} {node : BlkAddress} (hw : w.Ok m)
    (hheld : w.Held c node) (hroot : x.referToRoot = true → node = w.root)
    (h : Aim cap w c key x tokens node) : w.At c node key := by
  cases h.way with
  | root refer free stale =>
      rw [hroot refer] at hheld ⊢
      exact hw.at_root hheld key
  | optimistic refer opt at_node clean stale => exact at_node
  | pessimistic refer opt at_node live free boundary => exact at_node

section Enter

variable {w w' : World ContextId K V BlkAddress} {m : K → Option V} {key : K}
  {x : InsertContext K V} {others : List BarrierToken} {node : BlkAddress}

/-- An optimistic insert keeps the barrier of its node only. -/
theorem Aim.enter_optimistic (hk : Kept w w' m c [⟨node, x.access⟩]) (hopt : x.optimistic = true)
    (hat : w.At c node key) (hclean : w.Clean c node) (h : Aim cap w c key x others node) :
    Entered cap w' c key { x with lastState1 := false, referToRoot := false }
      [⟨node, x.access⟩] node := by
  obtain ⟨l, hlevel, hlev, hleaf, -⟩ := h.level
  have hm : (⟨node, x.access⟩ : BarrierToken) ∈ [(⟨node, x.access⟩ : BarrierToken)] :=
    List.mem_singleton.2 rfl
  have hstale : Unmodified x.pendingParentNodes := by
    cases h.way with
    | root refer free stale => exact stale
    | optimistic refer opt at_node clean stale => exact stale
    | pessimistic refer opt at_node live free boundary => cases hopt.symm.trans opt
  refine ⟨rfl, hk.at_node hm hat, hk.clean hm hclean, ⟨l, hk.level hlevel, hlev⟩,
    .inl ⟨hopt, hstale, _, rfl, fun hone => ?_⟩⟩
  -- at level 1 the flag was set
  have hne : x.nextVisitIsLeafNode ≠ false := by
    intro hl
    have h2 := hleaf hl
    change x.currentNodeLevel = 1 at hone
    omega
  simp [InsertContext.access, hne]

/-- A pessimistic insert has the barriers of the parents that lead to its node. -/
theorem Aim.live (hheld : w.Held c node) (hroot : x.referToRoot = true → node = w.root)
    (hopt : x.optimistic = false) (h : Aim cap w c key x others node) :
    ∃ live, others = live.map ParentNodeContext.token ∧ Live cap w c key x live node
      ∧ (x.freeSlotAvailableInParent = true → x.parentBoundaryUpdate = false →
        ∃ p ps, live = p :: ps ∧ p.node.hasFreeSlot cap = true ∧ p.node.modified = false) := by
  cases h.way with
  | root refer free stale =>
      refine ⟨[], rfl, ⟨⟨_, rfl, stale⟩, ⟨rfl, hroot refer, hheld⟩, List.Pairwise.nil, nofun⟩, ?_⟩
      exact fun hfree => absurd (hfree.symm.trans (free hopt)) nofun
  | optimistic refer opt at_node clean stale => cases hopt.symm.trans opt
  | @pessimistic p ps _ refer opt at_node live free boundary =>
      exact ⟨p :: ps, rfl, live, fun hfree hbound => ⟨p, ps, rfl, free.symm.trans hfree,
        boundary.symm.trans hbound⟩⟩

/-- A parent with room that is not modified makes the ones above it dispensable. -/
theorem Live.cut {p : ParentNodeContext K} {ps : List (ParentNodeContext K)} {type : BarrierType}
    (hk : Kept w w' m c [⟨node, type⟩, p.token]) (hroom : p.node.hasFreeSlot cap = true)
    (hmod : p.node.modified = false) (h : Live cap w c key x (p :: ps) node) :
    Live cap w' c key x [p] node := by
  obtain ⟨stale, hpending, hstale⟩ := h.pending
  have hps : ∀ p' ∈ ps, p'.node.modified = false := by
    intro p' hp'
    have hdown := List.rel_of_pairwise_cons h.down hp'
    cases hm : p'.node.modified with
    | false => rfl
    | true => cases hmod.symm.trans (hdown hm)
  refine ⟨⟨ps ++ stale, by rw [hpending]; rfl, ?_⟩, ⟨hk.frame (by simp) h.path.1, .inr ⟨rfl, ?_⟩⟩,
    List.pairwise_singleton _ _, fun p' hp' hm => ?_⟩
  · intro p' hp'
    rcases List.mem_append.1 hp' with hp' | hp'
    · exact hps p' hp'
    · exact hstale p' hp'
  · exact of_decide_eq_true hroom
  · obtain rfl : p = p' := Option.some.inj hp'
    cases hmod.symm.trans hm

end Enter

omit [LinearOrder K] in
theorem insertState10001_eq {latest : BarrierToken} {others : List BarrierToken}
    (ht : s.held (.insert i) = latest :: others) :
    insertState10001 s i =
      if ((s.inserts i).referToRoot && decide (latest.barrierId ≠ s.root)) = true then
        .again (((s.setInsert i { s.inserts i with
          lastState1 := false
          referToRoot := true
          nodeRef := none }).releaseAllBut (.insert i) 0).enter (.insert i) .s0)
      else if (s.inserts i).optimistic = true then
        .again (((s.setInsert i { s.inserts i with
          lastState1 := false
          referToRoot := false }).releaseAllBut (.insert i) 1).enter (.insert i) .s1)
      else if ((s.inserts i).freeSlotAvailableInParent
          && !(s.inserts i).parentBoundaryUpdate) = true then
        if others.isEmpty = true then .fault .noSecondToken
        else .again (((s.setInsert i { s.inserts i with
          lastState1 := false
          referToRoot := false }).releaseAllBut (.insert i) 2).enter (.insert i) .s1)
      else .again ((s.setInsert i { s.inserts i with
        lastState1 := false
        referToRoot := false }).enter (.insert i) .s1) := by
  have ht' : (s.contexts (.insert i)).obtainedBarriers = latest :: others := ht
  simp only [insertState10001, ht']

theorem insertState10001_fine (h : Driven cap q m₀ s ph g (.insert i))
    (hst : (s.contexts (.insert i)).currentState = .s10001) :
    (insertState10001 s i).Fine cap q m₀ s ph g (.insert i) := by
  have hph := h.running.io_zero (by simp [hst])
  obtain ⟨r, hr, hruns⟩ := h.request
  rw [hst] at hruns
  obtain ⟨hbefore, node, hnode, hat⟩ := hruns
  obtain ⟨others, htokens, haim⟩ := hat.aim
  obtain ⟨l, hlevel, hlev, hleaf, habove⟩ := haim.level
  have hrank : rank s (.insert i) = insertRank s.root (s.inserts i)
      (⟨node, (s.inserts i).access⟩ :: others) .s10001 := by
    rw [rank, hst, htokens]
  rw [insertState10001_eq htokens]
  split
  · -- the root was replaced while the context waited for it
    next hstale =>
      simp only [Bool.and_eq_true, decide_eq_true_eq] at hstale
      cases haim.way with
      | root refer free stale =>
          refine h.releaseAgain hph hr rfl (by simp) ?_ ?_ ?_
          · intro t ht
            rw [htokens, List.drop_zero, List.mem_singleton] at ht
            rw [ht]
            exact hat.clean
          · intro w' hk
            refine ⟨⟨hbefore.notDone, hbefore.fr, hbefore.awaits⟩, .inl ⟨rfl, rfl, free, stale, ?_⟩⟩
            exact fun hl => ⟨node, l, hk.level hlevel, hleaf hl⟩
          · rw [hrank]
            simp [insertRank, hstale]
      | optimistic refer opt at_node clean stale => cases hstale.1.symm.trans refer
      | pessimistic refer opt at_node live free boundary =>
          cases hstale.1.symm.trans refer
  · next hstale =>
      have hroot : (s.inserts i).referToRoot = true → node = s.root := by
        intro hrefer
        by_contra hne
        exact hstale (by simp [hrefer, hne])
      have hatnode := haim.at_node h.shared.ok hat.clean.1 hroot
      have hrank2 : rank s (.insert i) = 2 := hrank.trans (insertRank_fresh others hroot)
      split
      · next hopt =>
          refine h.releaseAgain hph hr rfl (by simp) ?_ ?_ ?_
          · intro t ht
            rw [htokens] at ht
            cases haim.way with
            | root refer free stale => cases ht
            | optimistic refer opt at_node clean stale =>
                rw [List.drop_one, List.tail_cons, List.mem_singleton] at ht
                rw [ht]
                exact clean
            | pessimistic refer opt at_node live free boundary =>
                cases hopt.symm.trans opt
          · intro w' hk
            rw [htokens] at hk ⊢
            exact ⟨⟨hbefore.notDone, hbefore.fr, hbefore.awaits⟩, rfl, node, hnode,
              haim.enter_optimistic hk hopt hatnode hat.clean⟩
          · rw [hrank2]
            simp [insertRank]
      · next hopt =>
          rw [Bool.not_eq_true] at hopt
          obtain ⟨live, rfl, hlive, hcut⟩ := haim.live hat.clean.1 hroot hopt
          have haccess : (s.inserts i).access = .write := by simp [InsertContext.access, hopt]
          split
          · next hfree =>
              simp only [Bool.and_eq_true, Bool.not_eq_true'] at hfree
              obtain ⟨p, ps, rfl, hroom, hmod⟩ := hcut hfree.1 hfree.2
              rw [if_neg (by simp)]
              refine h.releaseAgain hph hr rfl (by simp) ?_ ?_ ?_
              · intro t ht
                rw [htokens] at ht
                obtain ⟨p', hp', rfl⟩ := List.mem_map.1 ht
                refine hlive.path.clean p'.copy (List.mem_map_of_mem (List.mem_cons_of_mem _ hp')) ?_
                have hdown := List.rel_of_pairwise_cons hlive.down hp'
                cases hm : p'.node.modified with
                | false => exact hm
                | true => cases hmod.symm.trans (hdown hm)
              · intro w' hk
                rw [htokens] at hk ⊢
                refine ⟨⟨hbefore.notDone, hbefore.fr, hbefore.awaits⟩, rfl, node, hnode, rfl,
                  hk.at_node List.mem_cons_self hatnode, hk.clean List.mem_cons_self hat.clean,
                  ⟨l, hk.level hlevel, hlev⟩, .inr ⟨hopt, [p], ?_, ?_⟩⟩
                · rw [haccess]
                  rfl
                · exact (hlive.cut hk hroom hmod).congr rfl
              · rw [hrank2]
                simp [insertRank]
          · refine h.setAgain hph hr rfl (by simp) ?_ ?_
            · rw [htokens, haccess]
              exact ⟨⟨hbefore.notDone, hbefore.fr, hbefore.awaits⟩, rfl, node, hnode, rfl, hatnode,
                hat.clean, ⟨l, hlevel, hlev⟩, .inr ⟨hopt, live, rfl, hlive.congr rfl⟩⟩
            · rw [hrank2]
              simp [insertRank]

/-! ## §3. States 1 and 13. -/

/-- The insert reads its node and waits. -/
theorem Shared.setRead {x : InsertContext K V} {r : InsertRequest K V} {node : BlkAddress}
    (h : Shared cap s ph g (some (.insert i))) (hr : x.request = some r)
    (hk : InsertWait cap (g.world s) (.insert i) r.key { x with buffer := s.blocks node }
      (r ∈ g.order) (s.held (.insert i)) (g.fr (.insert i)) .s2) :
    Shared cap (((s.setInsert i x).setNextState (.insert i) .s2).asynchRead false (.insert i) node)
      (Function.update ph (.insert i) (.io 1)) g none := by
  generalize hs' : ((s.setInsert i x).setNextState (.insert i) .s2).asynchRead false (.insert i)
    node = s'
  have hdata : s'.inserts = Function.update s.inserts i { x with buffer := s.blocks node } := by
    rw [← hs']
    exact (Function.update_idem ..).trans (by simp [State.setNextState, State.setContext,
      State.setInsert])
  have hheld : s'.held = s.held := by
    rw [← hs']
    exact (s.setInsert i x).held_setNextState _ _
  have hctx : s'.contexts = Function.update s.contexts (.insert i)
      { s.contexts (.insert i) with nextState := some .s2 } := by
    rw [← hs']
    rfl
  have hworld : g.world s' = g.world s := by
    refine g.world_congr ?_ ?_ ?_ hheld <;> rw [← hs'] <;> rfl
  refine Shared.park (c := .insert i) (h.self ?_ ?_ ?_ ?_ hheld (fun d hd => ⟨?_, ?_, ?_⟩))
    ⟨fun hf => ?_, fun _ => ⟨r, ?_, ?_⟩⟩
  · rw [← hs']; rfl
  · rw [← hs']; rfl
  · rw [← hs']; rfl
  · rw [← hs']; rfl
  · cases d with
    | search j =>
        rw [← hs']
        rfl
    | insert j =>
        rw [State.SameData, hdata]
        exact Function.update_of_ne (fun hj => hd (by rw [hj])) _ _
  · rw [hctx, Function.update_of_ne hd]
  · rw [Function.update_of_ne hd]
  · rw [Function.update_self] at hf
    cases hf
  · rw [hdata, Function.update_self]
    exact hr
  · rw [Function.update_self, hdata, Function.update_self, hctx, Function.update_self, hworld]
    exact ⟨.s2, rfl, hk⟩

theorem insertState1_fine (h : Driven cap q m₀ s ph g (.insert i))
    (hst : (s.contexts (.insert i)).currentState = .s1) :
    (insertState1 false s i).Fine cap q m₀ s ph g (.insert i) := by
  have hph := h.running.io_zero (by simp [hst])
  obtain ⟨r, hr, hruns⟩ := h.request
  rw [hst] at hruns
  obtain ⟨hbefore, hlast, node, hnode, hent⟩ := hruns
  have hflags : ¬ ((s.inserts i).lastState1 || (s.inserts i).awaitsState2) = true := by
    simp [hlast, hbefore.awaits]
  obtain ⟨l, ⟨sp, hsp, -⟩, -⟩ := hent.level
  obtain ⟨b, hb, hshows⟩ := h.shared.shows ⟨sp, hsp⟩ hent.clean.2
  rw [insertState1]
  dsimp only
  rw [if_neg hflags]
  split
  · next hnone => cases hnode.symm.trans hnone
  · next node' hnode' =>
      obtain rfl : node = node' := Option.some.inj (hnode.symm.trans hnode')
      refine .stop ⟨_, g, ⟨Books.setRead false h.running hph rfl, h.shared.setRead hr ?_,
        h.ledger⟩, .inl⟩
      exact ⟨⟨hbefore.notDone, hbefore.fr⟩, node, b, hnode,
        hent.alike ⟨rfl, rfl, rfl, rfl, rfl, rfl, rfl, rfl, rfl, rfl⟩, hb, hshows⟩

theorem insertState13_fine (h : Driven cap q m₀ s ph g (.insert i))
    (hst : (s.contexts (.insert i)).currentState = .s13) :
    (insertState13 s i).Fine cap q m₀ s ph g (.insert i) := by
  have hph := h.running.io_zero (by simp [hst])
  obtain ⟨r, hr, hruns⟩ := h.request
  rw [hst] at hruns
  obtain ⟨hbefore, hsettled, hstale⟩ := hruns
  refine h.releaseAgain hph hr rfl (by simp) ?_ ?_ ?_
  · intro t ht
    rw [List.drop_zero] at ht
    exact (hsettled t ht).resolve_left (by simp)
  · intro w' hk
    refine ⟨⟨hbefore.notDone, hbefore.fr, hbefore.awaits⟩, .inl ⟨rfl, rfl, fun _ => rfl, hstale, ?_⟩⟩
    intro hleaf
    have hroot := hk.ok.plan_root
    obtain ⟨κ, ht⟩ := hk.ok.tree
    have hpos : 1 ≤ w'.depth := ht.level_pos hroot
    have hne : s.depth ≠ 1 := of_decide_eq_false hleaf
    have hdepth : w'.depth = s.depth := hk.depth
    exact ⟨w'.root, w'.depth, ⟨_, hroot, rfl⟩, by omega⟩
  · rw [rank, hst]
    simp [insertRank]

/-! ## §4. State 2 at an inner node. -/

/-- The context decides another content for a node, which it will write later, and
calls `run` again. -/
theorem Driven.decideAgain {x : InsertContext K V} {st : CtxState} {r : InsertRequest K V}
    {node : BlkAddress} {sh : Shape K V BlkAddress} (h : Driven cap q m₀ s ph g (.insert i))
    (hph : ph (.insert i) = .io 0) (hr : (s.inserts i).request = some r)
    (hx : x.request = (s.inserts i).request) (hst : st ≠ .s10 ∧ st ≠ .s12)
    (hok : ((g.world s).setE node sh).Ok g.m)
    (hguar : World.Guar (.insert i) (g.world s) ((g.world s).setE node sh))
    (hruns : InsertRuns cap ((g.world s).setE node sh) (.insert i) r.key x (r ∈ g.order)
      (s.held (.insert i)) (g.fr (.insert i)) st)
    (hrank : insertRank s.root x (s.held (.insert i)) st < rank s (.insert i)) :
    (Outcome.again ((s.setInsert i x).enter (.insert i) st)).Fine cap q m₀ s ph g (.insert i) := by
  generalize hs' : (s.setInsert i x).enter (.insert i) st = s'
  have hrunning : Running q s' ph (.insert i) := hs' ▸ h.running.setAgain hph hx hst
  have hheld : s'.held = s.held := by
    rw [← hs']
    exact State.held_enter _ _ _
  have hctx : s'.contexts = Function.update s.contexts (.insert i)
      { s.contexts (.insert i) with currentState := st, nextState := some st } := by
    rw [← hs']
    rfl
  have hdata : s'.inserts = Function.update s.inserts i x := by
    rw [← hs']
    rfl
  have hworld : ({ g with E := Function.update g.E node (some sh) } : Ghost K V).world s'
      = (g.world s).setE node sh := by
    rw [← hs', Ghost.world_enter]
    rfl
  refine .again ⟨ph, { g with E := Function.update g.E node (some sh) },
    ⟨hrunning, ?_, ⟨r, ?_, ?_⟩, ?_⟩, ?_, ?_, id, ?_⟩
  · refine h.shared.moves h.running.placed ?_ ?_ ?_ ?_ ?_ h.shared.fresh hheld
      (fun d hd => ⟨?_, ?_, rfl, rfl⟩) (fun _ _ _ _ _ => Iff.rfl) id (fun hne => absurd ?_ hne)
    · rw [hworld]
      exact .one h.shared.ok hok hguar
    · rw [hworld]
      exact hok
    · rw [← hs']
      exact h.shared.blocks
    · rw [← hs']
      exact h.shared.allocator
    · rw [← hs']
      exact h.shared.unused
    · cases d with
      | search j =>
          rw [← hs']
          rfl
      | insert j =>
          rw [State.SameData, hdata]
          exact Function.update_of_ne (fun hj => hd (by rw [hj])) _ _
    · rw [hctx, Function.update_of_ne hd]
    · rw [← hs']
      rfl
  · rw [hdata, Function.update_self, hx, hr]
  · rw [hworld, hheld, hctx, Function.update_self, hdata, Function.update_self]
    exact hruns
  · rw [← hs']
    exact h.ledger.congr rfl rfl id
  · rw [rank, hheld, hctx, Function.update_self, hdata, Function.update_self, ← hs']
    exact hrank
  · rw [← hs']
    rfl
  · rintro ⟨j, hj, hnil⟩
    rw [hheld] at hnil
    exact ⟨j, hj, hnil⟩

section Inner

variable {w : World ContextId K V BlkAddress} {m : K → Option V} {key ki : K}
  {x : InsertContext K V} {tokens : List BarrierToken} {node child : BlkAddress}
  {slots xs ys : List (K × BlkAddress)}

/-- The tokens of a context at a node are of nodes above the child. -/
theorem Entered.above {l : Nat} (hw : w.Ok m) (h : Entered cap w c key x tokens node)
    (hl : w.LevelIs node (l + 1)) : TokensAbove w tokens l := by
  obtain ⟨sp, hsp, hlsp⟩ := hl
  rcases h.way with ⟨-, -, type, rfl, -⟩ | ⟨-, live, rfl, hlive⟩
  · intro t ht
    rw [List.mem_singleton.1 ht]
    exact ⟨l + 1, ⟨sp, hsp, hlsp⟩, by omega⟩
  · intro t ht
    rcases List.mem_cons.1 ht with rfl | ht
    · exact ⟨l + 1, ⟨sp, hsp, hlsp⟩, by omega⟩
    · obtain ⟨p, hp, rfl⟩ := List.mem_map.1 ht
      obtain ⟨sf, hsf, hlt⟩ := hlive.path.level_lt hw hsp p.copy (List.mem_map_of_mem hp)
      exact ⟨sf.level, ⟨sf, hsf, rfl⟩, by omega⟩

/-- The child is one level down, also by the counter of the context. -/
theorem Entered.child_level (hw : w.Ok m) (h : Entered cap w c key x tokens node)
    (hE : w.E node = some (.inner slots)) (hm : (ki, child) ∈ slots) :
    ∃ l : Nat, w.LevelIs child l ∧ x.currentNodeLevel - 1 = l
      ∧ (decide (x.currentNodeLevel = 2) = false → 2 ≤ l) ∧ TokensAbove w tokens l := by
  obtain ⟨l, ⟨sp, hsp, hl⟩, hlev⟩ := h.level
  obtain ⟨sc, hsc, hlc⟩ := hw.level_child hsp hE hm
  obtain ⟨κ, ht⟩ := hw.tree
  have hpos := ht.level_pos hsc
  refine ⟨sc.level, ⟨sc, hsc, rfl⟩, by omega, fun hne => ?_,
    h.above hw ⟨sp, hsp, hlc.symm⟩⟩
  have hne' := of_decide_eq_false hne
  omega

/-- If a parent is modified, the key is below all slots of the node. -/
theorem Live.unmodified {live : List (ParentNodeContext K)}
    (h : Live cap w c key x live node) (hE : w.E node = some (.inner slots))
    (hm : (ki, child) ∈ slots) (hki : ki ≤ key) : Unmodified live := by
  intro p hp
  cases hmod : p.node.modified with
  | false => rfl
  | true =>
      cases live with
      | nil => cases hp
      | cons p₀ live =>
          have hhead : p₀.node.modified = true := by
            rcases List.mem_cons.1 hp with rfl | hp
            · exact hmod
            · exact List.rel_of_pairwise_cons h.down hp hmod
          have hlt := h.low p₀ rfl hhead slots hE _ hm
          exact absurd hki (not_le.2 hlt)

/-- The parents of a child, when the key is not below all slots. -/
theorem Live.push {live : List (ParentNodeContext K)} (hw : w.Ok m) (hclean : w.Clean c node)
    (hwrites : w.Writes c node) (hE : w.E node = some (.inner (xs ++ (ki, child) :: ys)))
    (hki : ki ≤ key) (hsize : (xs ++ (ki, child) :: ys).length ≤ cap)
    (h : Live cap w c key x live node) {y : InsertContext K V}
    (hy : y.pendingParentNodes
      = ⟨⟨node, xs ++ (ki, child) :: ys, false⟩, xs.length⟩ :: x.pendingParentNodes) :
    Live cap w c key y (⟨⟨node, xs ++ (ki, child) :: ys, false⟩, xs.length⟩ :: live) child := by
  obtain ⟨stale, hpending, hstale⟩ := h.pending
  obtain ⟨sp, hsp⟩ := h.path.plan hw
  refine ⟨⟨stale, by rw [hy, hpending]; rfl, hstale⟩, ?_, ?_, fun p hp hm => ?_⟩
  · exact h.path.push ⟨sp, hsp⟩ hwrites hclean hE hki hsize
  · have hmem : (ki, child) ∈ xs ++ (ki, child) :: ys := by simp
    refine List.Pairwise.cons (fun p hp hm => ?_) h.down
    cases hm.symm.trans (h.unmodified hE hmem hki p hp)
  · obtain rfl := Option.some.inj hp
    cases hm

/-- The parents of a child, when the first key of the node is lowered. -/
theorem Live.push_lower {live : List (ParentNodeContext K)} {k₀ : K}
    {rest : List (K × BlkAddress)} (hw : w.Ok m) (hat : w.At c node key)
    (hwrites : w.Writes c node) (hE : w.E node = some (.inner ((k₀, child) :: rest)))
    (hlt : ∀ s ∈ (k₀, child) :: rest, key < s.1) (hsize : ((k₀, child) :: rest).length ≤ cap)
    (h : Live cap w c key x live node) {y : InsertContext K V}
    (hy : y.pendingParentNodes
      = ⟨⟨node, (key, child) :: rest, true⟩, 0⟩ :: x.pendingParentNodes) :
    (w.setE node (.inner ((key, child) :: rest))).Ok m
      ∧ World.Guar c w (w.setE node (.inner ((key, child) :: rest)))
      ∧ (w.setE node (.inner ((key, child) :: rest))).At c child key
      ∧ Live cap (w.setE node (.inner ((key, child) :: rest))) c key y
        (⟨⟨node, (key, child) :: rest, true⟩, 0⟩ :: live) child := by
  obtain ⟨stale, hpending, hstale⟩ := h.pending
  obtain ⟨hok, hguar, hchild, hpath⟩ := hw.push_lower hat hwrites h.path hE hlt hsize
  refine ⟨hok, hguar, hchild, ⟨stale, by rw [hy, hpending]; rfl, hstale⟩, hpath, ?_, ?_⟩
  · exact List.Pairwise.cons (fun _ _ _ => rfl) h.down
  · -- the keys of the child are not below the old first key
    intro p _ _ slots hslots t ht
    obtain ⟨sp, hsp, -⟩ := hat.plan
    obtain ⟨κ, htree⟩ := hw.tree
    have hne : child ≠ node := hw.child_ne hsp hE List.mem_cons_self
    change Function.update w.E node _ child = _ at hslots
    rw [Function.update_of_ne hne] at hslots
    have hlow := (htree.innerOk hsp hE).low (k₀, child) List.mem_cons_self _ hslots t.1
      (List.mem_map_of_mem ht)
    exact (hlt (k₀, child) List.mem_cons_self).trans_le hlow

end Inner

theorem insertInner_fine {r : InsertRequest K V} {node : BlkAddress}
    {slots : List (K × BlkAddress)} (h : Driven cap q m₀ s ph g (.insert i))
    (hst : (s.contexts (.insert i)).currentState = .s2) (hr : (s.inserts i).request = some r)
    (hnot : r ∉ g.order) (hfr : g.fr (.insert i) = [])
    (hent : Entered cap (g.world s) (.insert i) r.key (s.inserts i) (s.held (.insert i)) node)
    (hE : (g.world s).E node = some (.inner slots)) (hsize : slots.length ≤ cap) :
    (insertInner cap s i { s.inserts i with lastState1 := false, awaitsState2 := false }
      ⟨node, slots, false⟩).Fine cap q m₀ s ph g (.insert i) := by
  have hph := h.running.io_zero (by simp [hst])
  have hrank : rank s (.insert i) = 5 := by rw [rank, hst]; rfl
  obtain ⟨sp, hsp, -⟩ := hent.at_node.plan
  obtain ⟨hsorted, hne, -⟩ := h.shared.ok.sorted_inner hsp hE
  rw [insertInner]
  dsimp only
  split
  · next hnone => cases hr.symm.trans hnone
  next r' hr' =>
  obtain rfl : r = r' := Option.some.inj (hr.symm.trans hr')
  rcases InnerNode.locateChildIndex_cases (n := ⟨node, slots, false⟩) r.key hsorted with
    ⟨hidx, hlt⟩ | ⟨xs, ki, child, ys, hslots, hidx, hki, hys⟩
  · -- the key is below all slots
    obtain ⟨⟨k₀, child⟩, rest, rfl⟩ := List.exists_cons_of_ne_nil hne
    rw [hidx]
    by_cases hopt : (s.inserts i).optimistic = true
    · rw [if_pos (by simp [hopt])]
      refine h.setAgain hph hr rfl (by simp) ?_ (by rw [hrank]; simp [insertRank])
      rcases hent.way with ⟨-, hstale, type, htokens, -⟩ | ⟨hpess, -⟩
      · refine ⟨⟨hnot, hfr, rfl⟩, fun t ht => .inr ?_, hstale⟩
        rw [htokens, List.mem_singleton] at ht
        rw [ht]
        exact hent.clean
      · cases hopt.symm.trans hpess
    · rw [if_neg (by simp [hopt])]
      rcases hent.way with ⟨hopt', -⟩ | ⟨hpess, live, htokens, hlive⟩
      · exact absurd hopt' hopt
      generalize hx : ({ s.inserts i with
        lastState1 := false
        awaitsState2 := false
        pendingParentNodes :=
          ⟨⟨node, (r.key, child) :: rest, true⟩, 0⟩ :: (s.inserts i).pendingParentNodes
        nodeRef := some child
        freeSlotAvailableInParent :=
          (⟨node, (r.key, child) :: rest, true⟩ : InnerNode K).hasFreeSlot cap
        parentBoundaryUpdate := true
        nextVisitIsLeafNode := decide ((s.inserts i).currentNodeLevel = 2)
        currentNodeLevel := (s.inserts i).currentNodeLevel - 1 } : InsertContext K V) = x
      have hwrites : (g.world s).Writes (.insert i) node :=
        h.shared.mode_of_mem (htokens ▸ List.mem_cons_self)
      obtain ⟨l, hchild, hlev, hleaf, habove⟩ :=
        hent.child_level h.shared.ok hE List.mem_cons_self
      obtain ⟨hok, hguar, hat, hlive'⟩ := hlive.push_lower (y := x) h.shared.ok hent.at_node
        hwrites hE hlt hsize (by rw [← hx])
      have hfine : (Outcome.again ((s.setInsert i x).enter (.insert i) .s0)).Fine cap q m₀ s ph g
          (.insert i) := by
        refine h.decideAgain hph hr (by rw [← hx]) (by simp) hok hguar ?_
          (by rw [hrank]; simp [insertRank])
        rw [htokens, ← hx]
        refine ⟨⟨hnot, hfr, rfl⟩, .inr ⟨child, rfl, hent.refer, ⟨l, hchild.stable hguar, hlev, hleaf,
          ?_⟩, ?_⟩⟩
        · rw [← htokens]
          exact habove.stable hguar
        · rw [← hx] at hlive'
          refine .pessimistic ?_ ?_ hat hlive' rfl rfl
          · exact hent.refer
          · exact hpess
      rw [← hx] at hfine
      exact hfine
  · have hnn : decide ((xs.length : Int) < 0) = false := by simp
    have hget : slots[xs.length]? = some (ki, child) := by
      have hslots' : slots = xs ++ (ki, child) :: ys := hslots
      rw [hslots']
      simp
    rw [hidx]
    simp only [hnn, Bool.false_and, Bool.false_eq_true, if_false, Int.toNat_natCast, hget]
    have hmem : (ki, child) ∈ slots := List.mem_of_getElem? hget
    obtain ⟨l, hchild, hlev, hleaf, habove⟩ := hent.child_level h.shared.ok hE hmem
    obtain rfl : slots = xs ++ (ki, child) :: ys := hslots
    have hat := h.shared.ok.descend hent.at_node hent.clean.1 hE hki hys
    refine h.setAgain hph hr rfl (by simp) ⟨⟨hnot, hfr, rfl⟩, .inr ⟨child, rfl, hent.refer,
      ⟨l, hchild, hlev, hleaf, habove⟩, ?_⟩⟩ (by rw [hrank]; simp [insertRank])
    rcases hent.way with ⟨hopt, hstale, type, htokens, -⟩ | ⟨hpess, live, htokens, hlive⟩
    · rw [htokens]
      refine .optimistic hent.refer hopt hat hent.clean (fun p hp => ?_)
      rcases List.mem_cons.1 hp with rfl | hp
      · rfl
      · exact hstale p hp
    · have hwrites : (g.world s).Writes (.insert i) node :=
        h.shared.mode_of_mem (htokens ▸ List.mem_cons_self)
      rw [htokens]
      refine .pessimistic ?_ ?_ hat
        (hlive.push h.shared.ok hent.clean hwrites hE hki hsize rfl) rfl rfl
      · exact hent.refer
      · exact hpess

end PullBasedBPlusTree

end NvmTree
