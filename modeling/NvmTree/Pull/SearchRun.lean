/-
  NvmTree.Pull.SearchRun — a search goes down the tree.

  The three states of `search_context::run`: none of them fails.  A search holds one
  read barrier, or two while it moves from a node to its child, so it reads the nodes
  as they are in the tree.  At its end it has what the map has for its key, unless it
  was lost.
-/
import NvmTree.Pull.Driven

namespace NvmTree

open RangeTree

namespace PullBasedBPlusTree

variable {K V : Type*} [LinearOrder K] {cap q : Nat} {m₀ : K → Option V} {s : State K V}
  {ph : ContextId → Phase} {g : Ghost K V} {c : ContextId} {i : Nat}

/-- A node with a read token shows the tree. -/
theorem Shared.clean_of_read {run : Option ContextId} {t : BarrierToken}
    (h : Shared cap s ph g run) (ht : t ∈ s.held c) (hread : t.type = .read) :
    (g.world s).Clean c t.barrierId := by
  obtain ⟨sp, hsp⟩ := h.token c t ht
  have hmode : (g.world s).mode c t.barrierId = some t.type := h.mode_of_mem ht
  refine ⟨h.held_of_mem ht, h.ok.raw_of_held hsp (h.held_of_mem ht) (fun hw => ?_)⟩
  rw [hread] at hmode
  cases hmode.symm.trans hw

theorem Driven.searchRequest (h : Driven cap q m₀ s ph g (.search i)) :
    g.fr (.search i) = [] ∧ ∃ r, (s.searches i).request = some r
      ∧ SearchRuns cap (g.world s) (.search i) r.key (s.searches i) g.lost (s.held (.search i))
          (s.contexts (.search i)).currentState := h.runs

/-! ## §1. State 0. -/

/-- A search that gets the barrier of its node is at the right one. -/
theorem SearchAim.granted {w w' : World ContextId K V BlkAddress} {m m' : K → Option V}
    {j : ContextId} {key : K} {lost : Prop} {tokens : List BarrierToken} {node : BlkAddress}
    (hw : w.Ok m) (hw' : w'.Ok m') (hg : World.Guar j w w') (hcj : c ≠ j)
    (hroot : w'.root = w.root) (hheld : w'.Held c node) (h : SearchAim w c key lost tokens node) :
    SearchAt w' c key lost (⟨node, .read⟩ :: tokens) tokens node := by
  obtain ⟨l, hl, -⟩ := h.level
  refine ⟨rfl, (hl.stable hg).imp fun _ hsp => hsp.1, hheld, fun hnot => ?_⟩
  rcases h.way hnot with ⟨-, hnode⟩ | hat
  · rw [hnode, ← hroot] at hheld ⊢
    exact hw'.at_root hheld key
  · exact hat.stable hw hw' hg hcj

omit [LinearOrder K] in
theorem searchState0_eq (s : State K V) (i : Nat) {s₀ : State K V}
    (hs₀ : s.setNextState (.search i) .s1 = s₀) : searchState0 s i =
      if (s₀.barriers (s.searches i).nodeRef).grants .read = true then
        .again (((s₀.setBarrier (s.searches i).nodeRef ((s₀.barriers (s.searches i).nodeRef).add
          .read)).addToken (.search i) ⟨(s.searches i).nodeRef, .read⟩).transition (.search i))
      else .stop (s₀.setBarrier (s.searches i).nodeRef ((s₀.barriers (s.searches i).nodeRef).push
        (.search i) .read)) := by
  have heq : searchState0 s i = afterRequest (.search i) (s₀.requestBarrier (.search i)
      (s.searches i).nodeRef .read) := by
    rw [← hs₀]
    rfl
  rw [heq, State.requestBarrier]
  by_cases hg : (s₀.barriers (s.searches i).nodeRef).grants .read = true
  · rw [if_pos hg, if_pos hg]
    rfl
  · rw [if_neg hg, if_neg hg]
    rfl

theorem searchState0_fine (h : Driven cap q m₀ s ph g (.search i))
    (hst : (s.contexts (.search i)).currentState = .s0) :
    (searchState0 s i).Fine cap q m₀ s ph g (.search i) := by
  have hph : ph (.search i) = .io 0 := h.running.state
  obtain ⟨hfr, r, hr, hruns⟩ := h.searchRequest
  rw [hst] at hruns
  have haim : SearchAim (g.world s) (.search i) r.key g.lost (s.held (.search i))
    (s.searches i).nodeRef := hruns
  obtain ⟨l, hlevel, habove⟩ := haim.level
  have hknows : (g.world s).Knows (s.searches i).nodeRef := hlevel.imp fun _ hsp => hsp.1
  rw [searchState0_eq s i rfl]
  split
  · next hg =>
      have hgr := h.shared.granted h.running hph (by simp) (fun _ _ => rfl) hknows
        (fun t ht => habove.ne hlevel ht) rfl hg
      obtain ⟨j, hcj, hguar⟩ := hgr.guar
      refine .again ⟨ph, g, ⟨hgr.running, hgr.shared, ⟨hfr, r, ?_, ?_⟩, ?_⟩, ?_, hgr.root, id,
        hgr.waiting⟩
      · rw [hgr.searches]
        exact hr
      · rw [hgr.state, hgr.searches, hgr.held]
        exact ⟨s.held (.search i), haim.length,
          haim.granted h.shared.ok hgr.shared.ok hguar hcj hgr.root hgr.clean.1⟩
      · rw [hgr.log]
        exact h.ledger
      · rw [rank, rank, hgr.state, hst]
        simp [searchRank]
  · next hg =>
      have hbooks := Books.enqueue (x := (s.searches i).nodeRef) .read h.running hph
        ⟨hst, rfl, rfl, rfl⟩
      refine .stop ⟨_, g, ⟨hbooks, h.shared.queued rfl ⟨hfr, fun _ => ⟨r, hr, ?_⟩⟩, h.ledger⟩, .inl⟩
      rw [Function.update_self]
      show SearchAim (g.world (s.setNextState (.search i) .s1)) (.search i) r.key g.lost
        ((s.setNextState (.search i) .s1).held (.search i)) (s.searches i).nodeRef
      rw [g.world_setNextState, State.held_setNextState]
      exact haim

/-! ## §2. State 1. -/

/-- The search reads its node and waits. -/
theorem Shared.searchRead {r : SearchRequest K} {node : BlkAddress}
    (h : Shared cap s ph g (some (.search i))) (hr : (s.searches i).request = some r)
    (hfr : g.fr (.search i) = [])
    (hat : SearchAt (g.world s) (.search i) r.key g.lost (s.held (.search i)) []
      (s.searches i).nodeRef)
    (hnode : node = (s.searches i).nodeRef) :
    Shared cap ((s.setNextState (.search i) .s2).asynchRead false (.search i) node)
      (Function.update ph (.search i) (.io 1)) g none := by
  subst hnode
  have hm : (⟨(s.searches i).nodeRef, .read⟩ : BarrierToken) ∈ s.held (.search i) := by
    rw [hat.tokens]
    exact List.mem_cons_self
  obtain ⟨b, hb, hshows⟩ := h.shows hat.knows (h.clean_of_read hm rfl).2
  generalize hs' : (s.setNextState (.search i) .s2).asynchRead false (.search i)
    (s.searches i).nodeRef = s'
  have hdata : s'.searches = Function.update s.searches i
      { s.searches i with buffer := s.blocks (s.searches i).nodeRef } := by
    rw [← hs']
    rfl
  have hheld : s'.held = s.held := by
    rw [← hs']
    exact s.held_setNextState _ _
  have hctx : s'.contexts = Function.update s.contexts (.search i)
      { s.contexts (.search i) with nextState := some .s2 } := by
    rw [← hs']
    rfl
  have hworld : g.world s' = g.world s := by
    refine g.world_congr ?_ ?_ ?_ hheld <;> rw [← hs'] <;> rfl
  refine Shared.park (c := .search i) (h.self ?_ ?_ ?_ ?_ hheld (fun d hd => ⟨?_, ?_, ?_⟩))
    ⟨hfr, fun _ => ⟨r, ?_, ?_⟩⟩
  · rw [← hs']; rfl
  · rw [← hs']; rfl
  · rw [← hs']; rfl
  · rw [← hs']; rfl
  · cases d with
    | search j =>
        show s'.searches j = s.searches j
        rw [hdata, Function.update_of_ne (fun hj => hd (by rw [hj]))]
    | insert j =>
        rw [← hs']
        rfl
  · rw [hctx, Function.update_of_ne hd]
  · rw [Function.update_of_ne hd]
  · rw [hdata, Function.update_self]
    exact hr
  · rw [Function.update_self, hdata, Function.update_self, hctx, Function.update_self, hworld]
    exact ⟨hat, b, hb, hshows⟩

/-- State 1: the barrier of the parent is given back, and the node is read. -/
theorem searchState1_fine (h : Driven cap q m₀ s ph g (.search i))
    (hst : (s.contexts (.search i)).currentState = .s1) :
    (searchState1 false s i).Fine cap q m₀ s ph g (.search i) := by
  have hph : ph (.search i) = .io 0 := h.running.state
  have hread := h.running.read i rfl
  obtain ⟨hfr, r, hr, hruns⟩ := h.searchRequest
  rw [hst] at hruns
  obtain ⟨others, hlen, hat⟩ := hruns
  have hlength : (s.contexts (.search i)).obtainedBarriers.length = others.length + 1 := by
    show (s.held (.search i)).length = _
    rw [hat.tokens]
    rfl
  rw [searchState1.eq_def, if_neg (by omega)]
  dsimp only
  split
  · -- two tokens
    next htwo =>
      obtain ⟨t, rfl⟩ : ∃ t, others = [t] := List.length_eq_one_iff.1 (by omega)
      obtain ⟨ph', hrel⟩ := h.running.placed.releaseFront hph hread
      have hkept : (s.held (.search i)).dropLast = [⟨(s.searches i).nodeRef, .read⟩] := by
        rw [hat.tokens]
        rfl
      obtain ⟨hshared, -⟩ := h.shared.release h.running.placed (by simp [hph]) hrel
        (List.dropLast_sublist _) (fun t ht _ => h.shared.clean_of_read ht (hread t ht))
      obtain ⟨b, C, l, hs₁⟩ := hrel.frame
      generalize hs₁' : s.releaseFront (.search i) = s₁ at *
      have hheld₁ : s₁.held (.search i) = [⟨(s.searches i).nodeRef, .read⟩] :=
        (congrArg CallBackContext.obtainedBarriers hrel.self).trans hkept
      have hdata : s₁.searches = s.searches := by rw [hs₁]
      have hread₁ : ∀ t ∈ s₁.held (.search i), t.type = .read := by
        intro t ht
        rw [hheld₁, List.mem_singleton] at ht
        rw [ht]
      have hplan : (g.world s₁).E = (g.world s).E ∧ (g.world s₁).G = (g.world s).G := ⟨rfl, rfl⟩
      have hheld : (g.world s₁).Held (.search i) (s.searches i).nodeRef :=
        hshared.held_of_mem (t := ⟨(s.searches i).nodeRef, .read⟩) (by rw [hheld₁]; simp)
      have hat₁ : SearchAt (g.world s₁) (.search i) r.key g.lost (s₁.held (.search i)) []
          (s₁.searches i).nodeRef := by
        rw [hdata, hheld₁]
        exact ⟨rfl, hat.knows, hheld, fun hnot => ⟨(hat.way hnot).plan, (hat.way hnot).below,
          .inl hheld⟩⟩
      refine .stop ⟨_, g, ⟨Books.read false hrel.placed
        (h.running.requests.same (.of_barriers hrel.frame) hrel.free) (hrel.phase.trans hph) hread₁,
        hshared.searchRead (by rw [hdata]; exact hr) hfr hat₁ rfl, ?_⟩, .inl⟩
      have hlog : s₁.log = s.log := by rw [hs₁]
      show Ledger m₀ s₁.log g
      rw [hlog]
      exact h.ledger
  · next hone =>
      have hnil : others = [] := List.length_eq_zero_iff.1 (by omega)
      subst hnil
      exact .stop ⟨_, g, ⟨Books.read false h.running.placed h.running.requests hph hread,
        h.shared.searchRead hr hfr hat rfl, h.ledger⟩, .inl⟩

/-! ## §3. State 2. -/

/-- A search that is done answers with `found` and gives back its tokens. -/
theorem searchFinish_fine {r : SearchRequest K} {found : Option V}
    (h : Driven cap q m₀ s ph g (.search i)) (hr : (s.searches i).request = some r)
    (hfound : ¬ g.lost → found = g.m r.key) :
    (searchFinish s i r found).Fine cap q m₀ s ph g (.search i) := by
  have hph : ph (.search i) = .io 0 := h.running.state
  have hread := h.running.read i rfl
  obtain ⟨hfr, -⟩ := h.searchRequest
  obtain ⟨r', hr', -, hadm⟩ := h.running.requests.active (.search i) (by simp [hph])
  have hrr : s.request (.search i) = some (.search r) := by simp [State.request, hr]
  obtain rfl : Request.search r = r' := Option.some.inj (hrr.symm.trans hr')
  rw [searchFinish.eq_def]
  dsimp only
  generalize hx : ({ s.searches i with
    request := if r.ownership then none else some r } : SearchContext K V) = x
  generalize hs₀ : (s.setSearch i x).graduate r.id r.cbF r.semaphore (.finishSearch r.id found) = s₀
  obtain ⟨ph', hrel, hbooks⟩ := Books.finishSearch found h.running hr hs₀
  have hshared₀ : Shared cap s₀ ph g (some (.search i)) := by
    rw [← hs₀]
    exact (h.shared.setSearch x).self rfl rfl rfl rfl rfl (fun d _ => ⟨by cases d <;> rfl, rfl, rfl⟩)
  have hplaced₀ : Placed q s₀ ph (some (.search i)) := by
    rw [← hs₀]
    exact (h.running.placed.setSearch x).client _ _ _ _ _ _ _
  have hread₀ : ∀ t ∈ s₀.held (.search i), t.type = .read := by
    rw [← hs₀]
    exact hread
  obtain ⟨hshared, -⟩ := hshared₀.release hplaced₀ (by simp [hph]) hrel (List.nil_sublist _)
    (fun t ht _ => hshared₀.clean_of_read ht (hread₀ t ht))
  obtain ⟨b, C, l, hs₁⟩ := hrel.frame
  refine .stop ⟨_, g, ⟨hbooks, ?_, ?_⟩, .inl⟩
  · refine Shared.park (c := .search i)
      (hshared.self rfl rfl rfl rfl rfl (fun d hd => ⟨?_, rfl, Function.update_of_ne hd _ _⟩))
      ⟨hfr, fun hne => ?_⟩
    · cases d <;> rfl
    · exact absurd (Function.update_self ..) hne
  · have hledger := h.ledger.finishSearch (v := found) h.running.requests.admittedIds hadm hfound
    have hlog : (State.releaseFronts (.search i)
        (s₀.contexts (.search i)).obtainedBarriers.length s₀).log
          = s.log ++ doneEvents (.search r) (.finishSearch r.id found) := by
      rw [hs₁, ← hs₀]
      rfl
    rw [← hlog] at hledger
    exact hledger

theorem searchState2_fine (h : Driven cap q m₀ s ph g (.search i))
    (hst : (s.contexts (.search i)).currentState = .s2) :
    (searchState2 s i).Fine cap q m₀ s ph g (.search i) := by
  have hph : ph (.search i) = .io 0 := h.running.state
  obtain ⟨hfr, r, hr, hruns⟩ := h.searchRequest
  rw [hst] at hruns
  obtain ⟨hat, b, hbuffer, hshows⟩ := hruns
  obtain ⟨sp, hsp⟩ := hat.knows
  have hbuf : (s.searches i).buffer.map Block.deserialize = some b.deserialize := by
    rw [hbuffer]
    rfl
  rw [searchState2.eq_def]
  split
  · next hnone => cases hr.symm.trans hnone
  next r' hr' =>
  obtain rfl : r = r' := Option.some.inj (hr.symm.trans hr')
  rw [hbuf]
  cases b with
  | leaf rep sib es =>
      obtain ⟨hsorted, -⟩ := h.shared.ok.sorted_leaf hsp hshows.shape
      refine searchFinish_fine h hr (fun hnot => ?_)
      -- the leaf decides its keys
      have hlookup := h.shared.ok.lookup (hat.way hnot) hshows.shape
      refine Option.ext fun v => ?_
      rw [LeafNode.search_eq_some (n := ⟨rep, sib, es, false⟩) hsorted, hlookup v]
  | inner rep slots =>
      obtain ⟨hsorted, -⟩ := h.shared.ok.sorted_inner hsp hshows.shape
      have hE : (g.world s).E (s.searches i).nodeRef = some (.inner slots) := hshows.shape
      dsimp only [Block.deserialize]
      rcases InnerNode.locateChildIndex_cases (n := ⟨rep, slots, false⟩) r.key hsorted with
        ⟨hidx, hlt⟩ | ⟨xs, ki, child, ys, hslots, hidx, hki, hys⟩
      · rw [hidx, if_pos (by decide)]
        refine searchFinish_fine h hr (fun hnot => ?_)
        exact (h.shared.ok.lookup_below (hat.way hnot) hE hlt).symm
      · have hslots' : slots = xs ++ (ki, child) :: ys := hslots
        have hget : slots[xs.length]? = some (ki, child) := by
          rw [hslots']
          simp
        rw [hidx, if_neg (by omega), Int.toNat_natCast, hget]
        dsimp only
        have hmem : (ki, child) ∈ slots := List.mem_of_getElem? hget
        obtain ⟨sc, hsc, hlc⟩ := h.shared.ok.level_child hsp hE hmem
        have haim : SearchAim (g.world s) (.search i) r.key g.lost (s.held (.search i)) child := by
          refine ⟨⟨sc.level, ⟨sc, hsc, rfl⟩, fun t ht => ?_⟩, ?_, fun hnot => .inr ?_⟩
          · rw [hat.tokens, List.mem_singleton] at ht
            rw [ht]
            exact ⟨sp.level, ⟨sp, hsp, rfl⟩, by omega⟩
          · rw [hat.tokens]
            simp
          · rw [hslots'] at hE
            exact h.shared.ok.descend (hat.way hnot) hat.held hE hki hys
        generalize hs' : (s.setSearch i { s.searches i with nodeRef := child }).enter (.search i) .s0
          = s'
        have hheld : s'.held = s.held := by
          rw [← hs']
          exact State.held_enter _ _ _
        have hctx : (s'.contexts (.search i)).currentState = .s0 := by
          rw [← hs']
          simp [State.enter, State.setContext]
        have hdata : s'.searches i = { s.searches i with nodeRef := child } := by
          rw [← hs']
          exact Function.update_self ..
        have hworld : g.world s' = g.world s := by
          rw [← hs', Ghost.world_enter]
          rfl
        refine .again ⟨ph, g, ⟨hs' ▸ h.running.toChild child, ?_, ⟨hfr, r, ?_, ?_⟩, ?_⟩, ?_, ?_, id,
          fun hw => hw.imp fun j hj => ⟨hj.1, hheld ▸ hj.2⟩⟩
        · rw [← hs']
          exact (h.shared.setSearch _).enter .s0
        · rw [hdata]
          exact hr
        · rw [hworld, hheld, hctx, hdata]
          exact haim
        · rw [← hs']
          exact h.ledger
        · rw [rank, rank, hctx, hst]
          simp [searchRank]
        · rw [← hs']
          rfl

theorem searchCase_fine (h : Driven cap q m₀ s ph g (.search i)) :
    (searchCase false s i).Fine cap q m₀ s ph g (.search i) := by
  obtain ⟨-, r, -, hruns⟩ := h.searchRequest
  rw [searchCase]
  split
  · next hst => exact searchState0_fine h hst
  · next hst => exact searchState1_fine h hst
  · next hst => exact searchState2_fine h hst
  · next h0 h1 h2 =>
      -- a search has no other states
      cases hst : (s.contexts (.search i)).currentState with
      | s0 => exact absurd hst h0
      | s1 => exact absurd hst h1
      | s2 => exact absurd hst h2
      | s10001 => rw [hst] at hruns; exact hruns.elim
      | s9 => rw [hst] at hruns; exact hruns.elim
      | s10 => rw [hst] at hruns; exact hruns.elim
      | s11 => rw [hst] at hruns; exact hruns.elim
      | s12 => rw [hst] at hruns; exact hruns.elim
      | s13 => rw [hst] at hruns; exact hruns.elim

end PullBasedBPlusTree

end NvmTree
