/-
  NvmTree.Pull.Shared — the tree that all contexts share.

  `Shared` ties the state of the machine to a tree: the blocks, with what the
  contexts are still going to write, are a tree of the map `g.m`, and every context
  but the running one knows what its phase says (`Know`).  `Ghost` is what the code
  does not store: the tree to come, the new nodes that have no parent yet, and the
  inserts in the order in which they took effect.

  A step of the running context is a chain of moves of one agent, so what the others
  know stays so (`Know.step`); a context whose barrier is granted meanwhile finds its
  node as it is in the tree.

  Main results:
    * `Shared.release` — tokens of nodes that show the tree are given back.
    * `Shared.grant`   — a token is taken.
    * `Shared.moves`   — the running context changes the tree.
-/
import NvmTree.Pull.Know

namespace NvmTree

open RangeTree

namespace PullBasedBPlusTree

variable {K V : Type*}

/-! ## §1. Ghosts. -/

structure Ghost (K V : Type*) where
  /-- The tree when all that is decided is written, and its plan and map. -/
  E : Store K V BlkAddress
  G : Plan K BlkAddress
  m : K → Option V
  /-- The nodes each context has allocated and not linked. -/
  fr : ContextId → List BlkAddress
  /-- The inserts that have taken effect, in order. -/
  order : List (InsertRequest K V)
  /-- A root was replaced while a search waited for its first barrier. -/
  lost : Prop

def Ghost.world (g : Ghost K V) (s : State K V) : World ContextId K V BlkAddress :=
  s.world g.fr g.E g.G

section Know

variable [LinearOrder K] (cap : Nat) (s : State K V) (ph : ContextId → Phase) (g : Ghost K V)

/-- What a context knows that is not running. -/
def Know : ContextId → Prop
  | .search i => g.fr (.search i) = [] ∧ (ph (.search i) ≠ .free →
      ∃ r, (s.searches i).request = some r
        ∧ SearchKnow cap (g.world s) (.search i) r.key (s.searches i) g.lost
            (s.contexts (.search i)) (ph (.search i)))
  | .insert i =>
      (ph (.insert i) = .free → g.fr (.insert i) = [] ∧ (s.inserts i).awaitsState2 = false)
      ∧ (ph (.insert i) ≠ .free → ∃ r, (s.inserts i).request = some r
        ∧ InsertKnow cap (g.world s) (.insert i) r.key (s.inserts i) (r ∈ g.order)
            (s.contexts (.insert i)) (g.fr (.insert i)) (ph (.insert i)))

/-- What the running context knows, by its state. -/
def Runs : ContextId → Prop
  | .search i => g.fr (.search i) = [] ∧ ∃ r, (s.searches i).request = some r
      ∧ SearchRuns cap (g.world s) (.search i) r.key (s.searches i) g.lost
          (s.held (.search i)) (s.contexts (.search i)).currentState
  | .insert i => ∃ r, (s.inserts i).request = some r
      ∧ InsertRuns cap (g.world s) (.insert i) r.key (s.inserts i) (r ∈ g.order)
          (s.held (.insert i)) (g.fr (.insert i)) (s.contexts (.insert i)).currentState

/-- **The contexts share a tree.** -/
structure Shared (run : Option ContextId) : Prop where
  ok : (g.world s).Ok g.m
  blocks : ∀ a b, s.blocks a = some b → b.selfRep = a ∧ b.deserialize.size ≤ cap
  allocator : s.allocator.Ok
  unused : ∀ x, s.allocator.Free x → g.G x = none ∧ ∀ c, x ∉ g.fr c
  fresh : ∀ c x, x ∈ g.fr c → g.G x = none ∧ ∀ d, x ∈ g.fr d → d = c
  token : ∀ c, ∀ t ∈ s.held c, (g.world s).Knows t.barrierId
  nodup : ∀ c, ((s.held c).map BarrierToken.barrierId).Nodup
  know : ∀ c, run ≠ some c → Know cap s ph g c

end Know

variable {q cap : Nat} {s s' : State K V} {ph ph' : ContextId → Phase} {g g' : Ghost K V}
  {run : Option ContextId} {c d : ContextId} {x : BlkAddress} {type : BarrierType}

/-! ## §2. Modes and tokens. -/

/-- Only the contexts of the system have tokens. -/
theorem Placed.index_lt (h : Placed q s ph run) (hrun : ∀ c, run = some c → ph c ≠ .free)
    {t : BarrierToken} (ht : t ∈ s.held c) : c.index < q := by
  by_contra hge
  have hfree : ph c = .free := by
    by_contra hne
    exact hge (h.lists.bound c hne)
  have hctl := (h.ctl c (fun hr => hrun c hr hfree)).state
  rw [hfree] at hctl
  have hnil : s.held c = [] := by
    cases c <;> exact hctl
  rw [hnil] at ht
  cases ht

theorem State.mode_write {fr : ContextId → List BlkAddress} (h : s.mode fr c x = some type) :
    (x ∈ fr c ∧ type = .write) ∨ ⟨x, type⟩ ∈ s.held c := by
  unfold State.mode at h
  split at h
  · next hx =>
      cases h
      exact .inl ⟨hx, rfl⟩
  · exact .inr (mem_of_tokenMode h)

/-- **Who holds a node in write mode holds it alone.** -/
theorem Placed.excl (h : Placed q s ph run) (hrun : ∀ c, run = some c → ph c ≠ .free)
    {fr : ContextId → List BlkAddress}
    (hfresh : ∀ c x, x ∈ fr c → (∀ d, x ∈ fr d → d = c) ∧ ∀ d, ∀ t ∈ s.held d, t.barrierId ≠ x)
    (hc : s.mode fr c x = some .write) (hd : s.mode fr d x ≠ none) : c = d := by
  obtain ⟨ν, hν⟩ := Option.ne_none_iff_exists'.1 hd
  rcases State.mode_write hc with ⟨hx, -⟩ | hx
  · rcases State.mode_write hν with ⟨hy, -⟩ | hy
    · exact ((hfresh c x hx).1 d hy).symm
    · exact absurd rfl ((hfresh c x hx).2 d _ hy)
  · rcases State.mode_write hν with ⟨hy, -⟩ | hy
    · exact absurd rfl ((hfresh d x hy).2 c _ hx)
    · exact (h.tokens.unique (h.index_lt hrun hx) (h.index_lt hrun hy) hx hy).1

section

variable [LinearOrder K]

/-- New nodes have no tokens. -/
theorem Shared.fresh_token (h : Shared cap s ph g run) (hx : x ∈ g.fr c) {t : BarrierToken}
    (ht : t ∈ s.held d) : t.barrierId ≠ x := by
  rintro rfl
  obtain ⟨sp, hsp⟩ := h.token d t ht
  have hnone := (h.fresh c _ hx).1
  change g.G _ = some sp at hsp
  rw [hnone] at hsp
  cases hsp

theorem Shared.mode_of_mem (h : Shared cap s ph g run) (ht : ⟨x, type⟩ ∈ s.held c) :
    s.mode g.fr c x = some type := by
  have hx : x ∉ g.fr c := fun hx => h.fresh_token hx ht rfl
  rw [State.mode, if_neg hx]
  exact tokenMode_of_mem (h.nodup c) ht

/-- A token is held, in its mode. -/
theorem Shared.held_of_mem (h : Shared cap s ph g run) {t : BarrierToken} (ht : t ∈ s.held c) :
    (g.world s).Held c t.barrierId := by
  have hmode : s.mode g.fr c t.barrierId = some t.type := h.mode_of_mem ht
  intro hnone
  change s.mode g.fr c t.barrierId = none at hnone
  rw [hmode] at hnone
  cases hnone

/-! ## §3. What the others know. -/

theorem SearchAim.mono {w : World ContextId K V BlkAddress} {key : K}
    {lost lost' : Prop} {tokens : List BarrierToken} {node : BlkAddress} (hl : lost → lost')
    (h : SearchAim w c key lost tokens node) : SearchAim w c key lost' tokens node :=
  ⟨h.level, h.length, fun hnot => h.way fun hlost => hnot (hl hlost)⟩

theorem SearchAt.mono {w : World ContextId K V BlkAddress} {key : K} {lost lost' : Prop}
    {tokens others : List BarrierToken} {node : BlkAddress} (hl : lost → lost')
    (h : SearchAt w c key lost tokens others node) : SearchAt w c key lost' tokens others node :=
  ⟨h.tokens, h.knows, h.held, fun hnot => h.way fun hlost => hnot (hl hlost)⟩

theorem SearchKnow.mono {w : World ContextId K V BlkAddress} {key : K} {y : SearchContext K V}
    {lost lost' : Prop} {b : CallBackContext} {p : Phase} (hl : lost → lost')
    (h : SearchKnow cap w c key y lost b p) : SearchKnow cap w c key y lost' b p := by
  cases p with
  | free => trivial
  | new => exact SearchAim.mono hl h
  | queued node type => exact SearchAim.mono hl h
  | granted =>
      obtain ⟨others, hlen, hat⟩ := h
      exact ⟨others, hlen, hat.mono hl⟩
  | io n => exact ⟨h.1.mono hl, h.2⟩

/-- What a search knows after any number of moves of another context: if the root it
waits for is replaced, it is lost. -/
theorem SearchKnow.guars {w w' : World ContextId K V BlkAddress} {key : K}
    {y : SearchContext K V} {lost : Prop} {b : CallBackContext} {p : Phase}
    (hs : World.Guars c w w') (hdc : d ≠ c) (hroot : w.Knows w.root)
    (h : SearchKnow cap w d key y lost b p) :
    SearchKnow cap w' d key y
      (lost ∨ (w'.root ≠ w.root ∧ p.waits = true ∧ b.obtainedBarriers = [])) b p := by
  have hinv : w'.Knows w.root ∧ SearchKnow cap w' d key y
      (lost ∨ (w'.root ≠ w.root ∧ p.waits = true ∧ b.obtainedBarriers = [])) b p := by
    refine hs.induct (P := fun v => v.Knows w.root ∧ SearchKnow cap v d key y
      (lost ∨ (v.root ≠ w.root ∧ p.waits = true ∧ b.obtainedBarriers = [])) b p) ?_ ?_
    · rintro v v' m m' hv hv' hg ⟨hknows, hk⟩
      -- a new root is a node that was not in the tree
      have hnew : v'.root ≠ v.root → v'.root ≠ w.root := by
        intro hne he
        rcases hg.fresh with ⟨hsame, -⟩ | hnone
        · exact hne hsame
        · obtain ⟨sp, hsp⟩ := hknows
          rw [← he, hnone] at hsp
          cases hsp
      refine ⟨hknows.stable hg, hk.stable hv hv' hg hdc ?_ ?_⟩
      · rintro (hl | ⟨hne, hrest⟩)
        · exact .inl hl
        · by_cases hsame : v'.root = v.root
          · exact .inr ⟨hsame ▸ hne, hrest⟩
          · exact .inr ⟨hnew hsame, hrest⟩
      · exact fun hne hwaits hnil => .inr ⟨hnew hne, hwaits, hnil⟩
    · exact ⟨hroot, h.mono .inl⟩
  exact hinv.2

theorem InsertKnow.guars {w w' : World ContextId K V BlkAddress} {key : K}
    {y : InsertContext K V} {done : Prop} {b : CallBackContext} {fr : List BlkAddress} {p : Phase}
    (hs : World.Guars c w w') (hdc : d ≠ c) (h : InsertKnow cap w d key y done b fr p) :
    InsertKnow cap w' d key y done b fr p :=
  hs.induct (P := fun v => InsertKnow cap v d key y done b fr p)
    (fun hv hv' hg hk => hk.stable hv hv' hg hdc) h

/-- A search that is fired has the barrier it waited for. -/
theorem SearchKnow.fire {w : World ContextId K V BlkAddress} {m : K → Option V} {key : K}
    {y : SearchContext K V} {lost : Prop} {b : CallBackContext} (hw : w.Ok m)
    (hnode : y.nodeRef = x) (hheld : w.Held c x)
    (h : SearchKnow cap w c key y lost b (.queued x .read)) :
    SearchKnow cap w c key y lost (b.fired ⟨x, .read⟩) .granted := by
  have haim : SearchAim w c key lost b.obtainedBarriers y.nodeRef := h
  subst hnode
  obtain ⟨l, ⟨sp, hsp, -⟩, -⟩ := haim.level
  refine ⟨b.obtainedBarriers, haim.length, rfl, ⟨sp, hsp⟩, hheld, fun hnot => ?_⟩
  rcases haim.way hnot with ⟨-, hroot⟩ | hat
  · rw [hroot] at hheld ⊢
    exact hw.at_root hheld key
  · exact hat

theorem InsertKnow.fire {w : World ContextId K V BlkAddress} {key : K} {y : InsertContext K V}
    {done : Prop} {b : CallBackContext} {fr : List BlkAddress} (hnode : y.nodeRef = some x)
    (hclean : w.Clean c x) (h : InsertKnow cap w c key y done b fr (.queued x type)) :
    InsertKnow cap w c key y done (b.fired ⟨x, type⟩) fr .granted := by
  obtain ⟨hbefore, rfl, haim⟩ := h
  exact ⟨hbefore, x, hnode, hclean, b.obtainedBarriers, rfl, haim⟩

/-- The data of a context is the same. -/
def State.SameData (s s' : State K V) : ContextId → Prop
  | .search i => s'.searches i = s.searches i
  | .insert i => s'.inserts i = s.inserts i

/-- **What a context knows is kept by the moves of another one**, and a context that
is fired meanwhile knows what it then should. -/
theorem Know.step (hdc : d ≠ c) (hw : (g.world s).Ok g.m) (hw' : (g'.world s').Ok g'.m)
    (hs : World.Guars c (g.world s) (g'.world s')) (hdata : s.SameData s' d)
    (hfired : MaybeFired (s.contexts d) (s'.contexts d) (ph d) (ph' d)) (hfr : g'.fr d = g.fr d)
    (horder : ∀ r, s.request d = some (.insert r) → ph d ≠ .free → (r ∈ g'.order ↔ r ∈ g.order))
    (hlost : g.lost → g'.lost)
    (hroot : s'.root ≠ s.root → ∀ j, d = .search j → (ph d).waits = true → s.held d = [] → g'.lost)
    (hctl : Ctl s ph d)
    (hclean : ∀ y t, ph d = .queued y t → ph' d = .granted → (g'.world s').Clean d y)
    (h : Know cap s ph g d) : Know cap s' ph' g' d := by
  have hfree := hfired.free
  cases d with
  | search i =>
      refine ⟨hfr.trans h.1, fun hne => ?_⟩
      obtain ⟨r, hr, hk⟩ := h.2 (fun hf => hne (hfree.2 hf))
      have hdata' : s'.searches i = s.searches i := hdata
      have hl : g.lost ∨ ((g'.world s').root ≠ (g.world s).root ∧ (ph (.search i)).waits = true
          ∧ (s.contexts (.search i)).obtainedBarriers = []) → g'.lost := by
        rintro (hl | ⟨hne', hwaits, hnil⟩)
        · exact hlost hl
        · exact hroot hne' i rfl hwaits hnil
      have hk' := (hk.guars hs hdc ⟨_, hw.plan_root⟩).mono hl
      rw [hdata']
      refine ⟨r, hr, ?_⟩
      rcases hfired with ⟨hp, hb⟩ | ⟨y, t, hp, hp', hb⟩
      · rw [hp, hb]
        exact hk'
      · have hst := hctl.state
        rw [hp] at hst hk'
        obtain ⟨-, -, hnode, rfl⟩ := hst
        rw [hp', hb]
        exact hk'.fire hw' hnode (hclean y _ hp hp').1
  | insert i =>
      have hdata' : s'.inserts i = s.inserts i := hdata
      rw [Know, hfr, hdata']
      refine ⟨fun hf => h.1 (hfree.1 hf), fun hne => ?_⟩
      have hold : ph (.insert i) ≠ .free := fun hf => hne (hfree.2 hf)
      obtain ⟨r, hr, hk⟩ := h.2 hold
      refine ⟨r, hr, ?_⟩
      rw [propext (horder r (by simp [State.request, hr]) hold)]
      have hk' := hk.guars hs hdc
      rcases hfired with ⟨hp, hb⟩ | ⟨y, t, hp, hp', hb⟩
      · rw [hp, hb]
        exact hk'
      · have hst := hctl.state
        rw [hp] at hst hk'
        rw [hp', hb]
        exact hk'.fire hst.2.2 (hclean y _ hp hp')

/-! ## §4. The data of the running context. -/

omit [LinearOrder K] in
theorem Ghost.world_congr (g : Ghost K V) (hb : s'.blocks = s.blocks) (hr : s'.root = s.root)
    (hd : s'.depth = s.depth) (hh : s'.held = s.held) : g.world s' = g.world s := by
  have hraw : s'.raw = s.raw := by
    funext a
    rw [State.raw, State.raw, hb]
  have hmode : s'.mode g.fr = s.mode g.fr := by
    funext c x
    rw [State.mode, State.mode, hh]
  unfold Ghost.world State.world
  rw [hraw, hr, hd, hmode]

omit [LinearOrder K] in
@[simp] theorem Ghost.world_enter (g : Ghost K V) (s : State K V) (c : ContextId) (st : CtxState) :
    g.world (s.enter c st) = g.world s := g.world_congr rfl rfl rfl (s.held_enter c st)

omit [LinearOrder K] in
@[simp] theorem Ghost.world_setNextState (g : Ghost K V) (s : State K V) (c : ContextId)
    (st : CtxState) : g.world (s.setNextState c st) = g.world s :=
  g.world_congr rfl rfl rfl (s.held_setNextState c st)

omit [LinearOrder K] in
@[simp] theorem Ghost.world_transition (g : Ghost K V) (s : State K V) (c : ContextId) :
    g.world (s.transition c) = g.world s := g.world_congr rfl rfl rfl (s.held_transition c)

theorem Know.congr (hw : g.world s' = g.world s) (hdata : s.SameData s' d)
    (hb : s'.contexts d = s.contexts d) (hp : ph' d = ph d) (h : Know cap s ph g d) :
    Know cap s' ph' g d := by
  cases d with
  | search i =>
      have hdata' : s'.searches i = s.searches i := hdata
      rw [Know, hw, hdata', hb, hp]
      exact h
  | insert i =>
      have hdata' : s'.inserts i = s.inserts i := hdata
      rw [Know, hw, hdata', hb, hp]
      exact h

/-- Nothing changes that the contexts share. -/
theorem Shared.congr (h : Shared cap s ph g run) (hb : s'.blocks = s.blocks)
    (ha : s'.allocator = s.allocator) (hr : s'.root = s.root) (hd : s'.depth = s.depth)
    (hh : s'.held = s.held)
    (hother : ∀ d, run ≠ some d → s.SameData s' d ∧ s'.contexts d = s.contexts d ∧ ph' d = ph d) :
    Shared cap s' ph' g run := by
  have hw := g.world_congr hb hr hd hh
  refine ⟨hw ▸ h.ok, hb ▸ h.blocks, ha ▸ h.allocator, ha ▸ h.unused, h.fresh, ?_, hh ▸ h.nodup,
    fun d hd => ?_⟩
  · rw [hw, hh]
    exact h.token
  · obtain ⟨h1, h2, h3⟩ := hother d hd
    exact (h.know d hd).congr hw h1 h2 h3

/-- The running context changes its own data. -/
theorem Shared.self (h : Shared cap s ph g (some c)) (hb : s'.blocks = s.blocks)
    (ha : s'.allocator = s.allocator) (hr : s'.root = s.root) (hd : s'.depth = s.depth)
    (hh : s'.held = s.held)
    (hother : ∀ d, d ≠ c → s.SameData s' d ∧ s'.contexts d = s.contexts d ∧ ph' d = ph d) :
    Shared cap s' ph' g (some c) :=
  h.congr hb ha hr hd hh (fun d hd => hother d (fun he => hd (by rw [he])))

theorem Shared.setInsert {i : Nat} (h : Shared cap s ph g (some (.insert i)))
    (y : InsertContext K V) : Shared cap (s.setInsert i y) ph g (some (.insert i)) := by
  refine h.self rfl rfl rfl rfl rfl (fun d hd => ⟨?_, rfl, rfl⟩)
  cases d with
  | search j => rfl
  | insert j => exact Function.update_of_ne (fun hj => hd (by rw [hj])) _ _

theorem Shared.setSearch {i : Nat} (h : Shared cap s ph g (some (.search i)))
    (y : SearchContext K V) : Shared cap (s.setSearch i y) ph g (some (.search i)) := by
  refine h.self rfl rfl rfl rfl rfl (fun d hd => ⟨?_, rfl, rfl⟩)
  cases d with
  | search j => exact Function.update_of_ne (fun hj => hd (by rw [hj])) _ _
  | insert j => rfl

theorem Shared.setContext (h : Shared cap s ph g (some c)) {b : CallBackContext}
    (hb : b.obtainedBarriers = s.held c) : Shared cap (s.setContext c b) ph g (some c) := by
  refine h.self rfl rfl rfl rfl (s.held_setContext hb) (fun d hd => ⟨?_, ?_, rfl⟩)
  · cases d <;> rfl
  · exact Function.update_of_ne hd _ _

theorem Shared.enter (h : Shared cap s ph g (some c)) (st : CtxState) :
    Shared cap (s.enter c st) ph g (some c) := h.setContext rfl

theorem Shared.setNextState (h : Shared cap s ph g (some c)) (st : CtxState) :
    Shared cap (s.setNextState c st) ph g (some c) := h.setContext rfl

theorem Shared.transition (h : Shared cap s ph g (some c)) :
    Shared cap (s.transition c) ph g (some c) := h.setContext rfl

theorem Shared.phase (h : Shared cap s ph g (some c)) (p : Phase) :
    Shared cap s (Function.update ph c p) g (some c) :=
  h.self rfl rfl rfl rfl rfl (fun d hd => ⟨by cases d <;> rfl, rfl, Function.update_of_ne hd _ _⟩)

theorem Shared.park (h : Shared cap s ph g (some c)) (hk : Know cap s ph g c) :
    Shared cap s ph g none := by
  refine ⟨h.ok, h.blocks, h.allocator, h.unused, h.fresh, h.token, h.nodup, fun d _ => ?_⟩
  by_cases hd : d = c
  · rw [hd]
    exact hk
  · exact h.know d (fun hc => hd (Option.some.inj hc).symm)

theorem Shared.unpark (h : Shared cap s ph g none) (c : ContextId) :
    Shared cap s ph g (some c) :=
  ⟨h.ok, h.blocks, h.allocator, h.unused, h.fresh, h.token, h.nodup, fun d _ => h.know d nofun⟩

/-! ## §5. Barriers. -/

omit [LinearOrder K] in
theorem TokensAbove.ne {w : World ContextId K V BlkAddress} {tokens : List BarrierToken} {l : Nat}
    (h : TokensAbove w tokens l) (hx : w.LevelIs x l) {t : BarrierToken} (ht : t ∈ tokens) :
    t.barrierId ≠ x := by
  rintro rfl
  obtain ⟨l', hl', hlt⟩ := h t ht
  have := hx.unique hl'
  omega

/-- A context waits for a node that is below all nodes it has tokens of. -/
theorem Know.queued_level (hctl : Ctl s ph d) (h : Know cap s ph g d)
    (hp : ph d = .queued x type) :
    ∃ l, (g.world s).LevelIs x l ∧ TokensAbove (g.world s) (s.held d) l := by
  have hst := hctl.state
  cases d with
  | search i =>
      obtain ⟨r, -, hk⟩ := h.2 (by rw [hp]; nofun)
      rw [hp] at hk hst
      have haim : SearchAim (g.world s) (.search i) r.key g.lost
        (s.contexts (.search i)).obtainedBarriers (s.searches i).nodeRef := hk
      rw [hst.2.2.1] at haim
      exact haim.level
  | insert i =>
      obtain ⟨r, -, hk⟩ := h.2 (by rw [hp]; nofun)
      rw [hp] at hk
      obtain ⟨l, h1, -, -, h2⟩ := hk.2.2.level
      exact ⟨l, h1, h2⟩

/-- So it is a node of the tree that the context has no token of. -/
theorem Know.queued (hctl : Ctl s ph d) (h : Know cap s ph g d) (hp : ph d = .queued x type) :
    (g.world s).Knows x ∧ ∀ t ∈ s.held d, t.barrierId ≠ x := by
  obtain ⟨l, ⟨sp, hsp, hl⟩, habove⟩ := h.queued_level hctl hp
  exact ⟨⟨sp, hsp⟩, fun t ht => habove.ne ⟨sp, hsp, hl⟩ ht⟩

/-- One token more for a node that there was none of. -/
theorem tokenMode_cons {tokens : List BarrierToken} {y : BlkAddress} {ν : Mode}
    (hx : ∀ t ∈ tokens, t.barrierId ≠ x) (h : tokenMode tokens y = some ν) :
    tokenMode (⟨x, type⟩ :: tokens) y = some ν := by
  have hne : x ≠ y := by
    rintro rfl
    exact hx _ (mem_of_tokenMode h) rfl
  unfold tokenMode at h ⊢
  rw [List.find?_cons_of_neg (by simpa using hne)]
  exact h

omit [LinearOrder K] in
/-- What the other contexts hold after a release. -/
theorem Released.held {kept : List BarrierToken} (hrel : Released q s s' ph c kept ph')
    (hd : d ≠ c) : s'.held d = s.held d ∨ ∃ y t, ph d = .queued y t ∧ ph' d = .granted
      ∧ s'.held d = ⟨y, t⟩ :: s.held d := by
  rcases hrel.others d hd with ⟨-, hb⟩ | ⟨y, t, hp, hp', hb⟩
  · left
    rw [State.held, hb]
    rfl
  · right
    refine ⟨y, t, hp, hp', ?_⟩
    rw [State.held, hb]
    rfl

/-- **Tokens of nodes that show the tree are given back**, and other contexts may get
barriers they waited for. -/
theorem Shared.release {kept : List BarrierToken} (h : Shared cap s ph g (some c))
    (hp : Placed q s ph (some c)) (hact : ph c ≠ .free) (hrel : Released q s s' ph c kept ph')
    (hsub : kept.Sublist (s.held c))
    (hclean : ∀ t ∈ s.held c, t ∉ kept → (g.world s).Clean c t.barrierId) :
    Shared cap s' ph' g (some c) ∧ World.Guar c (g.world s) (g.world s') := by
  have hself : s'.held c = kept := congrArg CallBackContext.obtainedBarriers hrel.self
  have hqueued := fun d (hd : d ≠ c) {y t} (hy : ph d = .queued y t) =>
    (h.know d (fun hc => hd (Option.some.inj hc).symm)).queued
      (hp.ctl d (fun hc => hd (Option.some.inj hc).symm)) hy
  have htoken : ∀ d, ∀ t ∈ s'.held d, (g.world s).Knows t.barrierId := by
    intro d t ht
    by_cases hd : d = c
    · subst hd
      rw [hself] at ht
      exact h.token d t (hsub.mem ht)
    · rcases hrel.held hd with he | ⟨y, u, hy, -, he⟩
      · rw [he] at ht
        exact h.token d t ht
      · rw [he] at ht
        rcases List.mem_cons.1 ht with rfl | ht
        · exact (hqueued d hd hy).1
        · exact h.token d t ht
  have hnodup : ∀ d, ((s'.held d).map BarrierToken.barrierId).Nodup := by
    intro d
    by_cases hd : d = c
    · subst hd
      rw [hself]
      exact (h.nodup d).sublist (hsub.map _)
    · rcases hrel.held hd with he | ⟨y, u, hy, -, he⟩
      · rw [he]
        exact h.nodup d
      · rw [he, List.map_cons, List.nodup_cons]
        refine ⟨fun hm => ?_, h.nodup d⟩
        obtain ⟨t, ht, hty⟩ := List.mem_map.1 hm
        exact (hqueued d hd hy).2 t ht hty
  -- the others keep what they have
  have hkeep : ∀ d y ν, d ≠ c → s.mode g.fr d y = some ν → s'.mode g.fr d y = some ν := by
    intro d y ν hd hm
    unfold State.mode at hm ⊢
    split at hm
    · next hy =>
        rw [if_pos hy]
        exact hm
    · next hy =>
        rw [if_neg hy]
        rcases hrel.held hd with he | ⟨z, u, hz, -, he⟩
        · rw [he]
          exact hm
        · rw [he]
          exact tokenMode_cons (hqueued d hd hz).2 hm
  have hfresh : ∀ d y, y ∈ g.fr d → (∀ e, y ∈ g.fr e → e = d)
      ∧ ∀ e, ∀ t ∈ s'.held e, t.barrierId ≠ y := by
    intro d y hy
    refine ⟨(h.fresh d y hy).2, fun e t ht hty => ?_⟩
    obtain ⟨sp, hsp⟩ := htoken e t ht
    have hnone := (h.fresh d y hy).1
    rw [hty] at hsp
    cases hsp.symm.trans hnone
  have hact' : ∀ d, some c = some d → ph' d ≠ .free := by
    rintro d ⟨⟩ hf
    exact hact ((hrel.free c).1 hf)
  have hdropped : ∀ y sp, g.G y = some sp → s.mode g.fr c y = some .write →
      s'.mode g.fr c y ≠ some .write → s.raw y = g.E y := by
    intro y sp hy hw hnot
    rcases State.mode_write hw with ⟨hfr, -⟩ | hm
    · rw [(h.fresh c y hfr).1] at hy
      cases hy
    · refine (hclean _ hm (fun hk => hnot ?_)).2
      have hyfr : y ∉ g.fr c := fun hfr => h.fresh_token hfr hm rfl
      have hm' : ⟨y, .write⟩ ∈ s'.held c := by
        rw [hself]
        exact hk
      rw [State.mode, if_neg hyfr]
      exact tokenMode_of_mem (hnodup c) hm'
  obtain ⟨b, C, lst, hs'⟩ := hrel.frame
  have hworld : g.world s' = (g.world s).withMode (s'.mode g.fr) := by
    rw [hs']
    rfl
  have hok : (g.world s').Ok g.m := by
    rw [hworld]
    exact h.ok.remode hkeep (fun hj hj' => hrel.placed.excl hact' hfresh hj hj') hdropped
  have hguar : World.Guar c (g.world s) (g.world s') := by
    rw [hworld]
    exact World.guar_withMode hkeep
  refine ⟨⟨hok, ?_, ?_, ?_, h.fresh, ?_, hnodup, fun d hd => ?_⟩, hguar⟩
  · rw [hs']
    exact h.blocks
  · rw [hs']
    exact h.allocator
  · rw [hs']
    exact h.unused
  · intro d t ht
    rw [hworld]
    exact htoken d t ht
  · have hdc : d ≠ c := fun he => hd (by rw [he])
    have hroot : s'.root = s.root := by rw [hs']
    have hdata : s.SameData s' d := by
      rw [hs']
      cases d <;> rfl
    refine (h.know d hd).step hdc h.ok hok (.one h.ok hok hguar) hdata (hrel.others d hdc) rfl
      (fun _ _ _ => Iff.rfl) id (fun hne => absurd hroot hne) (hp.ctl d hd) (fun y t hy hg => ?_)
    -- the node that was waited for shows the tree
    obtain ⟨⟨sp, hsp⟩, hnot⟩ := hqueued d hdc hy
    have hheld : (g.world s').Held d y := by
      rcases hrel.others d hdc with ⟨hp', -⟩ | ⟨z, u, hz, -, hb⟩
      · rw [hp', hy] at hg
        cases hg
      · rw [hy] at hz
        cases hz
        have hm : ⟨y, t⟩ ∈ s'.held d := by
          rw [State.held, hb]
          exact List.mem_cons_self
        intro hnone
        have hyfr : y ∉ g.fr d := fun hfr => (hfresh d y hfr).2 d _ hm rfl
        have hmode : s'.mode g.fr d y = some t := by
          rw [State.mode, if_neg hyfr]
          exact tokenMode_of_mem (hnodup d) hm
        cases hmode.symm.trans hnone
    refine ⟨hheld, ?_⟩
    have hraw : (g.world s).raw y = (g.world s).E y := by
      by_cases hex : ∃ e, (g.world s).Writes e y
      · obtain ⟨e, he⟩ := hex
        by_cases hec : e = c
        · subst hec
          refine hdropped y sp hsp he (fun hw => hdc ?_)
          exact (hok.excl hw hheld).symm
        · have hde := hok.excl (hkeep e y _ hec he) hheld
          subst hde
          rcases State.mode_write he with ⟨hfr, -⟩ | hm
          · have hnone := (h.fresh e y hfr).1
            cases hsp.symm.trans hnone
          · exact absurd rfl (hnot _ hm)
      · exact h.ok.clean hsp (fun e he => hex ⟨e, he⟩)
    rw [hworld]
    exact hraw

instance : Nontrivial ContextId := ⟨.search 0, .search 1, by simp⟩

/-- **A token is taken** by the running context, of a node it had none of.  For what it
knows, this is like a step of another context. -/
theorem Shared.grant (h : Shared cap s ph g (some c)) (hp : Placed q s ph (some c))
    (hact : ph c ≠ .free) (hx : (g.world s).Knows x) (hnot : ∀ t ∈ s.held c, t.barrierId ≠ x)
    (hg : (s.barriers x).grants type = true)
    (hs' : (s.setBarrier x ((s.barriers x).add type)).addToken c ⟨x, type⟩ = s') :
    Shared cap s' ph g (some c) ∧ (g.world s').Clean c x
      ∧ ∃ j, c ≠ j ∧ World.Guar j (g.world s) (g.world s') := by
  have hself : s'.held c = ⟨x, type⟩ :: s.held c := by
    simp [← hs', State.held, State.addToken, State.setContext, State.setBarrier]
  have hother : ∀ d, d ≠ c → s'.held d = s.held d := by
    intro d hd
    simp [← hs', State.held, State.addToken, State.setContext, State.setBarrier, hd]
  have htoken : ∀ d, ∀ t ∈ s'.held d, (g.world s).Knows t.barrierId := by
    intro d t ht
    by_cases hd : d = c
    · subst hd
      rw [hself] at ht
      rcases List.mem_cons.1 ht with rfl | ht
      · exact hx
      · exact h.token d t ht
    · rw [hother d hd] at ht
      exact h.token d t ht
  have hnodup : ∀ d, ((s'.held d).map BarrierToken.barrierId).Nodup := by
    intro d
    by_cases hd : d = c
    · subst hd
      rw [hself, List.map_cons, List.nodup_cons]
      refine ⟨fun hm => ?_, h.nodup d⟩
      obtain ⟨t, ht, htx⟩ := List.mem_map.1 hm
      exact hnot t ht htx
    · rw [hother d hd]
      exact h.nodup d
  have hkeep : ∀ d y ν, s.mode g.fr d y = some ν → s'.mode g.fr d y = some ν := by
    intro d y ν hm
    unfold State.mode at hm ⊢
    split at hm
    · next hy =>
        rw [if_pos hy]
        exact hm
    · next hy =>
        rw [if_neg hy]
        by_cases hd : d = c
        · subst hd
          rw [hself]
          exact tokenMode_cons hnot hm
        · rw [hother d hd]
          exact hm
  obtain ⟨sp, hsp⟩ := hx
  have hfresh : ∀ d y, y ∈ g.fr d → (∀ e, y ∈ g.fr e → e = d)
      ∧ ∀ e, ∀ t ∈ s'.held e, t.barrierId ≠ y := by
    intro d y hy
    refine ⟨(h.fresh d y hy).2, fun e t ht hty => ?_⟩
    obtain ⟨sp', hsp'⟩ := htoken e t ht
    have hnone := (h.fresh d y hy).1
    rw [hty] at hsp'
    cases hsp'.symm.trans hnone
  have hact' : ∀ d, some c = some d → ph d ≠ .free := by
    rintro d ⟨⟩
    exact hact
  have hplaced : Placed q s' ph (some c) := by
    rw [← hs']
    exact hp.grant (hp.lists.bound c hact) hg
  have hworld : g.world s' = (g.world s).withMode (s'.mode g.fr) := by
    rw [← hs']
    rfl
  have hok : (g.world s').Ok g.m := by
    rw [hworld]
    refine h.ok.remode (i := c) (fun d y ν _ => hkeep d y ν)
      (fun hj hj' => hplaced.excl hact' hfresh hj hj') (fun y sp hy hw hne => ?_)
    exact absurd (hkeep c y _ hw) hne
  have hguar : ∀ j, World.Guar j (g.world s) (g.world s') := by
    intro j
    rw [hworld]
    exact World.guar_withMode (fun d y ν _ => hkeep d y ν)
  obtain ⟨j, hj⟩ := exists_ne c
  refine ⟨⟨hok, ?_, ?_, ?_, h.fresh, ?_, hnodup, fun d hd => ?_⟩, ⟨?_, ?_⟩, j, hj.symm, hguar j⟩
  · rw [← hs']
    exact h.blocks
  · rw [← hs']
    exact h.allocator
  · rw [← hs']
    exact h.unused
  · intro d t ht
    rw [hworld]
    exact htoken d t ht
  · have hdc : d ≠ c := fun he => hd (by rw [he])
    have hctx : s'.contexts d = s.contexts d := by
      rw [← hs']
      exact Function.update_of_ne hdc _ _
    have hroot : s'.root = s.root := by rw [← hs']; rfl
    refine (h.know d hd).step hdc h.ok hok (.one h.ok hok (hguar c)) ?_ (.inl ⟨rfl, hctx⟩) rfl
      (fun _ _ _ => Iff.rfl) id (fun hne => absurd hroot hne) (hp.ctl d hd) (fun y t hy hg => ?_)
    · rw [← hs']
      cases d <;> rfl
    · rw [hy] at hg
      cases hg
  · have hm : ⟨x, type⟩ ∈ s'.held c := by
      rw [hself]
      exact List.mem_cons_self
    have hxfr : x ∉ g.fr c := fun hfr => (hfresh c x hfr).2 c _ hm rfl
    have hmode : s'.mode g.fr c x = some type := by
      rw [State.mode, if_neg hxfr]
      exact tokenMode_of_mem (hnodup c) hm
    intro hnone
    cases hmode.symm.trans hnone
  · -- nobody had it in write mode
    have hraw : (g.world s).raw x = (g.world s).E x := by
      refine h.ok.clean hsp (fun e he => ?_)
      rcases State.mode_write he with ⟨hfr, -⟩ | hm
      · have hnone := (h.fresh e x hfr).1
        cases hsp.symm.trans hnone
      · have hpos := hp.tokens.pos (hp.index_lt hact' hm) hm
        simp only [ContextBarrier.counter] at hpos
        cases type <;> simp [ContextBarrier.grants] at hg <;> omega
    rw [hworld]
    exact hraw

/-- **The running context changes the tree**, by moves of its own. -/
theorem Shared.moves (h : Shared cap s ph g (some c)) (hp : Placed q s ph (some c))
    (hs : World.Guars c (g.world s) (g'.world s')) (hok : (g'.world s').Ok g'.m)
    (hblocks : ∀ a b, s'.blocks a = some b → b.selfRep = a ∧ b.deserialize.size ≤ cap)
    (halloc : s'.allocator.Ok) (hunused : ∀ x, s'.allocator.Free x → g'.G x = none ∧ ∀ c, x ∉ g'.fr c)
    (hfresh : ∀ c x, x ∈ g'.fr c → g'.G x = none ∧ ∀ d, x ∈ g'.fr d → d = c)
    (hheld : s'.held = s.held)
    (hother : ∀ d, d ≠ c → s.SameData s' d ∧ s'.contexts d = s.contexts d ∧ ph' d = ph d
      ∧ g'.fr d = g.fr d)
    (horder : ∀ d, d ≠ c → ∀ r, s.request d = some (.insert r) → ph d ≠ .free →
      (r ∈ g'.order ↔ r ∈ g.order))
    (hlost : g.lost → g'.lost)
    (hroot : s'.root ≠ s.root → ∀ j, (ph (.search j)).waits = true → s.held (.search j) = [] →
      g'.lost) :
    Shared cap s' ph' g' (some c) := by
  refine ⟨hok, hblocks, halloc, hunused, hfresh, fun d t ht => ?_, hheld ▸ h.nodup, fun d hd => ?_⟩
  · rw [hheld] at ht
    exact hs.induct (P := fun v => v.Knows t.barrierId) (fun _ _ hg hk => hk.stable hg)
      (h.token d t ht)
  · have hdc : d ≠ c := fun he => hd (by rw [he])
    obtain ⟨h1, h2, h3, h4⟩ := hother d hdc
    refine (h.know d hd).step hdc h.ok hok hs h1 (.inl ⟨h3, h2⟩) h4 (horder d hdc) hlost
      ?_ (hp.ctl d hd) (fun y t hy hg => ?_)
    · rintro hne j rfl
      exact hroot hne j
    · rw [h3, hy] at hg
      cases hg

end

end PullBasedBPlusTree

end NvmTree
