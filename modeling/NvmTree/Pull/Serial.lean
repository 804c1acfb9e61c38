/-
  NvmTree.Pull.Serial — what the clients see of the tree.

  Without delay of the I/O, the inserts take effect one after the other, in an order
  that keeps what did not overlap; when all requests are done, the blocks are a
  well-formed tree of the map this order leads to.

  A search that waits for the root while the root is replaced goes on from the old
  root and may miss a key.  In a run without that (`Calm`), every search answers from
  the map of the moment at which it ends.

  Main results:
    * `run_serializable` — no insert is lost.
    * `run_search_calm`  — what a search finds in a calm run.
-/
import NvmTree.Pull.Progress
import NvmTree.RangeTree.Walk

namespace NvmTree

open RangeTree Linearize

namespace PullBasedBPlusTree

variable {K V : Type*} [LinearOrder K] {cap q : Nat} {m₀ : K → Option V} {s : State K V}
  {ph : ContextId → Phase} {g : Ghost K V}

/-! ## §1. At rest. -/

omit [LinearOrder K] in
/-- When all requests are done, all contexts are free. -/
theorem Books.all_free (h : Books q s ph) (hdone : unfinished s.log = []) (c : ContextId) :
    ph c = .free := by
  have hpending := h.requests.unfinished_eq
  have heq := h.requests.pending_eq
  have hlen : (unfinished s.log).length = 0 := by rw [hdone, List.length_nil]
  by_contra hc
  have hle := Finset.single_le_sum (f := fun d => if ph d = .free then 0 else 1)
    (fun _ _ => Nat.zero_le _) (mem_allContexts.2 (h.placed.lists.bound c hc))
  rw [if_neg hc] at hle
  change 1 ≤ activeCount q ph at hle
  omega

/-- **When all requests are done, the blocks are the tree.** -/
theorem Good.at_rest (h : Good cap q m₀ s ph g) (hdone : unfinished s.log = []) :
    (∃ κ, Tree s.raw g.G [(κ, s.root)] s.depth) ∧ Represents s.raw g.G g.m := by
  refine h.shared.ok.at_rest (fun c x hw => ?_)
  have hfree := h.books.all_free hdone c
  rcases State.mode_write hw with ⟨hx, -⟩ | hx
  · have hfr : g.fr c = [] := by
      cases c with
      | search i => exact (h.shared.know (.search i) nofun).1
      | insert i => exact ((h.shared.know (.insert i) nofun).1 hfree).1
    rw [hfr] at hx
    cases hx
  · rw [h.books.held_nil hfree] at hx
    cases hx

/-- The inserts that were submitted have all taken effect. -/
theorem Good.all_done (h : Good cap q m₀ s ph g) (hdone : unfinished s.log = [])
    {r : InsertRequest K V} (hr : Request.insert r ∈ submitted s.log) : r ∈ g.order := by
  have hreq := h.books.requests
  have hpending := hreq.unfinished_eq
  have heq := hreq.pending_eq
  have hlen : (unfinished s.log).length = 0 := by rw [hdone, List.length_nil]
  have hnil : s.submitting ++ s.requestQueue = [] := by
    rw [List.append_eq_nil_iff]
    exact ⟨List.length_eq_zero_iff.1 (by omega), List.length_eq_zero_iff.1 (by omega)⟩
  have hadm : Request.insert r ∈ admitted s.log := by
    have ht := (hreq.traced _).1 hr
    rw [hnil] at ht
    exact ht.resolve_left List.not_mem_nil
  refine h.ledger.complete r hadm (fun hzero => ?_)
  have hmem : Request.insert r ∈ unfinished s.log :=
    List.mem_filter.2 ⟨hr, by simpa using hzero⟩
  rw [hdone] at hmem
  cases hmem

/-- **No insert is lost.**  When all requests of a run have completed, the blocks
reached from the root are a well-formed tree, and its contents are those of applying
the inserts one by one to the initial map, in an order in which an insert that
completed before another was admitted comes first. -/
theorem run_serializable (hcap : 2 ≤ cap) (q : Nat) {blocks : BlkAddress → Option (Block K V)}
    {allocator : Allocator} {root : BlkAddress} {depth : Nat}
    (hstored : Stored cap blocks allocator root depth m₀) (as : List (Action K V)) (s : State K V)
    (hrun : run cap false (start q blocks allocator root depth) as = some s)
    (hdone : unfinished s.log = []) :
    WellFormed s.raw s.root s.depth
      ∧ ∃ order m, Linearization insertSpec m₀ (insertHistory s.log) order m
        ∧ (∀ r, Request.insert r ∈ submitted s.log → r.op ∈ order)
        ∧ ∀ k v, Contents s.raw s.root k v ↔ m k = some v := by
  obtain ⟨g₀, hgood₀, hprompt₀, -⟩ := start_good hstored q
  obtain ⟨ph, g, hgood, -, -⟩ := run_sound hcap hgood₀ hprompt₀ hrun
  obtain ⟨⟨κ, ht⟩, hmap⟩ := hgood.at_rest hdone
  refine ⟨ht.wellFormed, _, g.m, hgood.ledger.lin, fun r hr => ?_, fun k v => ?_⟩
  · exact List.mem_map_of_mem (hgood.all_done hdone hr)
  · exact ht.contents_iff.trans (hmap k v).symm

/-- An insert from its submission to its first read, and the rest of one that does not
split. -/
def insertOf (k v : Nat) : List (Action Nat Nat) :=
  [.submit (.insert k v) false false false, .push 0, .admission, .run .admission 0]

def insertRest : List (Action Nat Nat) := [.complete 0, .run .blk 0, .complete 0, .run .blk 0]

/-- The rest of an insert that splits the root after a second pass. -/
def splitRest : List (Action Nat Nat) :=
  [.complete 0, .run .blk 0, .complete 0, .complete 0, .run .blk 0, .run .blk 0, .complete 0,
    .run .blk 0]

/-- Three inserts at the smallest capacity. -/
def threeInserts : List (Action Nat Nat) :=
  insertOf 1 10 ++ insertRest ++ insertOf 2 20 ++ insertRest ++ insertOf 3 30
    ++ [.complete 0, .run .blk 0] ++ splitRest

/-- The root was split, and the tree has the three entries. -/
theorem run_serializable_three :
    ∃ s, run 2 false (init 1) threeInserts = some s ∧ s.depth = 2
      ∧ WellFormed s.raw s.root s.depth
      ∧ ∃ order m, Linearization insertSpec (fun _ => none) (insertHistory s.log) order m
        ∧ (∀ r, Request.insert r ∈ submitted s.log → r.op ∈ order)
        ∧ ∀ k v, Contents s.raw s.root k v ↔ m k = some v := by
  have hrun : (run 2 false (init 1) threeInserts).map (fun s => (s.depth, unfinished s.log))
      = some (2, []) := by decide +kernel
  obtain ⟨s, hs, heq⟩ := Option.map_eq_some_iff.1 hrun
  obtain ⟨hdepth, hdone⟩ := Prod.mk.inj heq
  exact ⟨s, hs, hdepth,
    run_serializable le_rfl 1 (init_stored (q := 1) 0) threeInserts s hs hdone⟩

/-! ## §2. What a search finds. -/

/-- The last insert of a key decides what the map has for it. -/
theorem legal_last {k : K} {m : K → Option V} : ∀ {order : List (Nat × (K × V) × Unit)}
    {m₀ : K → Option V}, Legal insertSpec m₀ order m →
      ((∀ op ∈ order, op.2.1.1 ≠ k) ∧ m k = m₀ k)
        ∨ ∃ l₁ i v l₂, order = l₁ ++ (i, (k, v), ()) :: l₂ ∧ (∀ op ∈ l₂, op.2.1.1 ≠ k)
          ∧ m k = some v
  | [], m₀, h => by
      cases h
      exact .inl ⟨nofun, rfl⟩
  | (i, (k', v), ()) :: order, m₀, h => by
      rcases legal_last (k := k) h.2 with ⟨hnone, hm⟩ | ⟨l₁, j, w, l₂, rfl, hl₂, hm⟩
      · by_cases hk : k' = k
        · subst hk
          refine .inr ⟨[], i, v, order, rfl, hnone, ?_⟩
          rw [hm]
          exact Function.update_self ..
        · refine .inl ⟨fun op hop => ?_, ?_⟩
          · rcases List.mem_cons.1 hop with rfl | hop
            · exact hk
            · exact hnone op hop
          · rw [hm]
            exact Function.update_of_ne (Ne.symm hk) _ _
      · exact .inr ⟨(i, (k', v), ()) :: l₁, j, w, l₂, rfl, hl₂, hm⟩

/-- The insert was admitted and has completed. -/
def Completed (log : List (LogEvent K V)) (r : InsertRequest K V) : Prop :=
  Request.insert r ∈ admitted log ∧ LogEvent.finishInsert r.id ∈ log

/-- `r` completed before `r'` was admitted. -/
def FollowedBy (log : List (LogEvent K V)) (r r' : InsertRequest K V) : Prop :=
  ∃ a b c, log = a ++ .finishInsert r.id :: (b ++ .admission (.insert r') :: c)

/-- **What a search should find.**  In a log in which the search `r` was admitted after
`a` and finished after `b` with `v`:

if an insert of its key completed before the search was admitted, `v` is the value of
an insert `u` of the key that was admitted before the search finished; if `u` had
completed when the search was admitted, it is a latest one, which no completed insert
of the key followed;

if no insert of the key was ever submitted, nothing is found. -/
def SearchesAgree (log : List (LogEvent K V)) : Prop :=
  ∀ a b c (r : SearchRequest K) v,
    log = a ++ .admission (.search r) :: (b ++ .finishSearch r.id v :: c) →
      ((∃ w, Completed a w ∧ w.key = r.key) →
        ∃ u : InsertRequest K V, v = some u.value ∧ u.key = r.key
          ∧ Request.insert u ∈ admitted (a ++ b)
          ∧ (Completed a u → ∀ w, Completed a w → w.key = r.key → ¬ FollowedBy a u w))
      ∧ ((∀ w, Request.insert w ∈ submitted log → w.key ≠ r.key) → v = none)

omit [LinearOrder K] in
/-- An insert that is invoked was admitted. -/
theorem admitted_of_invoke {log : List (LogEvent K V)} {i : Nat} {k : K} {v : V}
    (h : Event.invoke i (k, v) ∈ insertHistory log) :
    ∃ r : InsertRequest K V, Request.insert r ∈ admitted log ∧ r.op = (i, (k, v), ()) := by
  obtain ⟨e, he, hinv⟩ := List.mem_filterMap.1 h
  cases e with
  | admission r =>
      cases r with
      | insert r =>
          cases hinv
          exact ⟨r, List.mem_filterMap.2 ⟨_, he, rfl⟩, rfl⟩
      | search r => cases hinv
  | submit r => cases hinv
  | callback id => cases hinv
  | release id => cases hinv
  | finishSearch id v => cases hinv
  | finishInsert id => cases hinv

section Answer

variable {log : List (LogEvent K V)} {order : List (Nat × (K × V) × Unit)} {m : K → Option V}

/-- A completed insert is in the order, as it was submitted. -/
theorem Completed.mem_order {r : InsertRequest K V} (h : Completed log r)
    (hids : ((admitted log).map Request.id).Nodup)
    (hlin : Linearization insertSpec m₀ (insertHistory log) order m) : r.op ∈ order := by
  have hresp : Event.respond r.id () ∈ insertHistory log :=
    List.mem_filterMap.2 ⟨_, h.2, rfl⟩
  obtain ⟨⟨k, v⟩, hop⟩ := hlin.answered hresp
  obtain ⟨r', hr', heq⟩ := admitted_of_invoke (hlin.invoked hop)
  have hid : r'.id = r.id := congrArg Prod.fst heq
  have := eq_of_admitted hids hr' h.1 hid
  cases this
  rw [heq]
  exact hop

omit [LinearOrder K] in
/-- What followed in the log follows in the history. -/
theorem FollowedBy.precedes {r r' : InsertRequest K V} (h : FollowedBy log r r') :
    Precedes (insertHistory log) r.id r'.id := by
  obtain ⟨a, b, c, rfl⟩ := h
  refine ⟨insertHistory a, insertHistory b, insertHistory c, (), (r'.key, r'.value), ?_⟩
  simp [insertHistory, LogEvent.asInsert]

omit [LinearOrder K] in
/-- What stands after an operation of the order is decided by its number. -/
theorem mem_of_before {l₁ l₂ : List Nat} {i j : Nat} (hnd : (l₁ ++ i :: l₂).Nodup)
    (hb : Linearize.Before (l₁ ++ i :: l₂) i j) : j ∈ l₂ := by
  obtain ⟨m₁, m₂, m₃, heq⟩ := hb
  have heq' : l₁ ++ i :: l₂ = m₁ ++ i :: (m₂ ++ j :: m₃) := by
    rw [heq]
    simp
  have hi₁ : i ∉ l₁ := fun hm => (List.nodup_append.1 hnd).2.2 i hm i List.mem_cons_self rfl
  have hl₂ : i ∉ l₂ := (List.nodup_cons.1 (List.nodup_append.1 hnd).2.1).1
  obtain ⟨-, -, htail⟩ := (List.append_cons_inj_of_notMem hi₁ hl₂).1 heq'
  rw [htail]
  simp

/-- An operation of the order is known by its number. -/
theorem eq_of_mem_order (hlin : Linearization insertSpec m₀ (insertHistory log) order m)
    {op op' : Nat × (K × V) × Unit} (hop : op ∈ order) (hop' : op' ∈ order) (hid : op.1 = op'.1) :
    op = op' :=
  List.inj_on_of_nodup_map hlin.nodup hop hop' hid

/-- **What the order has for a key**, when an insert of it completed. -/
theorem answer_of_completed (hids : ((admitted log).map Request.id).Nodup)
    (hlin : Linearization insertSpec m₀ (insertHistory log) order m) {w : InsertRequest K V}
    (hw : Completed log w) :
    ∃ u : InsertRequest K V, m w.key = some u.value ∧ u.key = w.key
      ∧ Request.insert u ∈ admitted log
      ∧ ∀ w', Completed log w' → w'.key = w.key → ¬ FollowedBy log u w' := by
  rcases legal_last (k := w.key) hlin.legal with ⟨hnone, -⟩ | ⟨l₁, i, v, l₂, rfl, hl₂, hm⟩
  · exact absurd rfl (hnone _ (hw.mem_order hids hlin))
  have hin : (i, (w.key, v), ()) ∈ l₁ ++ (i, (w.key, v), ()) :: l₂ := by simp
  obtain ⟨u, hu, heq⟩ := admitted_of_invoke (hlin.invoked hin)
  have hkey : u.key = w.key := congrArg (fun op => op.2.1.1) heq
  have hvalue : u.value = v := congrArg (fun op => op.2.1.2) heq
  have hid : u.id = i := congrArg Prod.fst heq
  refine ⟨u, by rw [hm, hvalue], hkey, hu, fun w' hw' hkey' hfollow => ?_⟩
  -- an insert that follows `u` in time stands after it in the order
  have hmem := hw'.mem_order hids hlin
  have hbefore := hlin.realtime hfollow.precedes (List.mem_map_of_mem (f := Prod.fst) hmem)
  have hnd := hlin.nodup
  rw [List.map_append, List.map_cons] at hbefore hnd
  rw [hid] at hbefore
  obtain ⟨op, hop, hopid⟩ := List.mem_map.1 (mem_of_before hnd hbefore)
  have hopw := eq_of_mem_order hlin (by simp [hop]) hmem hopid
  exact hl₂ op hop (by rw [hopw]; exact hkey')

/-- What the order has for a key that nobody inserted. -/
theorem answer_of_none (hlin : Linearization insertSpec m₀ (insertHistory log) order m) {k : K}
    (hnone : ∀ w : InsertRequest K V, Request.insert w ∈ admitted log → w.key ≠ k) :
    m k = m₀ k := by
  rcases legal_last (k := k) hlin.legal with ⟨-, hm⟩ | ⟨l₁, i, v, l₂, rfl, -, -⟩
  · exact hm
  · have hin : (i, (k, v), ()) ∈ l₁ ++ (i, (k, v), ()) :: l₂ := by simp
    obtain ⟨u, hu, heq⟩ := admitted_of_invoke (hlin.invoked hin)
    exact absurd (congrArg (fun op => op.2.1.1) heq) (hnone u hu)

end Answer

omit [LinearOrder K] in
theorem Completed.mono {a : List (LogEvent K V)} {r : InsertRequest K V} (h : Completed a r)
    (b : List (LogEvent K V)) : Completed (a ++ b) r :=
  ⟨by rw [admitted_append]; exact List.mem_append_left _ h.1, List.mem_append_left _ h.2⟩

omit [LinearOrder K] in
theorem FollowedBy.mono {a : List (LogEvent K V)} {r r' : InsertRequest K V}
    (h : FollowedBy a r r') (b : List (LogEvent K V)) : FollowedBy (a ++ b) r r' := by
  obtain ⟨x, y, z, rfl⟩ := h
  exact ⟨x, y, z ++ b, by simp⟩

/-- **A search that was not lost finds what it should.** -/
theorem Good.searchesAgree (h : Good cap q (fun _ => none) s ph g) (hlost : ¬ g.lost) :
    SearchesAgree s.log := by
  intro a b c r v heq
  have heq' : s.log = (a ++ .admission (.search r) :: b) ++ .finishSearch r.id v :: c := by
    rw [heq]
    simp
  have hpre : admitted (a ++ LogEvent.admission (.search r) :: b)
      = admitted a ++ Request.search r :: admitted b := by
    simp [admitted, LogEvent.asAdmission]
  obtain ⟨order, m, hlin, hv⟩ := h.ledger.answers hlost _ c r v heq' (by rw [hpre]; simp)
  -- the admission of the search is no event of an insert
  have hhist : insertHistory (a ++ LogEvent.admission (.search r) :: b) = insertHistory (a ++ b) := by
    rw [insertHistory_append, insertHistory_append]
    rfl
  rw [hhist] at hlin
  have hids := h.books.requests.admittedIds
  have hadm : admitted s.log = admitted a ++ Request.search r :: admitted b ++ admitted c := by
    rw [heq', admitted_append, hpre]
    rfl
  have hsub : (admitted (a ++ b)).Sublist (admitted s.log) := by
    rw [hadm, admitted_append]
    exact ((List.sublist_cons_self _ _).append_left _).trans (List.sublist_append_left _ _)
  have hids' : ((admitted (a ++ b)).map Request.id).Nodup := hids.sublist (hsub.map _)
  refine ⟨fun hdone => ?_, fun hnone => ?_⟩
  · obtain ⟨w, hw, hkey⟩ := hdone
    obtain ⟨u, hval, hukey, hu, hlast⟩ := answer_of_completed hids' hlin (hw.mono b)
    refine ⟨u, by rw [hv, ← hkey, hval], hukey.trans hkey, hu, fun _ w' hw' hkey' hf => ?_⟩
    exact hlast w' (hw'.mono b) (hkey'.trans hkey.symm) (hf.mono b)
  · rw [hv, answer_of_none hlin (fun w hw => hnone w ?_)]
    exact (h.books.requests.traced _).2 (.inr (hsub.mem hw))

/-- The root is the same in all states of the run. -/
def rootFixed (cap : Nat) (deferred : Bool) : State K V → List (Action K V) → Bool
  | _, [] => true
  | s, a :: as =>
      match step cap deferred s a with
      | some (.ok s') => decide (s'.root = s.root) && rootFixed cap deferred s' as
      | _ => true

/-- A run that never replaces the root is calm. -/
theorem calm_of_rootFixed {deferred : Bool} : ∀ {as : List (Action K V)} {s : State K V},
    rootFixed cap deferred s as = true → Calm cap deferred s as
  | [], _, _ => trivial
  | a :: as, s, h => by
      match hstep : step cap deferred s a with
      | some (.ok s') =>
          simp only [rootFixed, hstep, Bool.and_eq_true, decide_eq_true_eq] at h
          simp only [Calm, hstep]
          exact ⟨fun hne => absurd h.1 hne, calm_of_rootFixed h.2⟩
      | some (.error f) => simp only [Calm, hstep]
      | none => simp only [Calm, hstep]

/-- **What a search finds in a calm run.** -/
theorem run_search_calm (hcap : 2 ≤ cap) (q : Nat) (as : List (Action K V)) (s : State K V)
    (hrun : run cap false (init q) as = some s) (hcalm : Calm cap false (init q) as) :
    SearchesAgree s.log := by
  intro a b c r v heq
  obtain ⟨g₀, hgood₀, hprompt₀, hlost₀⟩ := start_good (init_stored (q := q) r.key) q
  obtain ⟨ph, g, hgood, -, hlost⟩ := run_sound hcap hgood₀ hprompt₀ hrun
  exact hgood.searchesAgree (fun hl => hlost₀ (hlost hcalm hl)) a b c r v heq

/-- An insert, and a search of its key. -/
def insertSearch : List (Action Nat Nat) :=
  insertOf 1 10 ++ insertRest ++ [.submit (.search 1) false false false, .push 0, .admission,
    .run .admission 0, .complete 0, .run .blk 0]

/-- The search finds the value, and has to. -/
theorem run_search_calm_one :
    ∃ s, run 2 false (init 1) insertSearch = some s ∧ LogEvent.finishSearch 1 (some 10) ∈ s.log
      ∧ SearchesAgree s.log := by
  have hrun : (run 2 false (init 1) insertSearch).map (fun s => s.log.getLast?)
      = some (some (.finishSearch 1 (some 10))) := by decide +kernel
  obtain ⟨s, hs, hlast⟩ := Option.map_eq_some_iff.1 hrun
  exact ⟨s, hs, List.mem_of_getLast? hlast,
    run_search_calm le_rfl 1 insertSearch s hs (calm_of_rootFixed (by decide +kernel))⟩

/-! ## §3. A search that misses a key. -/

/-- At capacity 2, a search waits for the root, a leaf, while an insert splits it. -/
def lostSearch : List (Action Nat Nat) :=
  insertOf 1 10 ++ insertRest ++ insertOf 2 20 ++ insertRest ++ insertOf 3 30
    ++ [.complete 0, .run .blk 0]
    ++ [.submit (.search 2) false false false, .push 0, .admission, .run .admission 0]
    ++ splitRest ++ [.run .barrier 0, .complete 0, .run .blk 0]

/-- **The search does not find a key that was inserted before it was admitted.**  It
reads the old root, whose upper half is now in another node. -/
theorem lostSearch_misses :
    ∃ s, run 2 false (init 2) lostSearch = some s ∧ ¬ SearchesAgree s.log := by
  let one : InsertRequest Nat Nat := ⟨0, 1, 10, false, false, false⟩
  let two : InsertRequest Nat Nat := ⟨1, 2, 20, false, false, false⟩
  let three : InsertRequest Nat Nat := ⟨2, 3, 30, false, false, false⟩
  let search : SearchRequest Nat := ⟨3, 2, false, false, false⟩
  let before : List (LogEvent Nat Nat) :=
    [.submit (.insert one), .admission (.insert one), .finishInsert 0,
      .submit (.insert two), .admission (.insert two), .finishInsert 1,
      .submit (.insert three), .admission (.insert three), .submit (.search search)]
  have hrun : (run 2 false (init 2) lostSearch).map State.log
      = some (before ++ [.admission (.search search), .finishInsert 2, .finishSearch 3 none]) := by
    decide +kernel
  obtain ⟨s, hs, hlog⟩ := Option.map_eq_some_iff.1 hrun
  refine ⟨s, hs, fun hagree => ?_⟩
  rw [hlog] at hagree
  -- the insert of 2 completed before the search of 2 was admitted
  obtain ⟨u, hu, -⟩ := (hagree before [.finishInsert 2] [] search none rfl).1
    ⟨two, ⟨by decide, by decide⟩, rfl⟩
  cases hu

end PullBasedBPlusTree

end NvmTree
