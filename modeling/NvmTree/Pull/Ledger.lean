/-
  NvmTree.Pull.Ledger — the inserts in the order in which they took effect.

  An insert is invoked when it is admitted, takes effect when its leaf is written,
  and is answered when it finishes.  `Ledger` says that the order of the effects is
  a linearization of what the clients saw, and that a search answers from the map of
  that moment, unless it was lost.

  Main results, one for each way the log or the order grows: `Ledger.commit`,
  `Ledger.finishInsert`, `Ledger.finishSearch`, `Ledger.admitInsert` and
  `Ledger.append` for the rest.
-/
import NvmTree.Lib.Linearize
import NvmTree.Pull.Shared

namespace NvmTree

open RangeTree Linearize

namespace PullBasedBPlusTree

variable {K V : Type*}

/-! ## §1. The ledger. -/

/-- The map that inserts update. -/
def insertSpec [DecidableEq K] (m : K → Option V) (op : K × V) : (K → Option V) × Unit :=
  (Function.update m op.1 (some op.2), ())

/-- An insert is invoked when it is admitted and answered when it finishes. -/
def LogEvent.asInsert : LogEvent K V → Option (Event (K × V) Unit)
  | .admission (.insert r) => some (.invoke r.id (r.key, r.value))
  | .finishInsert id => some (.respond id ())
  | _ => none

def insertHistory (log : List (LogEvent K V)) : List (Event (K × V) Unit) :=
  log.filterMap LogEvent.asInsert

def InsertRequest.op (r : InsertRequest K V) : Nat × (K × V) × Unit := (r.id, (r.key, r.value), ())

section

variable [LinearOrder K]

/-- **The order of the inserts explains what the clients saw**, and so do the answers
of the searches, unless one was lost. -/
structure Ledger (m₀ : K → Option V) (log : List (LogEvent K V)) (g : Ghost K V) : Prop where
  lin : Linearization insertSpec m₀ (insertHistory log) (g.order.map InsertRequest.op) g.m
  known : ∀ r ∈ g.order, Request.insert r ∈ admitted log
  complete : ∀ r, Request.insert r ∈ admitted log → finishCount log (.insert r) ≠ 0 → r ∈ g.order
  answers : ¬ g.lost → ∀ pre post r v, log = pre ++ LogEvent.finishSearch r.id v :: post →
    Request.search r ∈ admitted pre →
      ∃ order m, Linearization insertSpec m₀ (insertHistory pre) order m ∧ v = m r.key

variable {m₀ : K → Option V} {log es : List (LogEvent K V)} {g g' : Ghost K V}
  {r : InsertRequest K V}

theorem Ledger.congr (h : Ledger m₀ log g) (horder : g'.order = g.order) (hm : g'.m = g.m)
    (hlost : g.lost → g'.lost) : Ledger m₀ log g' := by
  refine ⟨?_, ?_, ?_, fun hn => h.answers fun hl => hn (hlost hl)⟩
  · rw [horder, hm]
    exact h.lin
  · rw [horder]
    exact h.known
  · rw [horder]
    exact h.complete

/-! ## §2. How the log grows. -/

omit [LinearOrder K] in
theorem insertHistory_append (log es : List (LogEvent K V)) :
    insertHistory (log ++ es) = insertHistory log ++ insertHistory es := List.filterMap_append

omit [LinearOrder K] in
theorem admitted_append (log es : List (LogEvent K V)) :
    admitted (log ++ es) = admitted log ++ admitted es := List.filterMap_append

/-- Where an event of a longer log stands. -/
theorem append_eq_cons {α : Type*} {l es pre post : List α} {e : α}
    (h : l ++ es = pre ++ e :: post) :
    (∃ post', l = pre ++ e :: post') ∨ ∃ a, pre = l ++ a ∧ es = a ++ e :: post := by
  rcases List.append_eq_append_iff.1 h with ⟨a, hpre, hes⟩ | ⟨c, hl, hc⟩
  · exact .inr ⟨a, hpre, hes⟩
  · cases c with
    | nil => exact .inr ⟨[], by simpa using hl.symm, by simpa using hc.symm⟩
    | cons e' c =>
        obtain ⟨rfl, -⟩ := List.cons.inj hc
        exact .inl ⟨c, hl⟩

/-- Events are added that do not finish a search, or finish it with what the map has. -/
theorem Ledger.append (h : Ledger m₀ log g)
    (hlin : Linearization insertSpec m₀ (insertHistory (log ++ es)) (g.order.map InsertRequest.op)
      g.m)
    (hcomplete : ∀ r, Request.insert r ∈ admitted (log ++ es) →
      finishCount (log ++ es) (.insert r) ≠ 0 → r ∈ g.order)
    (hans : ¬ g.lost → ∀ a post r v, es = a ++ LogEvent.finishSearch r.id v :: post →
      Request.search r ∈ admitted (log ++ a) →
        insertHistory a = [] ∧ v = g.m r.key) : Ledger m₀ (log ++ es) g := by
  refine ⟨hlin, fun r hr => ?_, hcomplete, fun hnot pre post r v heq hadm => ?_⟩
  · rw [admitted_append]
    exact List.mem_append_left _ (h.known r hr)
  · rcases append_eq_cons heq with ⟨post', hlog⟩ | ⟨a, rfl, hes⟩
    · exact h.answers hnot pre post' r v hlog hadm
    · obtain ⟨hnil, hv⟩ := hans hnot a post r v hes hadm
      refine ⟨g.order.map InsertRequest.op, g.m, ?_, hv⟩
      rw [insertHistory_append, hnil, List.append_nil]
      exact h.lin

/-- An event that is none of an insert and does not finish a search. -/
theorem Ledger.other (h : Ledger m₀ log g) {e : LogEvent K V} (he : e.asInsert = none)
    (hf : ∀ id v, e ≠ .finishSearch id v) : Ledger m₀ (log ++ [e]) g := by
  refine h.append ?_ (fun r hadm hfin => ?_) (fun _ a post r v heq _ => ?_)
  · have hnil : insertHistory [e] = [] := by simp [insertHistory, he]
    rw [insertHistory_append, hnil, List.append_nil]
    exact h.lin
  · refine h.complete r ?_ ?_
    · rw [admitted_append, List.mem_append] at hadm
      refine hadm.resolve_right (fun hm => ?_)
      obtain ⟨e', he', hr⟩ := List.mem_filterMap.1 hm
      rw [List.mem_singleton.1 he'] at hr
      cases e <;> cases hr
      cases he
    · have hnot : e.finishes r.id = false := by
        cases e <;> first | rfl | exact absurd rfl (hf _ _) | cases he
      rw [finishCount, List.countP_append, List.countP_singleton] at hfin
      change List.countP _ _ + (if e.finishes r.id = true then 1 else 0) ≠ 0 at hfin
      rw [hnot] at hfin
      exact hfin
  · have hm : LogEvent.finishSearch r.id v ∈ [e] := by rw [heq]; simp
    exact absurd (List.mem_singleton.1 hm).symm (hf _ _)

/-! ## §3. Inserts. -/

omit [LinearOrder K] in
theorem op_fst (order : List (InsertRequest K V)) :
    (order.map InsertRequest.op).map Prod.fst = order.map InsertRequest.id := by
  rw [List.map_map]
  rfl

omit [LinearOrder K] in
/-- A request that was admitted is the only one with its number. -/
theorem eq_of_admitted {r r' : Request K V} (hids : ((admitted log).map Request.id).Nodup)
    (hr : r ∈ admitted log) (hr' : r' ∈ admitted log) (hid : r.id = r'.id) : r = r' :=
  List.inj_on_of_nodup_map hids hr hr' hid

theorem Ledger.id_not_mem (h : Ledger m₀ log g) (hids : ((admitted log).map Request.id).Nodup)
    (hadm : Request.insert r ∈ admitted log) (hnot : r ∉ g.order) :
    r.id ∉ (g.order.map InsertRequest.op).map Prod.fst := by
  rw [op_fst]
  intro hm
  obtain ⟨r', hr', hid⟩ := List.mem_map.1 hm
  have heq := eq_of_admitted hids (h.known r' hr') hadm hid
  cases heq
  exact hnot hr'

/-- **An insert takes effect.** -/
theorem Ledger.commit (h : Ledger m₀ log g) (hids : ((admitted log).map Request.id).Nodup)
    (hadm : Request.insert r ∈ admitted log) (hnot : r ∉ g.order)
    (horder : g'.order = g.order ++ [r]) (hm : g'.m = Function.update g.m r.key (some r.value))
    (hlost : g.lost → g'.lost) : Ledger m₀ log g' := by
  have hinv : Event.invoke r.id (r.key, r.value) ∈ insertHistory log := by
    obtain ⟨e, he, hr⟩ := List.mem_filterMap.1 hadm
    cases e with
    | admission r' =>
        cases hr
        exact List.mem_filterMap.2 ⟨_, he, rfl⟩
    | submit r' => cases hr
    | callback id => cases hr
    | release id => cases hr
    | finishSearch id v => cases hr
    | finishInsert id => cases hr
  refine ⟨?_, fun r' hr' => ?_, fun r' hr' hfin => ?_, fun hn => h.answers fun hl => hn (hlost hl)⟩
  · rw [horder, List.map_append, hm]
    exact h.lin.commit hinv (h.id_not_mem hids hadm hnot)
  · rw [horder] at hr'
    rcases List.mem_append.1 hr' with hr' | hr'
    · exact h.known r' hr'
    · rw [List.mem_singleton.1 hr']
      exact hadm
  · rw [horder]
    exact List.mem_append_left _ (h.complete r' hr' hfin)

/-- An insert that has taken effect finishes. -/
theorem Ledger.finishInsert (h : Ledger m₀ log g) (hids : ((admitted log).map Request.id).Nodup)
    (hr : r ∈ g.order) :
    Ledger m₀ (log ++ doneEvents (.insert r) (.finishInsert r.id)) g := by
  have hhist : insertHistory (doneEvents (.insert r : Request K V) (.finishInsert r.id))
      = [.respond r.id ()] := by
    unfold insertHistory doneEvents
    cases (Request.insert r : Request K V).cbF <;>
      cases (Request.insert r : Request K V).semaphore <;> rfl
  have hends : (LogEvent.finishInsert r.id : LogEvent K V).Ends (.insert r) := .inr rfl
  refine h.append ?_ (fun r' hadm hfin => ?_) (fun _ a post r' v heq _ => ?_)
  · rw [insertHistory_append, hhist]
    exact h.lin.respond (List.mem_map_of_mem hr)
  · rw [admitted_done hends] at hadm
    rw [finishCount_done hends] at hfin
    by_cases hid : (Request.insert r : Request K V).id = (Request.insert r' : Request K V).id
    · have heq := eq_of_admitted hids (h.known r hr) hadm hid
      cases heq
      exact hr
    · rw [if_neg hid] at hfin
      exact h.complete r' hadm hfin
  · have hm : LogEvent.finishSearch r'.id v
        ∈ doneEvents (.insert r : Request K V) (.finishInsert r.id) := by
      rw [heq]
      simp
    simp [doneEvents] at hm

/-- An insert with a new number is admitted. -/
theorem Ledger.admitInsert (h : Ledger m₀ log g)
    (hids : ((admitted (log ++ [.admission (.insert r)])).map Request.id).Nodup)
    (hnew : finishCount log (.insert r) = 0) :
    Ledger m₀ (log ++ [.admission (.insert r)]) g := by
  refine h.append ?_ (fun r' hadm hfin => ?_) (fun _ a post r' v heq _ => ?_)
  · rw [insertHistory_append]
    refine h.lin.invoke (r.key, r.value) ?_
    rw [op_fst]
    intro hm
    obtain ⟨r', hr', hid⟩ := List.mem_map.1 hm
    rw [admitted_append, List.map_append, List.nodup_append] at hids
    refine hids.2.2 r'.id ?_ r.id ?_ hid
    · exact List.mem_map_of_mem (f := Request.id) (h.known r' hr')
    · simp [admitted, LogEvent.asAdmission, Request.id]
  · have hcount : finishCount (log ++ [LogEvent.admission (.insert r)]) (.insert r')
        = finishCount log (.insert r') := by
      simp [finishCount, List.countP_append, LogEvent.finishes]
    rw [hcount] at hfin
    rw [admitted_append, List.mem_append] at hadm
    rcases hadm with hadm | hadm
    · exact h.complete r' hadm hfin
    · obtain rfl : r' = r := by simpa [admitted, LogEvent.asAdmission] using hadm
      exact absurd hnew hfin
  · have hm : LogEvent.finishSearch r'.id v ∈ [LogEvent.admission (.insert r)] := by
      rw [heq]
      simp
    simp at hm

/-! ## §4. Searches. -/

/-- **A search finishes with what the map has for its key.** -/
theorem Ledger.finishSearch {r : SearchRequest K} {v : Option V} (h : Ledger m₀ log g)
    (hids : ((admitted log).map Request.id).Nodup)
    (hadm : Request.search r ∈ admitted log) (hv : ¬ g.lost → v = g.m r.key) :
    Ledger m₀ (log ++ doneEvents (.search r) (.finishSearch r.id v)) g := by
  have hinsert : ∀ e ∈ doneEvents (.search r : Request K V) (.finishSearch r.id v),
      e.asInsert = none ∧ e.asAdmission = none := by
    intro e he
    unfold doneEvents at he
    simp only [List.mem_append, List.mem_singleton, List.mem_ite_nil_right] at he
    rcases he with (⟨-, rfl⟩ | ⟨-, rfl⟩) | rfl <;> exact ⟨rfl, rfl⟩
  have hends : (LogEvent.finishSearch r.id v : LogEvent K V).Ends (.search r) := .inl ⟨v, rfl⟩
  refine h.append ?_ (fun r' hadm' hfin => ?_) (fun hn a post r' v' heq hadm' => ?_)
  · have hnil : insertHistory (doneEvents (.search r : Request K V) (.finishSearch r.id v)) = [] :=
      List.filterMap_eq_nil_iff.2 fun e he => (hinsert e he).1
    rw [insertHistory_append, hnil, List.append_nil]
    exact h.lin
  · rw [admitted_done hends] at hadm'
    rw [finishCount_done hends] at hfin
    by_cases hid : (Request.search r : Request K V).id = (Request.insert r' : Request K V).id
    · cases eq_of_admitted hids hadm hadm' hid
    · rw [if_neg hid] at hfin
      exact h.complete r' hadm' hfin
  · have hsub : ∀ e ∈ a, e ∈ doneEvents (.search r : Request K V) (.finishSearch r.id v) := by
      intro e he
      rw [heq]
      exact List.mem_append_left _ he
    have hm : LogEvent.finishSearch r'.id v'
        ∈ doneEvents (.search r : Request K V) (.finishSearch r.id v) := by
      rw [heq]
      simp
    have hadm₀ : admitted a = [] :=
      List.filterMap_eq_nil_iff.2 fun e he => (hinsert e (hsub e he)).2
    rw [admitted_append, hadm₀, List.append_nil] at hadm'
    obtain ⟨hid, rfl⟩ : r'.id = r.id ∧ v' = v := by simpa [doneEvents] using hm
    have heq' := eq_of_admitted hids hadm' hadm hid
    cases heq'
    exact ⟨List.filterMap_eq_nil_iff.2 fun e he => (hinsert e (hsub e he)).1, hv hn⟩

end

end PullBasedBPlusTree

end NvmTree
