/-
  NvmTree.Lib.Linearize — histories of overlapping operations and their orders.

  A history is the list of invocations and responses as they happened.  A
  `Linearization` of it is an order of operations, with their results, that a
  sequential object allows and that keeps the order of operations that did not
  overlap.  It may contain operations that have taken effect and not answered
  yet.

  Main results: the three rules by which a linearization grows along a run —
  `Linearization.invoke`, `Linearization.commit`, `Linearization.respond` — and
  the same rules for a `Ledger`, which also keeps what each process is doing.
-/
import Mathlib.Data.List.Basic
import Mathlib.Data.List.Nodup
import Mathlib.Logic.Function.Basic
import Mathlib.Tactic.Common

namespace Linearize

variable {σ α ρ : Type*}

/-- What happens to an operation, by its number. -/
inductive Event (α ρ : Type*) where
  | invoke (id : Nat) (op : α)
  | respond (id : Nat) (res : ρ)
  deriving Repr, DecidableEq

/-- The object `spec` goes from `s` through the operations of the list to `s'`,
with the results the list has. -/
def Legal (spec : σ → α → σ × ρ) : σ → List (Nat × α × ρ) → σ → Prop
  | s, [], s' => s = s'
  | s, (_, op, r) :: l, s' => (spec s op).2 = r ∧ Legal spec (spec s op).1 l s'

/-- `i` was answered before `j` was invoked. -/
def Precedes (h : List (Event α ρ)) (i j : Nat) : Prop :=
  ∃ l₁ l₂ l₃ r op, h = l₁ ++ .respond i r :: l₂ ++ .invoke j op :: l₃

/-- `i` stands before `j`. -/
def Before (l : List Nat) (i j : Nat) : Prop := ∃ l₁ l₂ l₃, l = l₁ ++ i :: l₂ ++ j :: l₃

structure Linearization (spec : σ → α → σ × ρ) (s₀ : σ) (h : List (Event α ρ))
    (order : List (Nat × α × ρ)) (s : σ) : Prop where
  legal : Legal spec s₀ order s
  nodup : (order.map Prod.fst).Nodup
  invoked : ∀ {i op r}, (i, op, r) ∈ order → .invoke i op ∈ h
  answered : ∀ {i r}, .respond i r ∈ h → ∃ op, (i, op, r) ∈ order
  realtime : ∀ {i j}, Precedes h i j → j ∈ order.map Prod.fst → Before (order.map Prod.fst) i j

variable {spec : σ → α → σ × ρ} {s₀ s : σ} {h : List (Event α ρ)} {order : List (Nat × α × ρ)}

theorem Legal.append : ∀ {l : List (Nat × α × ρ)} {s s' : σ} {i : Nat} {op : α},
    Legal spec s l s' → Legal spec s (l ++ [(i, op, (spec s' op).2)]) (spec s' op).1
  | [], _, _, _, _, hl => by
      cases hl
      exact ⟨rfl, rfl⟩
  | (_, _, _) :: _, _, _, _, _, hl => ⟨hl.1, Legal.append hl.2⟩

/-- One more event adds pairs only when it is an invocation. -/
theorem precedes_append {e : Event α ρ} {i j : Nat} (hp : Precedes (h ++ [e]) i j) :
    Precedes h i j ∨ (∃ op, e = .invoke j op) ∧ ∃ r, .respond i r ∈ h := by
  obtain ⟨l₁, l₂, l₃, r, op, heq⟩ := hp
  rcases List.eq_nil_or_concat l₃ with rfl | ⟨l₃', e', rfl⟩
  · have heq' : h ++ [e] = (l₁ ++ .respond i r :: l₂) ++ [.invoke j op] := by simpa using heq
    obtain ⟨rfl, he⟩ := List.append_inj' heq' rfl
    refine Or.inr ⟨⟨op, by simpa using he⟩, r, by simp⟩
  · have heq' : h ++ [e] = (l₁ ++ .respond i r :: l₂ ++ .invoke j op :: l₃') ++ [e'] := by
      simpa using heq
    obtain ⟨rfl, -⟩ := List.append_inj' heq' rfl
    exact Or.inl ⟨l₁, l₂, l₃', r, op, rfl⟩

theorem Before.append {l : List Nat} {i j n : Nat} (hb : Before l i j) : Before (l ++ [n]) i j := by
  obtain ⟨l₁, l₂, l₃, rfl⟩ := hb
  exact ⟨l₁, l₂, l₃ ++ [n], by simp⟩

/-- The empty history. -/
theorem Linearization.nil : Linearization spec s₀ ([] : List (Event α ρ)) [] s₀ := by
  refine ⟨rfl, List.nodup_nil, ?_, ?_, ?_⟩
  · intro i op r hm; cases hm
  · intro i r hm; cases hm
  · intro i j _ hj; cases hj

/-- An operation with a new number is invoked. -/
theorem Linearization.invoke (hl : Linearization spec s₀ h order s) {j : Nat} (op : α)
    (hj : j ∉ order.map Prod.fst) : Linearization spec s₀ (h ++ [.invoke j op]) order s := by
  refine ⟨hl.legal, hl.nodup, fun hm => List.mem_append_left _ (hl.invoked hm), ?_, ?_⟩
  · intro i r hm
    rcases List.mem_append.1 hm with hm | hm
    · exact hl.answered hm
    · cases List.mem_singleton.1 hm
  · intro i j' hp hj'
    rcases precedes_append hp with hp | ⟨⟨op', he⟩, -⟩
    · exact hl.realtime hp hj'
    · cases he
      exact absurd hj' hj

/-- **An invoked operation takes effect**: it goes to the end of the order. -/
theorem Linearization.commit (hl : Linearization spec s₀ h order s) {i : Nat} {op : α}
    (hi : .invoke i op ∈ h) (hnew : i ∉ order.map Prod.fst) :
    Linearization spec s₀ h (order ++ [(i, op, (spec s op).2)]) (spec s op).1 := by
  refine ⟨hl.legal.append, ?_, ?_, ?_, ?_⟩
  · simp only [List.map_append, List.map_cons, List.map_nil]
    rw [List.nodup_append]
    refine ⟨hl.nodup, List.nodup_singleton _, ?_⟩
    rintro x hx y hy rfl
    rw [List.mem_singleton.1 hy] at hx
    exact hnew hx
  · intro i' op' r' hm
    rcases List.mem_append.1 hm with hm | hm
    · exact hl.invoked hm
    · cases List.mem_singleton.1 hm
      exact hi
  · intro i' r' hm
    obtain ⟨op', hop⟩ := hl.answered hm
    exact ⟨op', List.mem_append_left _ hop⟩
  · intro i' j hp hj
    simp only [List.map_append, List.map_cons, List.map_nil] at hj ⊢
    rcases List.mem_append.1 hj with hj | hj
    · exact (hl.realtime hp hj).append
    · -- everything answered so far stands before the new operation
      rw [List.mem_singleton.1 hj]
      obtain ⟨l₁, l₂, l₃, r, op', rfl⟩ := hp
      obtain ⟨op'', hop⟩ := hl.answered (i := i') (r := r) (by simp)
      obtain ⟨m₁, m₂, hm⟩ := List.append_of_mem (List.mem_map_of_mem (f := Prod.fst) hop)
      exact ⟨m₁, m₂, [], by rw [hm]⟩

/-- An operation that has taken effect answers. -/
theorem Linearization.respond (hl : Linearization spec s₀ h order s) {i : Nat} {op : α} {r : ρ}
    (hi : (i, op, r) ∈ order) : Linearization spec s₀ (h ++ [.respond i r]) order s := by
  refine ⟨hl.legal, hl.nodup, fun hm => List.mem_append_left _ (hl.invoked hm), ?_, ?_⟩
  · intro i' r' hm
    rcases List.mem_append.1 hm with hm | hm
    · exact hl.answered hm
    · cases List.mem_singleton.1 hm
      exact ⟨op, hi⟩
  · intro i' j hp hj
    rcases precedes_append hp with hp | ⟨⟨op', he⟩, -⟩
    · exact hl.realtime hp hj
    · cases he

/-! ## What the processes are doing. -/

/-- A linearization together with the operation each process is at: its number,
and its result once it has taken effect.  `next` is the next number. -/
structure Ledger {ι : Type*} (spec : σ → α → σ × ρ) (s₀ : σ) (next : Nat)
    (h : List (Event α ρ)) (status : ι → Option (Nat × α × Option ρ))
    (order : List (Nat × α × ρ)) (s : σ) : Prop where
  lin : Linearization spec s₀ h order s
  running : ∀ {t i op r}, status t = some (i, op, r) → .invoke i op ∈ h
  done : ∀ {t i op r}, status t = some (i, op, some r) → (i, op, r) ∈ order
  todo : ∀ {t i op}, status t = some (i, op, none) → i ∉ order.map Prod.fst
  unique : ∀ {t t' i op op' r r'}, status t = some (i, op, r) → status t' = some (i, op', r') →
    t = t'
  fresh : ∀ {i op}, .invoke i op ∈ h → i < next
  settled : ∀ {i op r}, (i, op, r) ∈ order →
    .respond i r ∈ h ∨ ∃ t, status t = some (i, op, some r)

variable {ι : Type*} [DecidableEq ι] {next : Nat} {status : ι → Option (Nat × α × Option ρ)}
  {t : ι}

omit [DecidableEq ι] in
theorem Ledger.nil : Ledger spec s₀ 0 [] (fun _ : ι => none) [] s₀ := by
  refine ⟨Linearization.nil, ?_, ?_, ?_, ?_, ?_, ?_⟩ <;> simp

/-- Reading an updated status. -/
theorem update_status {t' : ι} {x : Option (Nat × α × Option ρ)} {y : Nat × α × Option ρ}
    (h : Function.update status t x t' = some y) :
    (t' = t ∧ x = some y) ∨ (t' ≠ t ∧ status t' = some y) := by
  by_cases ht : t' = t
  · subst ht
    rw [Function.update_self] at h
    exact Or.inl ⟨rfl, h⟩
  · rw [Function.update_of_ne ht] at h
    exact Or.inr ⟨ht, h⟩

/-- A process without an operation invokes one. -/
theorem Ledger.invoke (hl : Ledger spec s₀ next h status order s) (ht : status t = none)
    (op : α) : Ledger spec s₀ (next + 1) (h ++ [.invoke next op])
      (Function.update status t (some (next, op, none))) order s := by
  have hnew : next ∉ order.map Prod.fst := by
    intro hm
    obtain ⟨⟨i, op', r⟩, hmem, rfl⟩ := List.mem_map.1 hm
    exact absurd (hl.fresh (hl.lin.invoked hmem)) (Nat.lt_irrefl _)
  refine ⟨hl.lin.invoke op hnew, ?_, ?_, ?_, ?_, ?_, ?_⟩
  · intro t' i op' r hs
    rcases update_status hs with ⟨-, he⟩ | ⟨-, hs⟩
    · cases he; simp
    · exact List.mem_append_left _ (hl.running hs)
  · intro t' i op' r hs
    rcases update_status hs with ⟨-, he⟩ | ⟨-, hs⟩
    · cases he
    · exact hl.done hs
  · intro t' i op' hs
    rcases update_status hs with ⟨-, he⟩ | ⟨-, hs⟩
    · cases he; exact hnew
    · exact hl.todo hs
  · intro t₁ t₂ i op₁ op₂ r₁ r₂ h₁ h₂
    rcases update_status h₁ with ⟨e₁, he₁⟩ | ⟨e₁, hs₁⟩ <;>
      rcases update_status h₂ with ⟨e₂, he₂⟩ | ⟨e₂, hs₂⟩
    · exact e₁.trans e₂.symm
    · cases he₁
      exact absurd (hl.fresh (hl.running hs₂)) (Nat.lt_irrefl _)
    · cases he₂
      exact absurd (hl.fresh (hl.running hs₁)) (Nat.lt_irrefl _)
    · exact hl.unique hs₁ hs₂
  · intro i op' hm
    rcases List.mem_append.1 hm with hm | hm
    · exact Nat.lt_succ_of_lt (hl.fresh hm)
    · cases List.mem_singleton.1 hm
      exact Nat.lt_succ_self _
  · intro i op' r hm
    rcases hl.settled hm with hr | ⟨t', hs⟩
    · exact Or.inl (List.mem_append_left _ hr)
    · refine Or.inr ⟨t', ?_⟩
      rw [Function.update_of_ne]
      · exact hs
      · rintro rfl
        rw [ht] at hs
        cases hs

/-- **The operation of a process takes effect.** -/
theorem Ledger.commit (hl : Ledger spec s₀ next h status order s) {i : Nat} {op : α}
    (ht : status t = some (i, op, none)) :
    Ledger spec s₀ next h (Function.update status t (some (i, op, some (spec s op).2)))
      (order ++ [(i, op, (spec s op).2)]) (spec s op).1 := by
  refine ⟨hl.lin.commit (hl.running ht) (hl.todo ht), ?_, ?_, ?_, ?_, hl.fresh, ?_⟩
  · intro t' i' op' r hs
    rcases update_status hs with ⟨-, he⟩ | ⟨-, hs⟩
    · cases he; exact hl.running ht
    · exact hl.running hs
  · intro t' i' op' r hs
    rcases update_status hs with ⟨-, he⟩ | ⟨-, hs⟩
    · cases he; simp
    · exact List.mem_append_left _ (hl.done hs)
  · intro t' i' op' hs
    rcases update_status hs with ⟨-, he⟩ | ⟨hne, hs'⟩
    · cases he
    · simp only [List.map_append, List.map_cons, List.map_nil, List.mem_append,
        List.mem_singleton, not_or]
      refine ⟨hl.todo hs', ?_⟩
      rintro rfl
      exact hne (hl.unique hs' ht)
  · intro t₁ t₂ i' op₁ op₂ r₁ r₂ h₁ h₂
    rcases update_status h₁ with ⟨e₁, he₁⟩ | ⟨-, hs₁⟩ <;>
      rcases update_status h₂ with ⟨e₂, he₂⟩ | ⟨-, hs₂⟩
    · exact e₁.trans e₂.symm
    · cases he₁
      exact e₁.trans (hl.unique ht hs₂)
    · cases he₂
      exact (hl.unique hs₁ ht).trans e₂.symm
    · exact hl.unique hs₁ hs₂
  · intro i' op' r hm
    rcases List.mem_append.1 hm with hm | hm
    · rcases hl.settled hm with hr | ⟨t', hs⟩
      · exact Or.inl hr
      · refine Or.inr ⟨t', ?_⟩
        rw [Function.update_of_ne]
        · exact hs
        · rintro rfl
          rw [ht] at hs
          cases hs
    · cases List.mem_singleton.1 hm
      exact Or.inr ⟨t, Function.update_self ..⟩

/-- A process whose operation has taken effect answers. -/
theorem Ledger.respond (hl : Ledger spec s₀ next h status order s) {i : Nat} {op : α} {r : ρ}
    (ht : status t = some (i, op, some r)) :
    Ledger spec s₀ next (h ++ [.respond i r]) (Function.update status t none) order s := by
  have hkeep : ∀ {t' y}, Function.update status t none t' = some y → status t' = some y := by
    intro t' y hs
    rcases update_status hs with ⟨-, he⟩ | ⟨-, hs⟩
    · cases he
    · exact hs
  refine ⟨hl.lin.respond (hl.done ht), ?_, ?_, ?_, ?_, ?_, ?_⟩
  · exact fun hs => List.mem_append_left _ (hl.running (hkeep hs))
  · exact fun hs => hl.done (hkeep hs)
  · exact fun hs => hl.todo (hkeep hs)
  · exact fun h₁ h₂ => hl.unique (hkeep h₁) (hkeep h₂)
  · intro i' op' hm
    rcases List.mem_append.1 hm with hm | hm
    · exact hl.fresh hm
    · cases List.mem_singleton.1 hm
  · intro i' op' r' hm
    rcases hl.settled hm with hr | ⟨t', hs⟩
    · exact Or.inl (List.mem_append_left _ hr)
    · by_cases htt : t' = t
      · subst htt
        rw [ht] at hs
        cases hs
        exact Or.inl (by simp)
      · exact Or.inr ⟨t', by rw [Function.update_of_ne htt]; exact hs⟩

end Linearize
