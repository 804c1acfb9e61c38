/-
  NvmTree.OnDisk.Reads — the operations that only read, over the block store.

  `locate_key`, `get_leftmost_leaf_node` and `toString` load the children of an
  instance they are called on and close them again.  What `get` has loaded is not
  marked modified, so `close` writes none of it back: whatever the store holds, and
  whatever the instance at the top, these calls leave the store as it is.

  Main results:
    * `getLeftmostLeafNode_same`, `locateKey_same`, `toString_same` — nothing is
      written.
    * `getLeftmostLeafNode_ends`, `locateKey_ends`, `toString_ends` — on the blocks of
      a tree the calls return.
-/
import NvmTree.OnDisk.Refine

namespace NvmTree

open RangeTree

variable {K V : Type*}

/-! ## §1. The code. -/

section Text

variable [ToString K] [ToString V]

/-- `toString` of a leaf. -/
def LeafNode.toString (n : LeafNode K V) : String :=
  " ".intercalate (n.entries.map (fun e =>
    "(" ++ ToString.toString e.1 ++ "," ++ ToString.toString e.2 ++ ")"))

/-- `keys_to_string`: all keys but the first. -/
def InnerNode.keysToString (n : InnerNode K) : String :=
  " ".intercalate ((n.slots.drop 1).map (fun s => ToString.toString s.1))

end Text

namespace Disk

section Code

variable [LinearOrder K]

/-- `locate_key`: the leaf and the position, or an inner `none` when an inner node
returns before it has set them. -/
def locateKey : Nat → Disk K V → Node K V → K → Option (Disk K V × Option (BlkAddress × Nat))
  | 0, _, _, _ => none
  | _ + 1, d, .leaf n, k => some (d, some (n.selfRep, (n.searchKeyPosition k).2))
  | fuel + 1, d, .inner n, k =>
      let local_index := n.locateChildIndex k
      if local_index < 0 then some (d, none)
      else
        match n.slots[local_index.toNat]? with
        | none => none
        | some (_, c) =>
            match d.get c with
            | none => none
            | some child =>
                match locateKey fuel d child k with
                | none => none
                | some (d, ret) => some (d.close c child, ret)

end Code

/-- The loop of `nodes_to_string`, with `text` for `toString` of a child. -/
def nodesToString (text : Disk K V → Node K V → Option (Disk K V × String)) :
    Disk K V → List BlkAddress → Option (Disk K V × List String)
  | d, [] => some (d, [])
  | d, c :: cs =>
      match d.get c with
      | none => none
      | some node =>
          match text d node with
          | none => none
          | some (d, ret) =>
              (nodesToString text (d.close c node) cs).map (fun p => (p.1, ("[" ++ ret ++ "]") :: p.2))

/-- `toString` of an instance. -/
def toString [ToString K] [ToString V] : Nat → Disk K V → Node K V → Option (Disk K V × String)
  | 0, _, _ => none
  | _ + 1, d, .leaf n => some (d, n.toString)
  | fuel + 1, d, .inner n =>
      (nodesToString (toString fuel) d (n.slots.map Prod.snd)).map (fun p =>
        (p.1, n.keysToString ++ " " ++ " ".intercalate p.2))

/-! ## §2. Nothing is written. -/

variable {d d' : Disk K V} {c : BlkAddress} {n : Node K V}

theorem Same.refl (d : Disk K V) : d.Same d := ⟨rfl, rfl⟩

/-- What is read is the same. -/
theorem Same.get (h : d.Same d') (c : BlkAddress) : d'.get c = d.get c := by
  unfold Disk.get read isAddressValid
  rw [h.blocks, h.alloc]

/-- A loaded instance is closed as it was. -/
theorem close_same (hget : d'.get c = some n) : d.Same (d.close c n) := by
  have hclean : n.modified = false := by
    obtain ⟨b, -, rfl⟩ := Option.map_eq_some_iff.1 hget
    cases b <;> rfl
  refine ⟨?_, close_alloc ..⟩
  unfold close
  rw [hclean, if_neg Bool.false_ne_true]

theorem getLeftmostLeafNode_same : ∀ (fuel : Nat) {d d' : Disk K V} {n : Node K V}
    {leaf : BlkAddress}, d.getLeftmostLeafNode fuel n = some (d', leaf) → d.Same d' := by
  intro fuel
  induction fuel with
  | zero => intro d d' n leaf heq; cases heq
  | succ fuel ih =>
      intro d d' n leaf heq
      cases n with
      | leaf n =>
          cases heq
          exact .refl d
      | inner n =>
          rw [getLeftmostLeafNode] at heq
          split at heq
          · cases heq
          split at heq
          · cases heq
          next child hget =>
            split at heq
            · cases heq
            next d₁ ret hrec =>
              cases heq
              exact (ih hrec).trans (close_same hget)

theorem locateKey_same [LinearOrder K] {k : K} : ∀ (fuel : Nat) {d d' : Disk K V} {n : Node K V}
    {r : Option (BlkAddress × Nat)}, d.locateKey fuel n k = some (d', r) → d.Same d' := by
  intro fuel
  induction fuel with
  | zero => intro d d' n r heq; cases heq
  | succ fuel ih =>
      intro d d' n r heq
      cases n with
      | leaf n =>
          cases heq
          exact .refl d
      | inner n =>
          rw [locateKey] at heq
          split at heq
          · cases heq
            exact .refl d
          split at heq
          · cases heq
          split at heq
          · cases heq
          next child hget =>
            split at heq
            · cases heq
            next d₁ ret hrec =>
              cases heq
              exact (ih hrec).trans (close_same hget)

theorem nodesToString_same {text : Disk K V → Node K V → Option (Disk K V × String)}
    (htext : ∀ {d d' : Disk K V} {n : Node K V} {t : String}, text d n = some (d', t) → d.Same d') :
    ∀ {cs : List BlkAddress} {d d' : Disk K V} {ts : List String},
      nodesToString text d cs = some (d', ts) → d.Same d' := by
  intro cs
  induction cs with
  | nil =>
      intro d d' ts heq
      cases heq
      exact .refl d
  | cons c cs ih =>
      intro d d' ts heq
      rw [nodesToString] at heq
      split at heq
      · cases heq
      next node hget =>
        split at heq
        · cases heq
        next d₁ ret hrec =>
          obtain ⟨p, hp, hpair⟩ := Option.map_eq_some_iff.1 heq
          cases hpair
          exact ((htext hrec).trans (close_same hget)).trans (ih hp)

theorem toString_same [ToString K] [ToString V] : ∀ (fuel : Nat) {d d' : Disk K V} {n : Node K V}
    {t : String}, d.toString fuel n = some (d', t) → d.Same d' := by
  intro fuel
  induction fuel with
  | zero => intro d d' n t heq; cases heq
  | succ fuel ih =>
      intro d d' n t heq
      cases n with
      | leaf n =>
          cases heq
          exact .refl d
      | inner n =>
          obtain ⟨p, hp, hpair⟩ := Option.map_eq_some_iff.1 heq
          cases hpair
          exact nodesToString_same ih hp

/-! ## §3. On the blocks of a tree the calls return. -/

section Ends

variable [LinearOrder K] {E : Store K V BlkAddress} {G : Plan K BlkAddress}
  {row : List (K × BlkAddress)} {depth : Nat}

/-- The blocks of the nodes of a tree can be read. -/
def Readable (d : Disk K V) (E : Store K V BlkAddress) (G : Plan K BlkAddress) : Prop :=
  ∀ a sp, G a = some sp → ∃ n, d.get a = some n ∧ E a = some n.shape

omit [LinearOrder K] in
theorem Readable.same (h : d.Readable E G) (hsame : d.Same d') : d'.Readable E G :=
  fun a sp hG => by rw [hsame.get]; exact h a sp hG

/-- A child of an instance is one level down and can be loaded. -/
theorem Readable.child (h : d.Readable E G) (ht : Tree E G row depth) {a : BlkAddress}
    {sp : Span K} {n : InnerNode K} (hG : G a = some sp) (hE : E a = some (.inner n.slots)) {k : K}
    (hm : (k, c) ∈ n.slots) :
    ∃ sc child, G c = some sc ∧ sc.level + 1 = sp.level ∧ d.get c = some child
      ∧ E c = some child.shape := by
  obtain ⟨sc, hc, hl, -⟩ := ht.child hG hE hm
  obtain ⟨child, hget, hEc⟩ := h c sc hc
  exact ⟨sc, child, hc, hl, hget, hEc⟩

theorem getLeftmostLeafNode_ends (ht : Tree E G row depth) (hd : d.Readable E G) :
    ∀ (fuel : Nat) {a : BlkAddress} {sp : Span K} {n : Node K V}, sp.level ≤ fuel →
      G a = some sp → E a = some n.shape → ∃ r, d.getLeftmostLeafNode fuel n = some r := by
  intro fuel
  induction fuel with
  | zero =>
      intro a sp n hfuel hG
      have := ht.level_pos hG
      omega
  | succ fuel ih =>
      intro a sp n hfuel hG hE
      cases n with
      | leaf n => exact ⟨_, rfl⟩
      | inner n =>
          obtain ⟨⟨k₀, c⟩, rest, hslots⟩ :=
            List.exists_cons_of_ne_nil (ht.innerOk hG hE).covers.ne_nil
          obtain ⟨sc, child, hc, hl, hget, hEc⟩ :=
            hd.child ht hG hE (show (k₀, c) ∈ n.slots by rw [hslots]; simp)
          obtain ⟨r, hr⟩ := ih (show sc.level ≤ fuel by omega) hc hEc
          refine ⟨(r.1.close c child, r.2), ?_⟩
          simp only [getLeftmostLeafNode, hslots, List.getElem?_cons_zero, hget, hr]

/-- `locate_key` finds a leaf if some stored key is not above `k`. -/
theorem locateKey_ends (ht : Tree E G row depth) (hd : d.Readable E G) {k k' : K} {v : V}
    (hheld : Holds E G k' v) (hle : k' ≤ k) :
    ∀ (fuel : Nat) {a : BlkAddress} {sp : Span K} {n : Node K V}, sp.level ≤ fuel →
      G a = some sp → E a = some n.shape → sp.Has k →
      ∃ d' p, d.locateKey fuel n k = some (d', some p) := by
  intro fuel
  induction fuel with
  | zero =>
      intro a sp n hfuel hG
      have := ht.level_pos hG
      omega
  | succ fuel ih =>
      intro a sp n hfuel hG hE hk
      cases n with
      | leaf n => exact ⟨_, _, rfl⟩
      | inner n =>
          have hin := ht.innerOk hG hE
          rcases InnerNode.locateChildIndex_cases k hin.sorted with ⟨-, hbelow⟩ | ⟨xs, ki, c, ys,
            hslots, hidx, hki, hys⟩
          · -- below every slot only on the left edge, and there nothing is stored below `k`
            exfalso
            rcases hin.head with hbot | ⟨k₀, c₀, rest, hslots, hlo⟩
            · have hk' : sp.Has k' := by
                refine ⟨hbot ▸ bot_le, lt_of_le_of_lt (key_le_key.2 hle) hk.2⟩
              refine ht.not_holds_of_below _ rfl hG hE hk' (fun x hx => ?_) hheld
              obtain ⟨s, hs, rfl⟩ := List.mem_map.1 hx
              exact hle.trans_lt (hbelow s hs)
            · have hlt : k < k₀ := hbelow (k₀, c₀) (by rw [hslots]; simp)
              exact absurd hk.1 (by rw [hlo]; exact not_le.2 (key_lt_key.2 hlt))
          · have hE' : E a = some (.inner (xs ++ (ki, c) :: ys)) := by
              rw [hE, Node.shape, hslots]
            obtain ⟨sc, hc, hl, hkc⟩ := ht.locate hG hE' hk (fun _ => hki) hys
            obtain ⟨child, hget, hEc⟩ := hd c sc hc
            obtain ⟨d', p, hr⟩ := ih (show sc.level ≤ fuel by omega) hc hEc hkc
            have hneg : ¬ n.locateChildIndex k < 0 := by rw [hidx]; omega
            have hpos : n.slots[(n.locateChildIndex k).toNat]? = some (ki, c) := by
              rw [hidx, hslots]; exact ListSplit.getElem?_at
            refine ⟨d'.close c child, p, ?_⟩
            simp only [locateKey, hneg, if_false, hpos, hget, hr]

omit [LinearOrder K] in
theorem nodesToString_ends {text : Disk K V → Node K V → Option (Disk K V × String)}
    (hsame : ∀ {d d' : Disk K V} {n : Node K V} {t : String}, text d n = some (d', t) → d.Same d') :
    ∀ {cs : List BlkAddress} {d : Disk K V}, d.Readable E G →
      (∀ c ∈ cs, ∃ child, d.get c = some child ∧
        ∀ {d' : Disk K V}, d'.Readable E G → ∃ r, text d' child = some r) →
      ∃ r, nodesToString text d cs = some r := by
  intro cs
  induction cs with
  | nil => exact fun _ _ => ⟨_, rfl⟩
  | cons c cs ih =>
      intro d hd hcs
      obtain ⟨child, hget, htext⟩ := hcs c List.mem_cons_self
      obtain ⟨⟨d₁, ret⟩, hret⟩ := htext hd
      have hsame₁ : d.Same (d₁.close c child) := (hsame hret).trans (close_same hget)
      obtain ⟨r, hr⟩ := ih (hd.same hsame₁) (fun c' hc' => by
        rw [hsame₁.get]
        exact hcs c' (List.mem_cons_of_mem _ hc'))
      refine ⟨(r.1, ("[" ++ ret ++ "]") :: r.2), ?_⟩
      simp only [nodesToString, hget, hret, hr, Option.map_some]

theorem toString_ends [ToString K] [ToString V] (ht : Tree E G row depth) :
    ∀ (fuel : Nat) {d : Disk K V} {a : BlkAddress} {sp : Span K} {n : Node K V}, d.Readable E G →
      sp.level ≤ fuel → G a = some sp → E a = some n.shape → ∃ r, d.toString fuel n = some r := by
  intro fuel
  induction fuel with
  | zero =>
      intro d a sp n _ hfuel hG
      have := ht.level_pos hG
      omega
  | succ fuel ih =>
      intro d a sp n hd hfuel hG hE
      cases n with
      | leaf n => exact ⟨_, rfl⟩
      | inner n =>
          have hchildren : ∀ c ∈ n.slots.map Prod.snd, ∃ child, d.get c = some child ∧
              ∀ {d' : Disk K V}, d'.Readable E G → ∃ r, d'.toString fuel child = some r := by
            intro c hc
            obtain ⟨⟨k, c⟩, hm, rfl⟩ := List.mem_map.1 hc
            obtain ⟨sc, child, hG', hl, hget, hEc⟩ := hd.child ht hG hE hm
            exact ⟨child, hget, fun hd' => ih hd' (by omega) hG' hEc⟩
          obtain ⟨r, hr⟩ := nodesToString_ends (toString_same fuel) hd hchildren
          exact ⟨_, by rw [toString, hr, Option.map_some]⟩

end Ends

end Disk

end NvmTree
