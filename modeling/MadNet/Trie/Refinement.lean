import MadNet.Trie.Batches
import MadNet.Trie.Keys

/-!
# The trie refines the tree

An update of a tree that the store holds leaves a store that holds the updated tree, and `get` reads
the tree. Nothing is assumed about the order of the keys.
-/

namespace MadNet.Trie

open Radix Prog Heap Trie.Batch

variable {D : Type} {H : Hasher D}

/-! ## Loading -/

variable {s s' : Store D} {b : Batch D} {i h : Nat} {T l r : Tree Key D} {root : Option (Node D)}

def AtIndex (H : Hasher D) (b : Batch D) (i h : Nat) (T : Tree Key D) : Prop :=
  h % 4 ≠ 0 → i ≠ 0 ∧ b.slot i = (ref H h T).map .node

theorem isShortcut_ref : Slot.isShortcut ((ref H h T).map .node) = T.isLeaf := by
  cases T <;> rfl

theorem root_cases (hroot : root.map (·.hash) = (ref H h T).map (·.hash)) :
    root = none ∧ T = .empty ∨ ∃ n n', root = some n ∧ ref H h T = some n' ∧ n.hash = n'.hash := by
  cases href : ref H h T with
  | none =>
    rw [href] at hroot
    exact .inl ⟨Option.map_eq_none_iff.mp hroot, ref_eq_none.mp href⟩
  | some n' =>
    rw [href] at hroot
    obtain ⟨n, hn, hhash⟩ := Option.map_eq_some_iff.mp hroot
    exact .inr ⟨n, n', hn, rfl, hhash⟩

/-- The children of a tree are loaded, with the batch that holds them. -/
theorem loadChildren_spec (hs : Sound H s) (hT : Complete H s h T)
    (hroot : root.map (·.hash) = (ref H h T).map (·.hash)) (hi : AtIndex H b i h T)
    (hb : Below H b (h % 4) i h T) :
    ∃ b' i', s.loadChildren root h i b = .ok (b', i', leftSlot H h T, rightSlot H h T, T.isLeaf) ∧
      Below H b' ((h + 3) % 4 + 1) i' h T ∧ (i' = 0 ↔ h % 4 = 0) ∧
      (h % 4 ≠ 0 → b' = b ∧ i' = i) := by
  by_cases hh : h % 4 = 0
  · have hlevels : (h + 3) % 4 + 1 = 4 := by omega
    rw [hlevels]
    rcases root_cases hroot with ⟨rfl, rfl⟩ | ⟨n, n', rfl, href, hhash⟩
    · refine ⟨.empty, 0, ?_, ?_, by simp [hh], fun hne => absurd hh hne⟩
      · simp [Store.loadChildren, hh, leftSlot, rightSlot, Radix.Tree.left, Radix.Tree.right,
          ref, Tree.isLeaf]
      · exact below_empty fun _ _ => rfl
    · obtain ⟨b', hb'⟩ := hT.available hh n' href
      have hrep := hs n'.hash b' hb' h T n' href rfl
      refine ⟨b', 0, ?_, hrep.below, by simp [hh], fun hne => absurd hh hne⟩
      simp only [Store.loadChildren, if_pos hh, hhash, hb', bind, Except.bind, pure, Except.pure,
        hrep.isShortcut]
      rw [hrep.below.1, hrep.below.2.1]
  · have hlevels : (h + 3) % 4 + 1 = h % 4 := by omega
    obtain ⟨hi0, hslot⟩ := hi hh
    have hshort : Slot.isShortcut (b.slot i) = T.isLeaf := hslot ▸ isShortcut_ref
    rw [← hlevels] at hb
    refine ⟨b, i, ?_, hb, by simp [hi0, hh], fun _ => ⟨rfl, rfl⟩⟩
    simp only [Store.loadChildren, if_neg hh, hshort, hb.1, hb.2.1]

theorem asNode_map (n : Option (Node D)) : Slot.asNode (n.map .node) = .ok n := by
  cases n <;> rfl

/-! ## Reading -/

theorem Store.get_shortcut {n : Node D} {k : Key} {v : D} {b' : Batch D} {i' : Nat}
    (hload : s.loadChildren (some n) h i b = .ok (b', i', some (.key k), some (.value v), true))
    (key : Key) : s.get key h (some n) b i = .ok ((Tree.leaf k v).get bitIsSet key (256 - h)) := by
  cases h <;>
    simp [Store.get, hload, Slot.asShortcut, bind, Except.bind, pure, Except.pure, Radix.Tree.get]

/-- `get` reads the tree that the store holds. -/
theorem get_spec (hs : Sound H s) (hh : h ≤ 256) (hT : Complete H s h T)
    (hroot : root.map (·.hash) = (ref H h T).map (·.hash)) (hi : AtIndex H b i h T)
    (hb : Below H b (h % 4) i h T) (key : Key) :
    s.get key h root b i = .ok (T.get bitIsSet key (256 - h)) := by
  induction h generalizing T root b i with
  | zero =>
    rcases root_cases hroot with ⟨rfl, rfl⟩ | ⟨n, n', rfl, -, -⟩
    · rfl
    · obtain ⟨b', i', hload, -⟩ := loadChildren_spec hs hT hroot hi hb
      cases T with
      | empty => simp [ref] at hroot
      | leaf k v => exact Store.get_shortcut hload key
      | node l r => exact absurd hT.1 (by omega)
  | succ h ih =>
    rcases root_cases hroot with ⟨rfl, rfl⟩ | ⟨n, n', rfl, -, -⟩
    · rfl
    · obtain ⟨b', i', hload, hbelow, -⟩ := loadChildren_spec hs hT hroot hi hb
      rw [show (h + 1 + 3) % 4 = h % 4 by omega] at hbelow
      cases T with
      | empty => simp [ref] at hroot
      | leaf k v => exact Store.get_shortcut hload key
      | node l r =>
        obtain ⟨hsl, hsr, hbl, hbr⟩ := hbelow
        obtain ⟨-, -, hTl, hTr⟩ := hT
        have hgetl := ih (by omega) hTl rfl (fun _ => ⟨by omega, hsl⟩) hbl
        have hgetr := ih (by omega) hTr rfl (fun _ => ⟨by omega, hsr⟩) hbr
        rw [show 256 - h = 256 - (h + 1) + 1 by omega] at hgetl hgetr
        have hl : leftSlot H (h + 1) (.node l r) = (ref H h l).map .node := rfl
        have hr : rightSlot H (h + 1) (.node l r) = (ref H h r).map .node := rfl
        simp only [Store.get, hload, hl, hr, bind, Except.bind, Tree.isLeaf, Bool.false_eq_true,
          if_false, Radix.Tree.get, asNode_map, hgetl, hgetr]
        split <;> rfl

/-! ## Writing -/

section Write

variable [DecidableEq D] (hH : H.CollisionFree)

/-- Batches that represent trees have been recorded; the database has not changed. -/
structure Records (H : Hasher D) (s s' : Store D) : Prop where
  db : s'.db = s.db
  recorded : ∀ d b, s'.updatedNodes d = some b → s.updatedNodes d = some b ∨
    ∃ h T n, ref H h T = some n ∧ n.hash = d ∧ Represents H b h T

omit [DecidableEq D] in
theorem Records.refl : Records H s s := ⟨rfl, fun _ _ => .inl⟩

omit [DecidableEq D] in
theorem Records.trans {s1 : Store D} (h1 : Records H s s1) (h2 : Records H s1 s') :
    Records H s s' := by
  refine ⟨h2.db.trans h1.db, fun d b hb => ?_⟩
  rcases h2.recorded d b hb with hold | hnew
  · exact h1.recorded d b hold
  · exact .inr hnew

/-- The store and the batch after an update of the subtree at an index. -/
structure Updated (H : Hasher D) (s : Store D) (b : Batch D) (i h : Nat) (x : Tree Key D × Bool)
    (res : Result D) (s' : Store D) : Prop where
  node : res.2.1 = ref H h x.1
  deleted : res.2.2 = x.2
  sound : Sound H s'
  available : ∀ d, Available s d → Available s' d
  records : Records H s s'
  complete : Complete H s' h x.1
  below : Below H res.1 (h % 4) i h x.1
  frame : ∀ y, ¬Under i y → res.1.slot y = b.slot y

omit [DecidableEq D] in
theorem Below.levels (hb : Below H b ((h + 3) % 4 + 1) i h T) : Below H b (h % 4) i h T := by
  by_cases hh : h % 4 = 0
  · rw [hh]
    trivial
  · rwa [show (h + 3) % 4 + 1 = h % 4 by omega] at hb

include hH in
theorem storeNode_spec {n : Node D} (hs : Sound H s) (hrep : Represents H b h T)
    (hT : ref H h T = some n) (hold : ∀ m ∈ root, Available s m.hash) :
    wp (storeNode b n root) (fun _ s' => Sound H s' ∧ (∀ d, Available s d → Available s' d) ∧
      Records H s s' ∧ Available s' n.hash) (fun _ _ => False) s := by
  unfold storeNode
  rw [wp_ite, wp_modify, wp_pure]
  refine ⟨fun _ => ?_, fun hroot => ⟨hs, fun _ => id, .refl, hold n (not_not.mp hroot).symm⟩⟩
  have hload (d) : Store.loadBatch { s with
      updatedNodes := Function.update s.updatedNodes n.hash (some b) } d =
      if d = n.hash then .ok b else s.loadBatch d := by
    unfold Store.loadBatch
    by_cases hd : d = n.hash
    · simp [hd]
    · simp [hd, Function.update_of_ne]
  refine ⟨fun d b' hb' h' T' n' href hhash => ?_, fun d hd => ?_, ⟨rfl, fun d b' hb' => ?_⟩, b,
    by rw [hload, if_pos rfl]⟩
  · rw [hload] at hb'
    split at hb'
    next hd =>
      cases hb'
      -- the new batch represents whatever has its hash
      have hdig : digest H (ref H h T) = digest H (ref H h' T') := by
        rw [hT, href]
        exact (hhash.trans hd).symm
      have href' := digest_ref_inj hH hdig
      obtain rfl := ref_inj hH href'
      exact ⟨hrep.isShortcut, hrep.below.of_ref hH href'⟩
    next => exact hs d b' hb' h' T' n' href hhash
  · obtain ⟨b', hb'⟩ := hd
    unfold Available
    rw [hload]
    split
    · exact ⟨b, rfl⟩
    · exact ⟨b', hb'⟩
  · replace hb' : Function.update s.updatedNodes n.hash (some b) d = some b' := hb'
    by_cases hd : d = n.hash
    · rw [hd, Function.update_self] at hb'
      cases hb'
      exact .inr ⟨h, T, n, hT, hd.symm, hrep⟩
    · rw [Function.update_of_ne hd] at hb'
      exact .inl hb'

include hH in
/-- The slots of the children are set, and the batch is stored at the heights at which batches
begin. -/
theorem setChildren_spec {n : Node D} {m : Nat} (hs : Sound H s) (hn : ref H h T = some n)
    (hm : (h + 3) % 4 = m) (hbl : Below H b m (2 * i + 1) (h - 1) T.left)
    (hbr : Below H b m (2 * i + 2) (h - 1) T.right) (hi : h % 4 = 0 → i = 0)
    (hroot : h % 4 = 0 → ∀ m ∈ root, Available s m.hash)
    (hcomplete : ∀ s' : Store D, (∀ d, Available s d → Available s' d) →
      (h % 4 = 0 → Available s' n.hash) → Complete H s' h T) :
    let b' := (b.set (2 * i + 2) (rightSlot H h T)).set (2 * i + 1) (leftSlot H h T)
    wp (if h % 4 = 0 then do
        storeNode { b' with isShortcut := T.isLeaf } n root
        return ({ b' with isShortcut := T.isLeaf }, n)
      else return (b', n))
      (fun res s' => Updated H s b i h (T, false) (res.1, some res.2, false) s')
        (fun _ _ => False) s := by
  intro b'
  subst hm
  have hslot (x) (hx1 : x ≠ 2 * i + 1) (hx2 : x ≠ 2 * i + 2) : b'.slot x = b.slot x :=
    (set_slot_of_ne _ hx1).trans (set_slot_of_ne _ hx2)
  have hbelow (c) : Below H { b' with isShortcut := c } ((h + 3) % 4 + 1) i h T := by
    refine Below.set_children rfl rfl hbl hbr hslot (set_slot_self ..) ?_
    exact (set_slot_of_ne _ (by omega)).trans (set_slot_self ..)
  have hframe (y) (hy : ¬Under i y) : b'.slot y = b.slot y :=
    hslot y (ne_of_not_under hy).1 (ne_of_not_under hy).2
  rw [wp_ite]
  refine ⟨fun hh => ?_, fun hh => ?_⟩
  · rw [wp_bind]
    have hrep : Represents H { b' with isShortcut := T.isLeaf } h T := by
      refine ⟨rfl, ?_⟩
      have := hbelow T.isLeaf
      rwa [show (h + 3) % 4 + 1 = 4 by omega, hi hh] at this
    refine wp_mono (storeNode_spec hH hs hrep hn (hroot hh)) (fun _ s' hs' => ?_) fun _ _ => id
    obtain ⟨hsound, havail, hrecords, hnew⟩ := hs'
    exact ⟨hn.symm, rfl, hsound, havail, hrecords, hcomplete s' havail fun _ => hnew,
      (hbelow T.isLeaf).levels, hframe⟩
  · exact ⟨hn.symm, rfl, hs, fun _ => id, .refl, hcomplete s (fun _ => id) fun hh' => absurd hh' hh,
      (hbelow b'.isShortcut).levels, hframe⟩

include hH in
theorem leafHash_spec {k : Key} {v : D} (hs : Sound H s)
    (hb : Below H b ((h + 3) % 4 + 1) i h .empty)
    (hi : h % 4 = 0 → i = 0) (hroot : h % 4 = 0 → ∀ m ∈ root, Available s m.hash) :
    wp (leafHash H k v root b i h)
      (fun res s' => Updated H s b i h (.leaf k v, false) (res.1, some res.2, false) s')
      (fun _ _ => False) s :=
  setChildren_spec (T := .leaf k v) hH hs rfl rfl hb.2.2.1 hb.2.2.2 hi hroot fun _ _ hnew => hnew

omit [DecidableEq D] in
theorem hashChildren_ref (hne : ¬(l = .empty ∧ r = .empty)) :
    hashChildren H (ref H h l) (ref H h r) =
      .ok (H.interior (digest H (ref H h l)) (digest H (ref H h r))) := by
  cases hl : ref H h l with
  | none =>
    cases hr : ref H h r with
    | none => exact absurd ⟨ref_eq_none.mp hl, ref_eq_none.mp hr⟩ hne
    | some n => rfl
  | some m =>
    cases hr : ref H h r with
    | none | some n => rfl

include hH in
theorem interiorHash_spec (hs : Sound H s) (hl : Complete H s h l) (hr : Complete H s h r)
    (hbl : Below H b (h % 4) (2 * i + 1) h l) (hbr : Below H b (h % 4) (2 * i + 2) h r)
    (hi : (h + 1) % 4 = 0 → i = 0) (hroot : (h + 1) % 4 = 0 → ∀ m ∈ root, Available s m.hash)
    (hne : ¬(l = .empty ∧ r = .empty)) :
    wp (interiorHash H (ref H h l) (ref H h r) root b i (h + 1))
      (fun res s' => Updated H s b i (h + 1) (.node l r, false) (res.1, some res.2, false) s')
      (fun _ _ => False) s := by
  unfold interiorHash
  rw [hashChildren_ref hne, wp_bind, wp_of_ok (ofExcept_ok_apply _)]
  exact setChildren_spec (T := .node l r) (m := h % 4) hH hs rfl (by omega) hbl hbr hi hroot
    fun _ havail hnew =>
    ⟨by omega, hnew, hl.mono havail, hr.mono havail⟩

omit [DecidableEq D] in
/-- The key and the value of a shortcut are loaded, whether the batch says that it is one or not. -/
theorem loadChildren_shortcut {n : Node D} {k : Key} {v : D} (hs : Sound H s)
    (hT : Complete H s h (.leaf k v)) (hn : ref H h (.leaf k v) = some n)
    (hb : Below H b (h % 4) i h (.leaf k v)) :
    ∃ b' i' c, s.loadChildren (some n) h i b = .ok (b', i', some (.key k), some (.value v), c) := by
  unfold Store.loadChildren
  by_cases hh : h % 4 = 0
  · obtain ⟨b', hb'⟩ := hT.available hh n hn
    have hrep := hs n.hash b' hb' h _ n hn rfl
    refine ⟨b', 0, true, ?_⟩
    simp only [if_pos hh, hb', bind, Except.bind, pure, Except.pure, hrep.isShortcut]
    rw [hrep.below.1, hrep.below.2.1]
    rfl
  · obtain ⟨m, hm⟩ : ∃ m, h % 4 = m + 1 := ⟨h % 4 - 1, by omega⟩
    rw [hm] at hb
    refine ⟨b, i, Slot.isShortcut (b.slot i), ?_⟩
    rw [if_neg hh, hb.1, hb.2.1]
    rfl

omit [DecidableEq D] in
/-- A shortcut whose key and value are cleared. -/
theorem Below.clear {b' : Batch D} {n : Nat} {k : Key} {v : D} (hb : Below H b n i h (.leaf k v))
    (hclear : n ≠ 0 → b'.slot (2 * i + 1) = none ∧ b'.slot (2 * i + 2) = none)
    (hslot : ∀ x, Under i x → x ≠ 2 * i + 1 → x ≠ 2 * i + 2 → b'.slot x = b.slot x) :
    Below H b' n i h .empty := by
  cases n with
  | zero => trivial
  | succ n =>
    obtain ⟨hl, hr⟩ := hclear (by omega)
    obtain ⟨-, -, hbl, hbr⟩ := hb
    refine ⟨hl, hr, hbl.congr fun x hx => ?_, hbr.congr fun x hx => ?_⟩
    · have := hx.le
      exact hslot x hx.of_left (by omega) (by omega)
    · have := hx.le
      exact hslot x hx.of_right (by omega) (by omega)

/-- A shortcut `j` that has no sibling. -/
inductive Alone (k : Key) (v : D) (i : Nat) : Tree Key D → Tree Key D → Nat → Prop where
  | left : Alone k v i (.leaf k v) .empty (2 * i + 1)
  | right : Alone k v i .empty (.leaf k v) (2 * i + 2)

omit [DecidableEq D] in
theorem Below.moveUp {b' : Batch D} {n j : Nat} {k : Key} {v : D} (halone : Alone k v i l r j)
    (hbl : Below H b n (2 * i + 1) h l) (hbr : Below H b n (2 * i + 2) h r)
    (hk : b'.slot (2 * i + 1) = some (.key k)) (hv : b'.slot (2 * i + 2) = some (.value v))
    (hclear : n ≠ 0 → b'.slot (2 * j + 1) = none ∧ b'.slot (2 * j + 2) = none)
    (hslot : ∀ x, x ≠ 2 * i + 1 → x ≠ 2 * i + 2 → x ≠ 2 * j + 1 → x ≠ 2 * j + 2 →
      b'.slot x = b.slot x) : Below H b' (n + 1) i (h + 1) (.leaf k v) := by
  cases halone with
  | left =>
    refine ⟨hk, hv, hbl.clear hclear fun x hx h1 h2 => ?_, hbr.congr fun x hx => ?_⟩
    · have := hx.le
      exact hslot x (by omega) (by omega) h1 h2
    · have := hx.le
      refine hslot x (by omega) (by omega) ?_ ?_
      · rintro rfl
        exact under_left.not_both hx
      · rintro rfl
        exact under_right.not_both hx
  | right =>
    refine ⟨hk, hv, hbl.congr fun x hx => ?_, hbr.clear hclear fun x hx h1 h2 => ?_⟩
    · have := hx.le
      have hne : x ≠ 2 * i + 2 := by
        rintro rfl
        omega
      refine hslot x (by omega) hne ?_ ?_
      · rintro rfl
        exact hx.not_both under_left
      · rintro rfl
        exact hx.not_both under_right
    · have := hx.le
      exact hslot x (by omega) (by omega) h1 h2

include hH in
theorem moveUpShortcut_spec {n : Node D} {j : Nat} {k : Key} {v : D} (hs : Sound H s)
    (hT : Complete H s h (.leaf k v)) (hn : ref H h (.leaf k v) = some n)
    (halone : Alone k v i l r j)
    (hbl : Below H b (h % 4) (2 * i + 1) h l) (hbr : Below H b (h % 4) (2 * i + 2) h r)
    (hi : i = 0 ↔ (h + 1) % 4 = 0) (hroot : (h + 1) % 4 = 0 → ∀ m ∈ root, Available s m.hash) :
    wp (moveUpShortcut H n root b i j (h + 1)) (Updated H s b i (h + 1) (.leaf k v, true))
      (fun _ _ => False) s := by
  have hbj : Below H b (h % 4) j h (.leaf k v) := by
    cases halone with
    | left => exact hbl
    | right => exact hbr
  have hj : ∀ y, Under j y → Under i y := by
    cases halone with
    | left => exact fun y hy => hy.of_left
    | right => exact fun y hy => hy.of_right
  have hji : 2 * i + 1 ≤ j := by cases halone <;> omega
  obtain ⟨b', i', c, hload⟩ := loadChildren_shortcut hs hT hn hbj
  let moved := (b.set (2 * i + 1) (some (.key k))).set (2 * i + 2) (some (.value v))
  let cleared := (moved.set (2 * j + 1) none).set (2 * j + 2) none
  have hmoved (y) (h1 : y ≠ 2 * i + 1) (h2 : y ≠ 2 * i + 2) : moved.slot y = b.slot y :=
    (set_slot_of_ne _ h2).trans (set_slot_of_ne _ h1)
  have hcleared (y) (h1 : y ≠ 2 * j + 1) (h2 : y ≠ 2 * j + 2) : cleared.slot y = moved.slot y :=
    (set_slot_of_ne _ h2).trans (set_slot_of_ne _ h1)
  have hk : moved.slot (2 * i + 1) = some (.key k) :=
    (set_slot_of_ne _ (by omega)).trans (set_slot_self ..)
  have hv : moved.slot (2 * i + 2) = some (.value v) := set_slot_self ..
  have hbelow (c) : Below H { cleared with isShortcut := c } (h % 4 + 1) i (h + 1) (.leaf k v) := by
    refine Below.moveUp halone hbl hbr ((hcleared _ (by omega) (by omega)).trans hk)
      ((hcleared _ (by omega) (by omega)).trans hv) (fun _ => ⟨?_, ?_⟩) fun x h1 h2 h3 h4 =>
      (hcleared x h3 h4).trans (hmoved x h1 h2)
    · exact (set_slot_of_ne _ (by omega)).trans (set_slot_self ..)
    · exact set_slot_self ..
  have hframe (y) (hy : ¬Under i y) : moved.slot y = b.slot y :=
    hmoved y (ne_of_not_under hy).1 (ne_of_not_under hy).2
  have hframe' (y) (hy : ¬Under i y) : cleared.slot y = b.slot y := by
    obtain ⟨h1, h2⟩ := ne_of_not_under fun h => hy (hj y h)
    exact (hcleared y h1 h2).trans (hframe y hy)
  have hlevels : (h + 1 + 3) % 4 = h % 4 := by omega
  unfold moveUpShortcut
  rw [wp_bind, wp_get, wp_bind, Nat.add_sub_cancel, hload, wp_of_ok (ofExcept_ok_apply _), wp_bind,
    Slot.asShortcut, wp_of_ok (ofExcept_ok_apply _)]
  rw [wp_ite, wp_ite]
  refine ⟨fun hi0 => ?_, fun hi0 => ⟨fun hh => ?_, fun hh => ?_⟩⟩
  · -- the shortcut becomes a batch of its own
    have hh := hi.mp hi0
    have hrep : Represents H { cleared with isShortcut := true } (h + 1) (.leaf k v) := by
      refine ⟨rfl, ?_⟩
      have := hbelow true
      rwa [show h % 4 + 1 = 4 by omega, hi0] at this
    rw [wp_bind]
    refine wp_mono (storeNode_spec hH hs hrep rfl (hroot hh)) (fun _ s' hs' => ?_) fun _ _ => id
    obtain ⟨hsound, havail, hrecords, hnew⟩ := hs'
    refine ⟨rfl, rfl, hsound, havail, hrecords, fun _ => hnew, Below.levels ?_, hframe'⟩
    rw [hlevels]
    exact hbelow true
  · refine ⟨rfl, rfl, hs, fun _ => id, .refl, fun hh' => absurd (hi.mpr hh') hi0,
      Below.levels ?_, hframe⟩
    rw [hlevels]
    rw [hh] at hbl hbr ⊢
    exact ⟨hk, hv, trivial, trivial⟩
  · refine ⟨rfl, rfl, hs, fun _ => id, .refl, fun hh' => absurd (hi.mpr hh') hi0,
      Below.levels ?_, hframe'⟩
    rw [hlevels]
    exact hbelow cleared.isShortcut

omit [DecidableEq D] in
theorem Below.clearChildren {n : Nat} (hbl : Below H b n (2 * i + 1) h .empty)
    (hbr : Below H b n (2 * i + 2) h .empty) :
    Below H ((b.set (2 * i + 1) none).set (2 * i + 2) none) (n + 1) i (h + 1) .empty ∧
      ∀ y, ¬Under i y → ((b.set (2 * i + 1) none).set (2 * i + 2) none).slot y = b.slot y := by
  have hslot (y) (h1 : y ≠ 2 * i + 1) (h2 : y ≠ 2 * i + 2) :
      ((b.set (2 * i + 1) none).set (2 * i + 2) none).slot y = b.slot y :=
    (set_slot_of_ne _ h2).trans (set_slot_of_ne _ h1)
  refine ⟨Below.set_children rfl rfl hbl hbr hslot ?_ (set_slot_self ..), fun y hy => ?_⟩
  · exact (set_slot_of_ne _ (by omega)).trans (set_slot_self ..)
  · exact hslot y (ne_of_not_under hy).1 (ne_of_not_under hy).2

include hH in
/-- The end of an update of one or both children. -/
theorem join_spec {deleted : Bool} (hs : Sound H s) (hl : Complete H s h l) (hr : Complete H s h r)
    (hbl : Below H b (h % 4) (2 * i + 1) h l) (hbr : Below H b (h % 4) (2 * i + 2) h r)
    (hi : i = 0 ↔ (h + 1) % 4 = 0) (hroot : (h + 1) % 4 = 0 → ∀ m ∈ root, Available s m.hash)
    (hne : deleted = false → ¬(l = .empty ∧ r = .empty)) :
    wp (join H (ref H h l) (ref H h r) root b i (h + 1) deleted)
      (Updated H s b i (h + 1) (joinTree l r deleted)) (fun _ _ => False) s := by
  have hinterior := interiorHash_spec hH hs hl hr hbl hbr hi.mpr hroot
  cases deleted with
  | false =>
    simp only [join, Bool.false_eq_true, if_false, wp_bind]
    exact hinterior (hne rfl)
  | true =>
    simp only [join, if_true, wp_bind]
    have hstay (hmove : maybeMoveUpShortcut H (ref H h l) (ref H h r) root b i (h + 1) = pure none)
        (hne : ¬(l = .empty ∧ r = .empty)) :
        wp (join H (ref H h l) (ref H h r) root b i (h + 1) true)
          (Updated H s b i (h + 1) (.node l r, false)) (fun _ _ => False) s := by
      simp only [join, if_true, hmove, wp_bind, wp_pure]
      exact hinterior hne
    cases l with
    | empty =>
      cases r with
      | empty =>
        obtain ⟨hempty, hframe⟩ := Below.clearChildren hbl hbr
        refine ⟨rfl, rfl, hs, fun _ => id, .refl, trivial, ?_, fun y hy => ?_⟩
        · dsimp only
          split
          next hi0 =>
            rw [hi.mp hi0]
            trivial
          next hi0 =>
            rw [show (h + 1) % 4 = h % 4 + 1 by omega]
            exact hempty
        · dsimp only
          split
          next => rfl
          next => exact hframe y hy
      | leaf k v =>
        have hmove : maybeMoveUpShortcut H (ref H h .empty) (ref H h (.leaf k v)) root b i (h + 1) =
          some <$> moveUpShortcut H _ root b i (2 * i + 2) (h + 1) := rfl
        rw [hmove, wp_map]
        exact moveUpShortcut_spec hH hs hr rfl .right hbl hbr hi hroot
      | node r1 r2 => exact hstay rfl (by simp)
    | leaf k v =>
      cases r with
      | empty =>
        have hmove : maybeMoveUpShortcut H (ref H h (.leaf k v)) (ref H h .empty) root b i (h + 1) =
          some <$> moveUpShortcut H _ root b i (2 * i + 1) (h + 1) := rfl
        rw [hmove, wp_map]
        exact moveUpShortcut_spec hH hs hl rfl .left hbl hbr hi hroot
      | leaf k' v' | node r1 r2 => exact hstay rfl (by simp)
    | node l1 l2 =>
      cases r with
      | empty | leaf k' v' | node r1 r2 => exact hstay rfl (by simp)

/-- What an update of a subtree at height `h` does. -/
def UpdateSpec (H : Hasher D) (h : Nat) : Prop :=
  ∀ {T root kvs b i s}, kvs ≠ [] → Sound H s → Complete H s h T →
    root.map (·.hash) = (ref H h T).map (·.hash) → AtIndex H b i h T → Below H b (h % 4) i h T →
    wp (update H h root kvs b i) (Updated H s b i h (updateTree H h T kvs)) (fun _ _ => False) s

omit [DecidableEq D] in
theorem Updated.trans {b' : Batch D} {s1 : Store D} {x : Tree Key D × Bool} {res : Result D}
    (hu : Updated H s1 b' i h x res s') (havail : ∀ d, Available s d → Available s1 d)
    (hrecords : Records H s s1) (hframe : ∀ y, ¬Under i y → b'.slot y = b.slot y) :
    Updated H s b i h x res s' :=
  { hu with
    available := fun d hd => hu.available d (havail d hd)
    records := hrecords.trans hu.records
    frame := fun y hy => (hu.frame y hy).trans (hframe y hy) }

section Children

variable {kvs : List (Key × D)} (hrec : UpdateSpec H h) (hkvs : kvs ≠ [])
  (hs : Sound H s) (hl : Complete H s h l) (hr : Complete H s h r)
  (hsl : b.slot (2 * i + 1) = (ref H h l).map .node)
  (hsr : b.slot (2 * i + 2) = (ref H h r).map .node)
  (hbl : Below H b (h % 4) (2 * i + 1) h l) (hbr : Below H b (h % 4) (2 * i + 2) h r)
  (hi : i = 0 ↔ (h + 1) % 4 = 0) (hroot : (h + 1) % 4 = 0 → ∀ m ∈ root, Available s m.hash)
include hH hrec hkvs hs hl hr hsl hsr hbl hbr hi hroot

theorem updateChildren_spec :
    wp (updateChildren H (update H h) (ref H h l) (ref H h r) root kvs b i (h + 1))
      (Updated H s b i (h + 1) (updateChildrenTree (updateTree H h) l r kvs (h + 1)))
      (fun _ _ => False) s := by
  cases hsplit : splitKeys kvs (256 - (h + 1)) with
  | mk lkvs rkvs =>
    have happend := splitKeys_append hsplit
    have hleft (kvs) (hkvs : kvs ≠ []) := hrec hkvs hs hl rfl (fun _ => ⟨by omega, hsl⟩) hbl
    unfold updateChildren updateChildrenTree
    rw [hsplit]
    cases lkvs with
    | nil =>
      cases rkvs with
      | nil => exact absurd happend.symm hkvs
      | cons kv rkvs =>
        rw [wp_bind]
        refine wp_mono (hrec hkvs hs hr rfl (fun _ => ⟨by omega, hsr⟩) hbr) ?_ fun _ _ => id
        rintro ⟨b1, n, del⟩ s1 hu
        obtain rfl : n = _ := hu.node
        obtain rfl : del = _ := hu.deleted
        have hbl' := hbl.congr fun x hx => hu.frame x hx.not_both
        refine wp_mono (join_spec hH hu.sound (hl.mono hu.available) hu.complete hbl' hu.below hi
          (fun hh m hm => hu.available _ (hroot hh m hm)) ?_) (fun _ _ hj =>
            hj.trans hu.available hu.records
          fun y hy => hu.frame y fun hy' => hy hy'.of_right) fun _ _ => id
        intro hdel hempty
        exact absurd (flagged_updateTree H hempty.2) (by simp [hdel])
    | cons kv lkvs =>
      cases rkvs with
      | nil =>
        rw [wp_bind]
        refine wp_mono (hleft kvs hkvs) ?_ fun _ _ => id
        rintro ⟨b1, n, del⟩ s1 hu
        obtain rfl : n = _ := hu.node
        obtain rfl : del = _ := hu.deleted
        have hbr' := hbr.congr fun x hx => hu.frame x fun hx' => hx'.not_both hx
        refine wp_mono (join_spec hH hu.sound hu.complete (hr.mono hu.available) hu.below hbr' hi
          (fun hh m hm => hu.available _ (hroot hh m hm)) ?_) (fun _ _ hj =>
            hj.trans hu.available hu.records
          fun y hy => hu.frame y fun hy' => hy hy'.of_left) fun _ _ => id
        intro hdel hempty
        exact absurd (flagged_updateTree H hempty.1) (by simp [hdel])
      | cons kv' rkvs =>
        rw [wp_bind]
        refine wp_mono (hleft (kv :: lkvs) (by simp)) ?_ fun _ _ => id
        rintro ⟨b1, n, del⟩ s1 hu
        obtain rfl : n = _ := hu.node
        obtain rfl : del = _ := hu.deleted
        -- the left update has not touched what the right one reads
        have hbr' := hbr.congr fun x hx => hu.frame x fun hx' => hx'.not_both hx
        have hsr' : b1.slot (2 * i + 2) = (ref H h r).map .node := by
          refine (hu.frame _ fun hx => ?_).trans hsr
          have := hx.le
          omega
        rw [wp_bind]
        refine wp_mono (hrec (List.cons_ne_nil kv' rkvs) hu.sound (hr.mono hu.available) rfl
          (fun _ => ⟨by omega, hsr'⟩) hbr') ?_ fun _ _ => id
        rintro ⟨b2, n, del⟩ s2 hu2
        obtain rfl : n = _ := hu2.node
        obtain rfl : del = _ := hu2.deleted
        have hbl' := hu.below.congr fun x hx => hu2.frame x hx.not_both
        refine wp_mono (join_spec hH hu2.sound (hu.complete.mono hu2.available) hu2.complete hbl'
          hu2.below hi (fun hh m hm => hu2.available _ (hu.available _ (hroot hh m hm))) ?_)
          (fun _ _ hj => hj.trans (fun d hd => hu2.available d (hu.available d hd))
            (hu.records.trans hu2.records) fun y hy =>
              (hu2.frame y fun hy' => hy hy'.of_right).trans (hu.frame y fun hy' => hy hy'.of_left))
          fun _ _ => id
        intro hdel hempty
        exact absurd (flagged_updateTree H hempty.1) (by simp_all)

theorem updateNode_spec :
    wp (updateNode H (update H h) (ref H h l) (ref H h r) root kvs b i (h + 1))
      (Updated H s b i (h + 1) (updateNodeTree H (updateTree H h) l r kvs (h + 1)))
      (fun _ _ => False) s := by
  have hchildren := updateChildren_spec hH hrec hkvs hs hl hr hsl hsr hbl hbr hi hroot
  unfold updateNodeTree
  split
  next k v =>
    have hempty : Below H b ((h + 1 + 3) % 4 + 1) i (h + 1) .empty := by
      rw [show (h + 1 + 3) % 4 = h % 4 by omega]
      exact ⟨hsl, hsr, hbl, hbr⟩
    simp only [updateNode, ref]
    rw [wp_ite]
    refine ⟨fun hv => ?_, fun hv => ?_⟩
    · rw [if_pos hv, wp_pure]
      exact ⟨rfl, rfl, hs, fun _ => id, .refl, trivial, hempty.levels, fun _ _ => rfl⟩
    · rw [if_neg hv, wp_bind]
      exact leafHash_spec hH hs hempty hi.mpr hroot
  next hnot =>
    unfold updateNode
    split
    next hl hr => exact absurd rfl (hnot _ _ (ref_eq_none.mp hl) (ref_eq_none.mp hr))
    next => exact hchildren

end Children

include hH in
theorem updateLoaded_spec {kvs : List (Key × D)} (hrec : UpdateSpec H h) (hkvs : kvs ≠ [])
    (hs : Sound H s) (hT : Complete H s (h + 1) T) (hb : Below H b (h % 4 + 1) i (h + 1) T)
    (hi : i = 0 ↔ (h + 1) % 4 = 0) (hroot : (h + 1) % 4 = 0 → ∀ m ∈ root, Available s m.hash) :
    wp (updateLoaded H (update H h) root kvs b i (h + 1) (leftSlot H (h + 1) T)
        (rightSlot H (h + 1) T) T.isLeaf)
      (Updated H s b i (h + 1) (updateTree H (h + 1) T kvs)) (fun _ _ => False) s := by
  obtain ⟨hsl, hsr, hbl, hbr⟩ := hb
  by_cases hleaf : T.isLeaf = false
  · rw [leftSlot_of_not_leaf hleaf] at hsl ⊢
    rw [rightSlot_of_not_leaf hleaf] at hsr ⊢
    rw [updateTree_of_not_leaf H hleaf]
    simp only [updateLoaded, hleaf, Bool.false_eq_true, if_false, wp_bind, asNode_map]
    exact updateNode_spec hH hrec hkvs hs hT.left hT.right hsl hsr hbl hbr hi hroot
  · cases T with
    | empty | node l r => exact absurd rfl hleaf
    | leaf k v =>
      let b' := (b.set (2 * i + 1) none).set (2 * i + 2) none
      obtain ⟨hempty, hframe⟩ : Below H b' (h % 4 + 1) i (h + 1) .empty ∧
        ∀ y, ¬Under i y → b'.slot y = b.slot y := Below.clearChildren hbl hbr
      simp only [updateLoaded, Tree.isLeaf, if_true, wp_bind, leftSlot, rightSlot, Slot.asShortcut]
      rw [wp_of_ok (ofExcept_ok_apply _), updateTree]
      rw [wp_ite]
      refine ⟨fun hkvs' => ?_, fun hkvs' => ?_⟩
      · rw [if_pos hkvs', wp_pure]
        refine ⟨rfl, rfl, hs, fun _ => id, .refl, trivial, Below.levels ?_, hframe⟩
        rw [show (h + 1 + 3) % 4 = h % 4 by omega]
        exact hempty
      · rw [if_neg hkvs']
        refine wp_mono (updateNode_spec hH hrec (fun h0 => hkvs' (List.isEmpty_iff.mpr h0)) hs
          (l := .empty) (r := .empty) trivial trivial hempty.1 hempty.2.1 hempty.2.2.1
          hempty.2.2.2 hi hroot)
          (fun _ _ hu => hu.trans (fun _ => id) .refl hframe) fun _ _ => id

include hH in
/-- An update of a tree that the store holds leaves a store that holds the updated tree. -/
theorem update_spec (h : Nat) : UpdateSpec H h := by
  induction h with
  | zero =>
    intro T root kvs b i s hkvs hs hT hroot _ _
    have havail : ∀ m ∈ root, Available s m.hash := by
      intro m hm
      rcases root_cases hroot with ⟨rfl, -⟩ | ⟨n, n', rfl, href, hhash⟩
      · cases hm
      · cases hm
        rw [hhash]
        exact hT.available rfl n' href
    cases kvs with
    | nil => exact absurd rfl hkvs
    | cons kv kvs =>
      simp only [update, updateTree]
      rw [wp_ite]
      refine ⟨fun hv => ?_, fun hv => ?_⟩
      · rw [if_pos hv, wp_pure]
        exact ⟨rfl, rfl, hs, fun _ => id, .refl, trivial, trivial, fun _ _ => rfl⟩
      · rw [if_neg hv, wp_bind]
        have hempty : Below H (.empty : Batch D) 4 0 0 .empty := below_empty fun _ _ => rfl
        refine wp_mono (leafHash_spec hH hs hempty (fun _ => rfl) fun _ => havail)
          (fun res s' hu => ?_) fun _ _ => id
        exact ⟨hu.node, rfl, hu.sound, hu.available, hu.records, hu.complete, trivial,
          fun _ _ => rfl⟩
  | succ h ih =>
    intro T root kvs b i s hkvs hs hT hroot hi hb
    obtain ⟨b', i', hload, hbelow, hi', hsame⟩ := loadChildren_spec hs hT hroot hi hb
    rw [show (h + 1 + 3) % 4 = h % 4 by omega] at hbelow
    have havail : (h + 1) % 4 = 0 → ∀ m ∈ root, Available s m.hash := by
      intro hh m hm
      rcases root_cases hroot with ⟨rfl, -⟩ | ⟨n, n', rfl, href, hhash⟩
      · cases hm
      · cases hm
        rw [hhash]
        exact hT.available hh n' href
    have hinner := updateLoaded_spec hH ih hkvs hs hT hbelow hi' havail
    have hempty : kvs.isEmpty = false := List.isEmpty_eq_false_iff.mpr hkvs
    simp only [update, hempty, Bool.false_eq_true, if_false, wp_bind, wp_get, hload]
    rw [wp_of_ok (ofExcept_ok_apply _), wp_bind]
    refine wp_mono hinner ?_ fun _ _ => id
    rintro ⟨b1, n, del⟩ s1 hu
    refine ⟨hu.node, hu.deleted, hu.sound, hu.available, hu.records, hu.complete, ?_,
      fun y hy => ?_⟩
    · dsimp only
      split
      next hh =>
        rw [hh]
        trivial
      next hh =>
        rw [(hsame hh).2] at hu
        exact hu.below
    · dsimp only
      split
      next => rfl
      next hh =>
        rw [(hsame hh).1, (hsame hh).2] at hu
        exact hu.frame y hy

end Write

end MadNet.Trie
