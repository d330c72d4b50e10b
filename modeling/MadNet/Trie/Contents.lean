import MadNet.Trie.Keys
import MadNet.Trie.Tree

/-!
# What an update does to the entries

On a compact tree with every key in its place, an update with keys in strictly increasing order sets
and deletes exactly these keys and leaves such a tree, unless it deletes the key of a shortcut
together with smaller and larger keys of the same subtree.
-/

namespace MadNet.Trie

open Radix List

variable {D : Type} {H : Hasher D} {h p : Nat} {T l r : Tree Key D} {kvs : List (Key × D)}

/-- A compact tree at a height, with its keys in their places. -/
structure Good (H : Hasher D) (h p : Nat) (T : Tree Key D) : Prop where
  placed : T.Placed bitIsSet (256 - h)
  compact : T.Compact
  hasPrefix : ∀ e ∈ T.entries, HasPrefix h p e.1
  values : ∀ e ∈ T.entries, e.2 ≠ H.defaultLeaf

/-- Keys and values that may be given to an update of a tree with these entries. -/
structure Applicable (H : Hasher D) (h p : Nat) (entries kvs : List (Key × D)) : Prop where
  sorted : Sorted kvs
  nonempty : kvs ≠ []
  hasPrefix : ∀ e ∈ kvs, HasPrefix h p e.1
  present : ∀ k, (k, H.defaultLeaf) ∈ kvs → ∃ v, (k, v) ∈ entries

/-- The entries after an update. -/
def Applied (H : Hasher D) (entries kvs : List (Key × D)) (e : Key × D) : Prop :=
  e ∈ kvs ∧ e.2 ≠ H.defaultLeaf ∨ e ∈ entries ∧ ∀ v, (e.1, v) ∉ kvs

/-- Where the key of a shortcut is deleted, the other keys are all smaller or all larger. -/
def NoClash (H : Hasher D) : Nat → Tree Key D → List (Key × D) → Prop
  | _, .empty, _ => True
  | _, .leaf s _, kvs =>
    (s, H.defaultLeaf) ∈ kvs → (∀ e ∈ kvs, ¬e.1 < s) ∨ ∀ e ∈ kvs, ¬s < e.1
  | h, .node l r, kvs =>
    NoClash H (h - 1) l (kvs.filter fun e => !bitIsSet e.1 (256 - h)) ∧
      NoClash H (h - 1) r (kvs.filter fun e => bitIsSet e.1 (256 - h))

theorem good_empty : Good H h p (.empty : Tree Key D) := by
  constructor <;> simp [Tree.Placed, Tree.Compact, Tree.entries]

theorem good_leaf {k : Key} {v : D} (hk : HasPrefix h p k) (hv : v ≠ H.defaultLeaf) :
    Good H h p (.leaf k v) := by
  constructor <;> simp [Tree.Placed, Tree.Compact, Tree.entries, hk, hv]

theorem Good.not_isLeaf (hT : Good H h p T) {e e' : Key × D} (he : e ∈ T.entries)
    (he' : e' ∈ T.entries) (hne : e.1 ≠ e'.1) : T.isLeaf = false := by
  cases T with
  | empty | node l r => rfl
  | leaf k v =>
    rw [mem_singleton.mp he, mem_singleton.mp he'] at hne
    exact absurd rfl hne

/-- A node with two subtrees in their places. -/
theorem good_node (hh : h < 256) (hl : Good H h (2 * p) l) (hr : Good H h (2 * p + 1) r)
    (hcompact : (l = .empty → r.isEmpty = false ∧ r.isLeaf = false) ∧
      (r = .empty → l.isEmpty = false ∧ l.isLeaf = false)) : Good H (h + 1) p (.node l r) := by
  have hdepth : 256 - (h + 1) + 1 = 256 - h := by omega
  refine ⟨⟨fun e he => ?_, fun e he => ?_, hdepth ▸ hl.placed, hdepth ▸ hr.placed⟩,
    ⟨hcompact.1, hcompact.2, hl.compact, hr.compact⟩, fun e he => ?_, fun e he => ?_⟩
  · exact (hl.hasPrefix e he).bit (c := 0) hh (by omega)
  · exact (hr.hasPrefix e he).bit hh (by omega)
  · rcases mem_append.mp he with he | he
    · exact (hl.hasPrefix e he).up (c := 0) (by omega)
    · exact (hr.hasPrefix e he).up (by omega)
  · rcases mem_append.mp he with he | he
    · exact hl.values e he
    · exact hr.values e he

theorem Good.left (hh : h < 256) (hT : Good H (h + 1) p (.node l r)) : Good H h (2 * p) l := by
  obtain ⟨hl, -, hpl, -⟩ := hT.placed
  rw [show 256 - (h + 1) + 1 = 256 - h by omega] at hpl
  exact ⟨hpl, hT.compact.2.2.1, fun e he => (hT.hasPrefix e (mem_append_left _ he)).left hh
    (hl e he), fun e he => hT.values e (mem_append_left _ he)⟩

theorem Good.right (hh : h < 256) (hT : Good H (h + 1) p (.node l r)) : Good H h (2 * p + 1) r := by
  obtain ⟨-, hr, -, hpr⟩ := hT.placed
  rw [show 256 - (h + 1) + 1 = 256 - h by omega] at hpr
  exact ⟨hpr, hT.compact.2.2.2, fun e he => (hT.hasPrefix e (mem_append_right _ he)).right hh
    (hr e he), fun e he => hT.values e (mem_append_right _ he)⟩

/-- Two keys do not fit below the last bit. -/
theorem Good.not_node_zero (hT : Good H 0 p (.node l r)) : False := by
  obtain ⟨e, he, e', he', hne⟩ := hT.compact.exists_ne hT.placed rfl rfl
  exact hne ((hT.hasPrefix e he).eq_of_zero (hT.hasPrefix e' he'))

theorem joinTree_good (deleted : Bool) (hh : h < 256) (hl : Good H h (2 * p) l)
    (hr : Good H h (2 * p + 1) r) (hcompact : deleted = false →
      (l = .empty → r.isEmpty = false ∧ r.isLeaf = false) ∧
      (r = .empty → l.isEmpty = false ∧ l.isLeaf = false)) :
    Good H (h + 1) p (joinTree l r deleted).1 ∧
      ∀ e, e ∈ (joinTree l r deleted).1.entries ↔ e ∈ l.entries ∨ e ∈ r.entries := by
  unfold joinTree
  split
  next => exact ⟨good_empty, by simp [Tree.entries]⟩
  next k v =>
    exact ⟨good_leaf ((hr.hasPrefix (k, v) (by simp [Tree.entries])).up (by omega))
      (hr.values (k, v) (by simp [Tree.entries])), by simp [Tree.entries]⟩
  next k v =>
    exact ⟨good_leaf ((hl.hasPrefix (k, v) (by simp [Tree.entries])).up (c := 0) (by omega))
      (hl.values (k, v) (by simp [Tree.entries])), by simp [Tree.entries]⟩
  next h1 h2 h3 =>
    refine ⟨good_node hh hl hr ?_, fun e => mem_append⟩
    cases deleted with
    | false => exact hcompact rfl
    | true =>
      refine ⟨?_, ?_⟩
      · rintro rfl
        cases r with
        | empty => exact absurd rfl (h1 rfl rfl)
        | leaf k v => exact absurd rfl (h2 k v rfl rfl)
        | node => exact ⟨rfl, rfl⟩
      · rintro rfl
        cases l with
        | empty => exact absurd rfl (h1 rfl rfl)
        | leaf k v => exact absurd rfl (h3 k v rfl rfl)
        | node => exact ⟨rfl, rfl⟩

/-- A leaf is what is left of a node only if something was deleted. -/
theorem joinTree_isLeaf {deleted : Bool} (hleaf : (joinTree l r deleted).1.isLeaf) :
    (joinTree l r deleted).2 = true := by
  revert hleaf
  unfold joinTree
  split <;> first | exact fun _ => rfl | nofun

/-! ## Children -/

/-- The keys on the two sides of a bit. -/
abbrev leftOf (kvs : List (Key × D)) (h : Nat) : List (Key × D) :=
  kvs.filter fun e => !bitIsSet e.1 (256 - (h + 1))

abbrev rightOf (kvs : List (Key × D)) (h : Nat) : List (Key × D) :=
  kvs.filter fun e => bitIsSet e.1 (256 - (h + 1))

section Sides

variable (hh : h < 256) (hl : Good H h (2 * p) l) (hr : Good H h (2 * p + 1) r)
  (hkvs : Applicable H (h + 1) p (l.entries ++ r.entries) kvs)
include hh hl hr

theorem applied_sides (e : Key × D) : Applied H (l.entries ++ r.entries) kvs e ↔
    Applied H l.entries (leftOf kvs h) e ∨ Applied H r.entries (rightOf kvs h) e := by
  have hbl (he : e ∈ l.entries) : bitIsSet e.1 (256 - (h + 1)) = false :=
    (hl.hasPrefix e he).bit (c := 0) hh (by omega)
  have hbr (he : e ∈ r.entries) : bitIsSet e.1 (256 - (h + 1)) = true :=
    (hr.hasPrefix e he).bit hh (by omega)
  unfold Applied leftOf rightOf
  simp only [mem_append, mem_filter, Bool.not_eq_true']
  cases hbit : bitIsSet e.1 (256 - (h + 1)) with
  | false =>
    have hnot : e ∉ r.entries := fun he => Bool.false_ne_true (hbit.symm.trans (hbr he))
    simp [hnot]
  | true =>
    have hnot : e ∉ l.entries := fun he => Bool.false_ne_true ((hbl he).symm.trans hbit)
    simp [hnot]

include hkvs

omit hl in
theorem Applicable.left (hne : leftOf kvs h ≠ []) :
    Applicable H h (2 * p) l.entries (leftOf kvs h) := by
  refine ⟨hkvs.sorted.filter _, hne, fun e he => ?_, fun k hk => ?_⟩
  · obtain ⟨he, hbit⟩ := mem_filter.mp he
    exact (hkvs.hasPrefix e he).left hh (by simpa using hbit)
  · obtain ⟨hk, hbit⟩ := mem_filter.mp hk
    obtain ⟨v, hv⟩ := hkvs.present k hk
    refine ⟨v, (mem_append.mp hv).resolve_right fun hv => ?_⟩
    have hset : bitIsSet k (256 - (h + 1)) = true := (hr.hasPrefix _ hv).bit hh (by omega)
    rw [hset] at hbit
    cases hbit

omit hr in
theorem Applicable.right (hne : rightOf kvs h ≠ []) :
    Applicable H h (2 * p + 1) r.entries (rightOf kvs h) := by
  refine ⟨hkvs.sorted.filter _, hne, fun e he => ?_, fun k hk => ?_⟩
  · obtain ⟨he, hbit⟩ := mem_filter.mp he
    exact (hkvs.hasPrefix e he).right hh hbit
  · obtain ⟨hk, hbit⟩ := mem_filter.mp hk
    obtain ⟨v, hv⟩ := hkvs.present k hk
    refine ⟨v, (mem_append.mp hv).resolve_left fun hv => ?_⟩
    have hset : bitIsSet k (256 - (h + 1)) = false := (hl.hasPrefix _ hv).bit (c := 0) hh (by omega)
    rw [hset] at hbit
    cases hbit

end Sides

section Update

variable [DecidableEq D]

/-- What an update at a height does. -/
def ContentsSpec (H : Hasher D) (h : Nat) : Prop :=
  ∀ {p T kvs}, Good H h p T → Applicable H h p T.entries kvs → NoClash H h T kvs →
    Good H h p (updateTree H h T kvs).1 ∧
      ∀ e, e ∈ (updateTree H h T kvs).1.entries ↔ Applied H T.entries kvs e

theorem updateTree_isLeaf (hT : Good H h p T) (hnode : T.isEmpty = false ∧ T.isLeaf = false)
    (hleaf : (updateTree H h T kvs).1.isLeaf) : (updateTree H h T kvs).2 = true := by
  cases T with
  | empty => cases hnode.1
  | leaf k v => cases hnode.2
  | node l r =>
    cases h with
    | zero => exact absurd hT.not_node_zero id
    | succ h =>
      have hne : ¬(l = .empty ∧ r = .empty) := fun ⟨hl, hr⟩ => by
        have := (hT.compact.1 hl).1
        simp [hr, Tree.isEmpty] at this
      revert hleaf
      simp only [updateTree, Radix.Tree.left, Radix.Tree.right]
      unfold updateNodeTree
      split
      next => exact absurd ⟨rfl, rfl⟩ hne
      next =>
        unfold updateChildrenTree
        split <;> exact joinTree_isLeaf

/-- A side that is updated is not left with a single key, unless something was deleted. -/
theorem ContentsSpec.compact (hspec : ContentsSpec H h) (hr : Good H h p r)
    (hkvs : Applicable H h p r.entries kvs) (hclash : NoClash H h r kvs)
    (hle : l = .empty → r ≠ .empty → r.isLeaf = false)
    (hboth : l = .empty → r = .empty → ∃ e ∈ kvs, ∃ e' ∈ kvs, e.1 ≠ e'.1)
    (hdel : (updateTree H h r kvs).2 = false) (hl : l = .empty) :
    (updateTree H h r kvs).1.isLeaf = false := by
  obtain ⟨hgood, hentries⟩ := hspec hr hkvs hclash
  by_cases hempty : r = .empty
  · subst hempty
    obtain ⟨e, he, e', he', hne⟩ := hboth hl rfl
    have hmem (e) (he : e ∈ kvs) : e ∈ (updateTree H h .empty kvs).1.entries := by
      refine (hentries e).mpr (.inl ⟨he, fun hv => ?_⟩)
      obtain ⟨v, hv⟩ := hkvs.present e.1 (hv ▸ he)
      cases hv
    exact hgood.not_isLeaf (hmem e he) (hmem e' he') hne
  · have hnode : r.isEmpty = false ∧ r.isLeaf = false := by
      refine ⟨?_, hle hl hempty⟩
      cases r with
      | empty => exact absurd rfl hempty
      | leaf k v | node l r => rfl
    cases hleaf : (updateTree H h r kvs).1.isLeaf with
    | false => rfl
    | true => exact absurd (updateTree_isLeaf hr hnode hleaf) (by simp [hdel])

theorem not_isEmpty_of_flag (hdel : (updateTree H h T kvs).2 = false) :
    (updateTree H h T kvs).1.isEmpty = false := by
  cases hT : (updateTree H h T kvs).1 with
  | empty => exact absurd (flagged_updateTree H hT) (by simp [hdel])
  | leaf k v | node l r => rfl

/-- The update of a side, which may get no keys. -/
def updateSide (H : Hasher D) (h : Nat) (T : Tree Key D) (kvs : List (Key × D)) :
    Tree Key D × Bool :=
  if kvs.isEmpty then (T, false) else updateTree H h T kvs

theorem updateChildrenTree_eq (hh : h < 256) (hsorted : Sorted kvs)
    (hp : ∀ e ∈ kvs, HasPrefix (h + 1) p e.1) (hne : kvs ≠ []) :
    updateChildrenTree (updateTree H h) l r kvs (h + 1) =
      joinTree (updateSide H h l (leftOf kvs h)).1 (updateSide H h r (rightOf kvs h)).1
        ((updateSide H h l (leftOf kvs h)).2 || (updateSide H h r (rightOf kvs h)).2) := by
  have hsplit : splitKeys kvs (256 - (h + 1)) = (leftOf kvs h, rightOf kvs h) :=
    splitKeys_eq hh hsorted hp
  have happend := splitKeys_append hsplit
  unfold updateChildrenTree
  rw [hsplit]
  cases hl : leftOf kvs h with
  | nil =>
    rw [hl, nil_append] at happend
    cases hr : rightOf kvs h with
    | nil => exact absurd (happend.symm.trans hr) hne
    | cons kv rkvs =>
      rw [hr] at happend
      simp [updateSide, happend, hne]
  | cons kv lkvs =>
    cases hr : rightOf kvs h with
    | nil =>
      rw [hl, hr, append_nil] at happend
      simp [updateSide, happend, hne]
    | cons kv' rkvs => simp [updateSide]

section Side

variable (hspec : ContentsSpec H h) (hT : Good H h p T)
  (hkvs : kvs ≠ [] → Applicable H h p T.entries kvs) (hclash : NoClash H h T kvs)
include hspec hT hkvs hclash

theorem ContentsSpec.side : Good H h p (updateSide H h T kvs).1 ∧
    ∀ e, e ∈ (updateSide H h T kvs).1.entries ↔ Applied H T.entries kvs e := by
  unfold updateSide
  cases kvs with
  | nil => exact ⟨hT, by simp [Applied]⟩
  | cons kv kvs => exact hspec hT (hkvs (by simp)) hclash

/-- Next to an empty side, a side that is updated has more than one key or something was deleted. -/
theorem ContentsSpec.compact_side {lkvs : List (Key × D)}
    (hside : lkvs = [] → kvs ≠ []) (hle : l = .empty → T ≠ .empty → T.isLeaf = false)
    (hboth : l = .empty → T = .empty → lkvs = [] → ∃ e ∈ kvs, ∃ e' ∈ kvs, e.1 ≠ e'.1)
    (hldel : (updateSide H h l lkvs).2 = false) (hdel : (updateSide H h T kvs).2 = false)
    (hl : (updateSide H h l lkvs).1 = .empty) :
    (updateSide H h T kvs).1.isEmpty = false ∧ (updateSide H h T kvs).1.isLeaf = false := by
  cases lkvs with
  | cons kv lkvs =>
    have hempty : (updateTree H h l (kv :: lkvs)).1.isEmpty = false := not_isEmpty_of_flag hldel
    rw [show (updateTree H h l (kv :: lkvs)).1 = .empty from hl] at hempty
    cases hempty
  | nil =>
    have hl : l = .empty := hl
    have hne := hside rfl
    have hupdate : updateSide H h T kvs = updateTree H h T kvs := by
      simp [updateSide, hne]
    rw [hupdate] at hdel ⊢
    exact ⟨not_isEmpty_of_flag hdel, hspec.compact hT (hkvs hne) hclash hle
      (fun h1 h2 => hboth h1 h2 rfl) hdel hl⟩

end Side

/-- An update of the two subtrees of a node, or of two empty ones with more than one key. -/
theorem ContentsSpec.children (hspec : ContentsSpec H h) (hh : h < 256) (hl : Good H h (2 * p) l)
    (hr : Good H h (2 * p + 1) r) (hkvs : Applicable H (h + 1) p (l.entries ++ r.entries) kvs)
    (hcl : NoClash H h l (leftOf kvs h)) (hcr : NoClash H h r (rightOf kvs h))
    (hle : l = .empty → r ≠ .empty → r.isLeaf = false)
    (hre : r = .empty → l ≠ .empty → l.isLeaf = false)
    (hboth : l = .empty → r = .empty → ∃ e ∈ kvs, ∃ e' ∈ kvs, e.1 ≠ e'.1) :
    Good H (h + 1) p (updateChildrenTree (updateTree H h) l r kvs (h + 1)).1 ∧
      ∀ e, e ∈ (updateChildrenTree (updateTree H h) l r kvs (h + 1)).1.entries ↔
        Applied H (l.entries ++ r.entries) kvs e := by
  have happend : leftOf kvs h ++ rightOf kvs h = kvs :=
    splitKeys_append (splitKeys_eq hh hkvs.sorted hkvs.hasPrefix)
  have hkl := hkvs.left hh hr
  have hkr := hkvs.right hh hl
  obtain ⟨hgl, hel⟩ := hspec.side hl hkl hcl
  obtain ⟨hgr, her⟩ := hspec.side hr hkr hcr
  rw [updateChildrenTree_eq hh hkvs.sorted hkvs.hasPrefix hkvs.nonempty]
  obtain ⟨hgood, hentries⟩ := joinTree_good ((updateSide H h l (leftOf kvs h)).2 ||
    (updateSide H h r (rightOf kvs h)).2) hh hgl hgr fun hdel => by
      obtain ⟨hldel, hrdel⟩ := Bool.or_eq_false_iff.mp hdel
      refine ⟨hspec.compact_side hr hkr hcr ?_ hle ?_ hldel hrdel,
        hspec.compact_side hl hkl hcl ?_ hre ?_ hrdel hldel⟩
      · rintro h1 h2
        exact hkvs.nonempty (by rw [← happend, h1, h2, append_nil])
      · intro h1 h2 h3
        rw [h3, nil_append] at happend
        rw [happend]
        exact hboth h1 h2
      · rintro h1 h2
        exact hkvs.nonempty (by rw [← happend, h1, h2, append_nil])
      · intro h1 h2 h3
        rw [h3, append_nil] at happend
        rw [happend]
        exact hboth h2 h1
  refine ⟨hgood, fun e => ?_⟩
  rw [hentries, hel, her, ← applied_sides hh hl hr]

omit [DecidableEq D] in
/-- Nothing can be deleted from an empty subtree. -/
theorem Applicable.applied_empty (hkvs : Applicable H h p [] kvs) (e : Key × D) :
    Applied H [] kvs e ↔ e ∈ kvs := by
  refine ⟨fun he => he.elim (·.1) fun he => absurd he.1 (by simp),
    fun he => .inl ⟨he, fun hv => ?_⟩⟩
  obtain ⟨v, hv⟩ := hkvs.present e.1 (hv ▸ he)
  cases hv

theorem ContentsSpec.empty (hspec : ContentsSpec H h) (hh : h < 256)
    (hkvs : Applicable H (h + 1) p [] kvs) :
    Good H (h + 1) p (updateNodeTree H (updateTree H h) .empty .empty kvs (h + 1)).1 ∧
      ∀ e, e ∈ (updateNodeTree H (updateTree H h) .empty .empty kvs (h + 1)).1.entries ↔
        Applied H [] kvs e := by
  cases kvs with
  | nil => exact absurd rfl hkvs.nonempty
  | cons kv kvs =>
    cases kvs with
    | nil =>
      obtain ⟨k, v⟩ := kv
      have hv : v ≠ H.defaultLeaf :=
        (((hkvs.applied_empty (k, v)).mpr (by simp)).resolve_right fun h => by cases h.1).2
      simp only [updateNodeTree, if_neg hv]
      exact ⟨good_leaf (hkvs.hasPrefix (k, v) (by simp)) hv, fun e => (hkvs.applied_empty e).symm⟩
    | cons kv' kvs =>
      have hne : kv.1 ≠ kv'.1 := fun heq => by
        have hlt := (pairwise_cons.mp hkvs.sorted).1 kv' (by simp)
        rw [heq] at hlt
        exact BitVec.lt_irrefl _ hlt
      exact hspec.children (l := .empty) (r := .empty) hh good_empty good_empty hkvs
        trivial trivial (fun _ hne => absurd rfl hne) (fun _ hne => absurd rfl hne)
        fun _ _ => ⟨kv, by simp, kv', by simp, hne⟩

omit [DecidableEq D] in
theorem mem_around {A B : List (Key × D)} {x e : Key × D} : e ∈ A ++ x :: B ↔
    e ∈ A ++ B ∨ e = x := by
  simp only [mem_append, mem_cons]
  tauto

/-- An update of a shortcut adds its key to the keys, unless they contain it. -/
theorem applicable_maybeAddShortcutToKV {s : Key} {sv : D} (hleaf : Good H h p (.leaf s sv))
    (hkvs : Applicable H h p [(s, sv)] kvs) (hclash : NoClash H h (.leaf s sv) kvs) :
    (maybeAddShortcutToKV H kvs s sv ≠ [] → Applicable H h p [] (maybeAddShortcutToKV H kvs s sv)) ∧
    ∀ e, e ∈ maybeAddShortcutToKV H kvs s sv ↔ Applied H [(s, sv)] kvs e := by
  have hs : HasPrefix h p s := hleaf.hasPrefix (s, sv) (by simp [Tree.entries])
  have hsv : sv ≠ H.defaultLeaf := hleaf.values (s, sv) (by simp [Tree.entries])
  -- only the key of the shortcut can be deleted
  have hdel (k) (hk : (k, H.defaultLeaf) ∈ kvs) : k = s := by
    obtain ⟨v, hv⟩ := hkvs.present k hk
    exact (Prod.mk.inj (mem_singleton.mp hv)).1
  suffices hsuff : Sorted (maybeAddShortcutToKV H kvs s sv) ∧
      ∀ e, e ∈ maybeAddShortcutToKV H kvs s sv ↔ Applied H [(s, sv)] kvs e by
    refine ⟨fun hne => ⟨hsuff.1, hne, fun e he => ?_, fun k hk => ?_⟩, hsuff.2⟩
    · rcases (hsuff.2 e).mp he with he | he
      · exact hkvs.hasPrefix e he.1
      · rw [mem_singleton.mp he.1]
        exact hs
    · rcases (hsuff.2 _).mp hk with hk | hk
      · exact absurd rfl hk.2
      · exact absurd (Prod.mk.inj (mem_singleton.mp hk.1)).2.symm hsv
  obtain ⟨A, M, B, rfl, hA, hB, hM⟩ := exists_around hkvs.sorted s
  have hsorted := hkvs.sorted
  have hnotA (v) : (s, v) ∉ A := fun hmem => BitVec.lt_irrefl s (hA _ hmem)
  have hnotB (v) : (s, v) ∉ B := fun hmem => BitVec.lt_irrefl s (hB _ hmem)
  have hAB : Sorted (A ++ B) := by
    refine hsorted.sublist ?_
    rw [append_assoc]
    exact List.Sublist.append_left (sublist_append_right M B) A
  have hinsert (v : D) : Sorted (A ++ (s, v) :: B) := by
    obtain ⟨h1, h2, h3⟩ := pairwise_append.mp hAB
    refine pairwise_append.mpr ⟨h1, pairwise_cons.mpr ⟨hB, h2⟩, fun a ha b hb => ?_⟩
    rcases mem_cons.mp hb with rfl | hb
    · exact hA a ha
    · exact h3 a ha b hb
  have hvalue (e) (he : e ∈ A ++ B) : e.2 ≠ H.defaultLeaf := fun hv => by
    have hmem : (e.1, H.defaultLeaf) ∈ A ++ M ++ B := by
      rw [← hv]
      rcases mem_append.mp he with he | he <;> simp [he]
    have heq := hdel e.1 hmem
    rcases mem_append.mp he with he | he
    · exact BitVec.lt_irrefl s (heq ▸ hA e he)
    · have := hB e he
      rw [heq] at this
      exact BitVec.lt_irrefl s this
  rcases hM with rfl | ⟨v, rfl⟩
  · have hne : A ++ B ≠ [] := by simpa using hkvs.nonempty
    rw [append_nil, maybeAddShortcutToKV_insert hA hB hne]
    refine ⟨hinsert sv, fun e => ?_⟩
    rw [mem_around]
    refine ⟨fun he => ?_, fun he => ?_⟩
    · rcases he with he | rfl
      · exact .inl ⟨he, hvalue e he⟩
      · exact .inr ⟨by simp, by simp [hnotA, hnotB]⟩
    · exact he.imp (·.1) fun he => mem_singleton.mp he.1
  · have hcons : A ++ [(s, v)] ++ B = A ++ (s, v) :: B := by simp
    have hin : (s, v) ∈ A ++ (s, v) :: B := by simp
    rw [hcons] at hclash ⊢
    by_cases hv : v = H.defaultLeaf
    · subst hv
      have hempty : A = [] ∨ B = [] := by
        refine (hclash hin).imp (fun h => ?_) fun h => ?_
        · refine eq_nil_iff_forall_not_mem.mpr fun e he => h e (by simp [he]) (hA e he)
        · refine eq_nil_iff_forall_not_mem.mpr fun e he => h e (by simp [he]) (hB e he)
      rw [maybeAddShortcutToKV_delete hA hB hempty]
      refine ⟨hAB, fun e => ⟨fun he => .inl ⟨?_, hvalue e he⟩, fun he => ?_⟩⟩
      · rw [mem_around]
        exact .inl he
      · rcases he with ⟨he, hne⟩ | ⟨he, hne⟩
        · exact (mem_around.mp he).resolve_right fun h => hne (by rw [h])
        · rw [mem_singleton.mp he] at hne
          exact absurd hin (hne _)
    · rw [maybeAddShortcutToKV_update hA hB hv]
      refine ⟨hinsert v, fun e => ⟨fun he => .inl ⟨he, ?_⟩, fun he => ?_⟩⟩
      · rcases mem_around.mp he with he | rfl
        · exact hvalue e he
        · exact hv
      · rcases he with ⟨he, -⟩ | ⟨he, hne⟩
        · exact he
        · rw [mem_singleton.mp he] at hne
          exact absurd hin (hne _)

theorem updateTree_contents (hh : h ≤ 256) : ContentsSpec H h := by
  induction h with
  | zero =>
    intro p T kvs hT hkvs _
    -- all keys are the same
    cases kvs with
    | nil => exact absurd rfl hkvs.nonempty
    | cons kv kvs =>
      have hsingle : kvs = [] := eq_nil_iff_forall_not_mem.mpr fun e he => by
        have hlt := (pairwise_cons.mp hkvs.sorted).1 e he
        rw [(hkvs.hasPrefix kv (by simp)).eq_of_zero (hkvs.hasPrefix e (by simp [he]))] at hlt
        exact BitVec.lt_irrefl _ hlt
      subst hsingle
      obtain ⟨k, v⟩ := kv
      have hkey (e) (he : e ∈ T.entries) : e.1 = k :=
        (hT.hasPrefix e he).eq_of_zero (hkvs.hasPrefix (k, v) (by simp))
      have hnone (e) (he : e ∈ T.entries) : ¬∀ v', (e.1, v') ∉ [(k, v)] := fun h =>
        h v (by simp [hkey e he])
      rw [updateTree]
      split
      next hv =>
        refine ⟨good_empty, fun e => ⟨fun he => (nomatch he), fun he => ?_⟩⟩
        rcases he with ⟨he, hne⟩ | ⟨he, hne⟩
        · rw [mem_singleton.mp he] at hne
          exact absurd hv hne
        · exact absurd hne (hnone e he)
      next hv =>
        refine ⟨good_leaf (hkvs.hasPrefix (k, v) (by simp)) hv, fun e => ⟨fun he => .inl ⟨he, ?_⟩,
          fun he => ?_⟩⟩
        · rw [mem_singleton.mp he]
          exact hv
        · rcases he with ⟨he, -⟩ | ⟨he, hne⟩
          · exact he
          · exact absurd hne (hnone e he)
  | succ h ih =>
    have hspec : ContentsSpec H h := ih (by omega)
    intro p T kvs hT hkvs hclash
    cases T with
    | empty => exact hspec.empty (by omega) hkvs
    | leaf s sv =>
      obtain ⟨happ, hentries⟩ := applicable_maybeAddShortcutToKV hT hkvs hclash
      rw [updateTree]
      split
      next hempty =>
        rw [List.isEmpty_iff] at hempty
        rw [hempty] at hentries
        exact ⟨good_empty, hentries⟩
      next hne =>
        have happ := happ fun h0 => hne (isEmpty_iff.mpr h0)
        obtain ⟨hgood, hmem⟩ := hspec.empty (by omega) happ
        exact ⟨hgood, fun e => ((hmem e).trans (happ.applied_empty e)).trans (hentries e)⟩
    | node l r =>
      have hne : ¬(l = .empty ∧ r = .empty) := fun ⟨hl, hr⟩ => by
        have := (hT.compact.1 hl).1
        simp [hr, Tree.isEmpty] at this
      simp only [updateTree, Radix.Tree.left, Radix.Tree.right]
      unfold updateNodeTree
      split
      next => exact absurd ⟨rfl, rfl⟩ hne
      next =>
        exact hspec.children (by omega) (hT.left (by omega)) (hT.right (by omega)) hkvs hclash.1
          hclash.2 (fun hl _ => (hT.compact.1 hl).2) (fun hr _ => (hT.compact.2.1 hr).2)
          fun hl hr => absurd ⟨hl, hr⟩ hne

end Update

end MadNet.Trie
