import MadNet.Dynamics.Storage

/-!
# The linked list of nodes

`Holds val l db` says that the database is a well-formed list of the epochs `l` with the parameters
`val`. An update at the epoch of a node, or after the last one, keeps the list well formed. An
update between two nodes does not: it writes the later node back as it was read before the new node
was linked to it.
-/

namespace MadNet.Dynamics

open Function (update_of_ne update update_apply update_self)
open Prog Links List Node Option Db

/-! ## Sorted lists of epochs -/

/-- A sorted list has no more epochs than its last one. -/
theorem length_le_of_sorted {l : List UInt32} {k : UInt32} (hsorted : l.Pairwise (· < ·))
    (hpos : ∀ x ∈ l, x ≠ 0) (hk : k ∈ l.getLast?) : l.length ≤ k.toNat := by
  induction l using reverseRecOn generalizing k with
  | nil => simp
  | append_singleton l x ih =>
    obtain rfl : x = k := by simpa using hk
    obtain ⟨hl, -, hlt⟩ := pairwise_append.mp hsorted
    have hx : 0 < x.toNat := UInt32.pos_iff_ne_zero.mpr (hpos x (by simp))
    cases hlast : l.getLast? with
    | none => simp [getLast?_eq_none_iff.mp hlast]; omega
    | some p =>
      have hp := ih hl (fun z hz => hpos z (by simp [hz])) hlast
      have : p.toNat < x.toNat := hlt p (mem_of_getLast? hlast) x (by simp)
      simp
      omega

theorem sorted_between {l1 l2 : List UInt32} {k x y : UInt32}
    (h : (l1 ++ k :: y :: l2).Pairwise (· < ·)) (hkx : k < x) (hxy : x < y) :
    (l1 ++ k :: x :: y :: l2).Pairwise (· < ·) := by
  obtain ⟨hl1, hrest, hlt⟩ := pairwise_append.mp h
  obtain ⟨hkl, hyl⟩ := pairwise_cons.mp hrest
  refine pairwise_append.mpr ⟨hl1, pairwise_cons.mpr ⟨?_, pairwise_cons.mpr ⟨?_, hyl⟩⟩, ?_⟩
  · intro z hz
    rcases mem_cons.mp hz with rfl | hz
    · exact hkx
    · exact hkl z hz
  · intro z hz
    rcases mem_cons.mp hz with rfl | hz
    · exact hxy
    · exact UInt32.lt_trans hxy ((pairwise_cons.mp hyl).1 z hz)
  · intro z hz w hw
    simp only [mem_cons] at hw
    rcases hw with rfl | rfl | hw
    · exact hlt z hz _ (by simp)
    · exact UInt32.lt_trans (hlt z hz k (by simp)) hkx
    · exact hlt z hz w (by simp [hw])

/-- The last of the epochs that are not after `x`. -/
theorem exists_last_le {l : List UInt32} {x : UInt32} (h : ∃ k ∈ l, k ≤ x) :
    ∃ l1 k l2, l = l1 ++ k :: l2 ∧ k ≤ x ∧ ∀ z ∈ l2, x < z := by
  induction l using reverseRecOn with
  | nil => simp at h
  | append_singleton l z ih =>
    by_cases hz : z ≤ x
    · exact ⟨l, z, [], rfl, hz, by simp⟩
    · obtain ⟨k, hk, hkx⟩ := h
      rcases mem_append.mp hk with hk | hk
      · obtain ⟨l1, k, l2, rfl, hk, hl2⟩ := ih ⟨k, hk, hkx⟩
        refine ⟨l1, k, l2 ++ [z], by simp, hk, fun w hw => ?_⟩
        rcases mem_append.mp hw with hw | hw
        · exact hl2 w hw
        · rw [mem_singleton.mp hw]
          exact UInt32.not_le.mp hz
      · exact absurd (mem_singleton.mp hk ▸ hkx) hz

/-! ## Lists in the database -/

namespace Db

variable (db : Db)

def nextLink (k : UInt32) : Option UInt32 := (db.nodes k).map (·.nextEpoch)

def prevLink (k : UInt32) : Option UInt32 := (db.nodes k).map (·.prevEpoch)

/-- Walking forward from epoch 1 and back from `EpochLastUpdated` visits the same nodes, in the
order of their epochs. -/
def WellFormed : Prop :=
  ∀ elu ∈ db.linkedList, ∃ l ∈ walk db.nextLink (elu.toNat + 1) 1,
    l.Pairwise (· < ·) ∧ walk db.prevLink (elu.toNat + 1) elu = some l.reverse

instance : Decidable db.WellFormed :=
  @Option.decidableForallMem _ _
    (fun elu => inferInstanceAs (Decidable (∃ l ∈ walk db.nextLink (elu.toNat + 1) 1, _))) _

end Db

theorem Node.not_isTail {n : Node} (h : n.prevEpoch < n.thisEpoch) : n.isTail = false := by
  simp [isTail, (UInt32.ne_of_lt h).symm]

theorem Node.not_isHead {n : Node} (h : n.thisEpoch < n.nextEpoch) : n.isHead = false := by
  simp [isHead, UInt32.ne_of_lt h]

/-- The record of an epoch with its neighbours. -/
def record (val : UInt32 → RawStorage) (k p n : UInt32) : Node := ⟨k, p, n, val k⟩

structure Holds (val : UInt32 → RawStorage) (l : List UInt32) (db : Db) : Prop where
  sorted : l.Pairwise (· < ·)
  first : l.head? = some 1
  last : db.linkedList = l.getLast?
  nodes : Segment db.nodes (record val) none l none

variable {val : UInt32 → RawStorage} {l l1 l2 : List UInt32} {k x y : UInt32} {db db' : Db}
  {u : Update}

theorem record_congr {val' : UInt32 → RawStorage} (h : val' k = val k) :
    record val' k = record val k := by
  unfold record
  rw [h]

theorem record_update {rs : RawStorage} (h : k ≠ x) : record (update val x rs) k = record val k :=
  record_congr (update_of_ne h ..)

namespace Holds

theorem pos (h : Holds val l db) (hk : k ∈ l) : k ≠ 0 := by
  cases l with
  | nil => cases hk
  | cons a l =>
    obtain rfl : a = 1 := some_inj.mp h.first
    rcases mem_cons.mp hk with rfl | hk
    · decide
    · have := (pairwise_cons.mp h.sorted).1 k hk
      rintro rfl
      exact absurd this (by decide)

/-- The node of an epoch of the list. -/
theorem node (h : Holds val (l1 ++ k :: l2) db) :
    db.nodes k = some ⟨k, l1.getLast?.getD k, l2.head?.getD k, val k⟩ := by
  have := (segment_append.mp h.nodes).2.1
  simpa [record] using this

theorem isValid_node (h : Holds val (l1 ++ k :: l2) db) (rs : RawStorage) :
    isValid ⟨k, l1.getLast?.getD k, l2.head?.getD k, rs⟩ := by
  have hsorted := pairwise_append.mp h.sorted
  have hk : k ≠ 0 := h.pos (by simp)
  have hprev : l1.getLast?.getD k ≠ 0 ∧ l1.getLast?.getD k ≤ k := by
    cases hlast : l1.getLast? with
    | none => exact ⟨hk, UInt32.le_refl _⟩
    | some p =>
      have hp := mem_of_getLast? hlast
      exact ⟨h.pos (by simp [hp]), UInt32.le_of_lt (hsorted.2.2 p hp k (by simp))⟩
  have hnext : l2.head?.getD k ≠ 0 ∧ k ≤ l2.head?.getD k := by
    cases hhead : l2.head? with
    | none => exact ⟨hk, UInt32.le_refl _⟩
    | some n =>
      have hn := mem_of_head? hhead
      exact ⟨h.pos (by simp [hn]), UInt32.le_of_lt ((pairwise_cons.mp hsorted.2.1).1 n hn)⟩
  simp [isValid, hk, hprev, hnext]

theorem prev_lt (h : Holds val (l1 ++ k :: l2) db) (hl1 : l1 ≠ []) : l1.getLast?.getD k < k := by
  rw [getLast?_eq_some_getLast hl1, getD_some]
  exact (pairwise_append.mp h.sorted).2.2 _ (getLast_mem hl1) k (by simp)

theorem getNode (h : Holds val (l1 ++ k :: l2) db) :
    db.getNode k = .ok ⟨k, l1.getLast?.getD k, l2.head?.getD k, val k⟩ := by
  have hk : k ≠ 0 := h.pos (by simp)
  simp [Db.getNode, hk, h.node, h.isValid_node]

theorem getLinkedList (h : Holds val (l1 ++ k :: l2) db) :
    db.getLinkedList = .ok (l2.getLast?.getD k) := by
  have hlast : db.linkedList = some (l2.getLast?.getD k) := by simp [h.last, getLast?_cons]
  have hpos : l2.getLast?.getD k ≠ 0 := h.pos (mem_of_getLast? (h.last.symm.trans hlast))
  simp [Db.getLinkedList, hlast, hpos]

theorem length_le (h : Holds val l db) (hk : k ∈ l.getLast?) : l.length ≤ k.toNat :=
  length_le_of_sorted h.sorted (fun _ hx => h.pos hx) hk

/-- Going back finds the last node that is not after the epoch. -/
theorem findNode {e : Err} {epoch : UInt32} {fuel : Nat} (l2 : List UInt32) {l3 : List UInt32}
    (h : Holds val (l1 ++ k :: (l2 ++ l3)) db) (hk : k ≤ epoch) (hl2 : ∀ x ∈ l2, epoch < x)
    (hfuel : l2.length < fuel) :
    (do db.findNode e epoch fuel (← db.getNode (l2.getLast?.getD k))) =
      .ok ⟨k, l1.getLast?.getD k, (l2 ++ l3).head?.getD k, val k⟩ := by
  induction l2 using reverseRecOn generalizing l3 fuel with
  | nil =>
    rcases fuel with _ | fuel
    · cases hfuel
    have hnode := h.getNode
    simp only [getLast?_nil, getD_none, hnode]
    simp [Db.findNode, hk, bind, Except.bind, pure, Except.pure]
  | append_singleton l2 x ih =>
    rcases fuel with _ | fuel
    · cases hfuel
    have h' : Holds val (l1 ++ k :: (l2 ++ x :: l3)) db := by simpa using h
    have hx : Holds val ((l1 ++ k :: l2) ++ x :: l3) db := by simpa using h
    have hlast : (l1 ++ k :: l2).getLast? = some (l2.getLast?.getD k) := by
      simp [getLast?_cons]
    have hnode := hx.getNode
    rw [hlast, getD_some] at hnode
    have hprev := hx.prev_lt (by simp)
    rw [hlast, getD_some] at hprev
    have htail := not_isTail (n := ⟨x, l2.getLast?.getD k, l3.head?.getD x, val x⟩) hprev
    have hnot : ¬x ≤ epoch := UInt32.not_le.mpr (hl2 x (by simp))
    have hfuel' : l2.length < fuel := by simp at hfuel; omega
    have hrest := ih h' (fun z hz => hl2 z (by simp [hz])) hfuel'
    simp only [getLast?_append, getLast?_singleton, some_or, getD_some, hnode]
    simp only [bind, Except.bind, Db.findNode, hnot, htail, if_false, Bool.false_eq_true] at hrest ⊢
    simpa using hrest

end Holds

/-! ## Going forward -/

/-- An update that has been checked, on any parameters. -/
def Update.applyTo (u : Update) (rs : RawStorage) : RawStorage :=
  (rs.updateValue u).toOption.getD rs

theorem updateValue_applyTo {v : Value} (hu : u.parse = .ok v) (rs : RawStorage) :
    rs.updateValue u = .ok (u.applyTo rs) ∧
      ∀ t, (u.applyTo rs).get t = if t = u.key then v else rs.get t := by
  rcases rs.updateValue_cases u with ⟨e, he, -⟩ | ⟨v', rs', hv', hrs', hget⟩
  · simp [he] at hu
  · obtain rfl := Except.ok.inj (hv'.symm.trans hu)
    have happly : u.applyTo rs = rs' := by simp [Update.applyTo, hrs', Except.toOption]
    exact ⟨by rw [hrs', happly], by rw [happly]; exact hget⟩

/-- The node with an update applied to its parameters. -/
def Node.apply (u : Update) (n : Node) : Node := { n with rawStorage := u.applyTo n.rawStorage }

/-- Going forward from a node, which is written as it was given, updates it and all later ones. -/
theorem updateForward_ok {v : Value} {p : UInt32} {fuel : Nat} (hu : u.parse = .ok v)
    (h : Segment db.nodes (record val) (some y) l none) (hsorted : (y :: l).Pairwise (· < ·))
    (hy : y ≠ 0) (hp : p ≠ 0) (hpy : p ≤ y) (hfuel : l.length < fuel) :
    ∃ db', updateForward u fuel ⟨y, p, l.head?.getD y, val y⟩ db = .ok db' ∧
      db'.linkedList = db.linkedList ∧
      ∀ z, db'.nodes z = if z = y then some ⟨y, p, l.head?.getD y, u.applyTo (val y)⟩
        else if z ∈ l then (db.nodes z).map (apply u) else db.nodes z := by
  induction l generalizing y p fuel db with
  | nil =>
    rcases fuel with _ | fuel
    · cases hfuel
    have hvalid (rs) : isValid ⟨y, p, y, rs⟩ := by simp [isValid, hy, hp, hpy]
    refine ⟨{ db with nodes := update db.nodes y (some ⟨y, p, y, u.applyTo (val y)⟩) }, ?_,
      rfl, fun z => ?_⟩
    · simp [updateForward, (updateValue_applyTo hu (val y)).1, setNode, hvalid, isHead,
        bind, Except.bind, pure, Except.pure]
    · simp [update_apply]
  | cons x l ih =>
    rcases fuel with _ | fuel
    · cases hfuel
    obtain ⟨hyl, hsorted⟩ := pairwise_cons.mp hsorted
    have hyx : y < x := hyl x (by simp)
    have hx : x ≠ 0 := by
      rintro rfl
      exact absurd hyx (by simp)
    have hvalid (rs) : isValid ⟨y, p, x, rs⟩ := by
      simp [isValid, hy, hp, hpy, hx, UInt32.le_of_lt hyx]
    let db1 : Db := { db with nodes := update db.nodes y (some ⟨y, p, x, u.applyTo (val y)⟩) }
    have hother (z) (hz : z ∈ x :: l) : db1.nodes z = db.nodes z :=
      update_of_ne (UInt32.ne_of_lt (hyl z hz)).symm _ _
    have hget : db1.getNode x = .ok ⟨x, y, l.head?.getD x, val x⟩ := by
      have hnode : db1.nodes x = some ⟨x, y, l.head?.getD x, val x⟩ := by
        rw [hother x (by simp), h.1]
        simp [record]
      have hnext : l.head?.getD x ≠ 0 ∧ x ≤ l.head?.getD x := by
        cases hl : l.head? with
        | none => exact ⟨hx, UInt32.le_refl _⟩
        | some n =>
          have hn := (pairwise_cons.mp hsorted).1 n (mem_of_head? hl)
          refine ⟨?_, UInt32.le_of_lt hn⟩
          rintro rfl
          exact absurd hn (by simp)
      simp [getNode, hx, hnode, isValid, hy, hnext, UInt32.le_of_lt hyx]
    have hseg : Segment db1.nodes (record val) (some x) l none :=
      h.2.congr (fun z hz => hother z (by simp [hz])) fun _ _ => rfl
    have hfuel' : l.length < fuel := by simp at hfuel; omega
    obtain ⟨db', hrun, hlist, hnodes⟩ := ih hseg hsorted hx hy (UInt32.le_of_lt hyx) hfuel'
    refine ⟨db', ?_, hlist, fun z => ?_⟩
    · have hhead := not_isHead (n := ⟨y, p, x, u.applyTo (val y)⟩) hyx
      simp only [updateForward, head?_cons, getD_some,
        (updateValue_applyTo hu (val y)).1, setNode, hvalid, bind, Except.bind, if_true, hhead,
        Bool.false_eq_true, if_false]
      rw [show db1.getNode x = _ from hget]
      exact hrun
    · rw [hnodes z]
      by_cases hzy : z = y
      · have hzx : z ≠ x := by
          rw [hzy]
          exact UInt32.ne_of_lt hyx
        have hzl : z ∉ l := fun hz => by
          have := hyl z (by simp [hz])
          exact absurd hzy (UInt32.ne_of_lt this).symm
        rw [if_neg hzx, if_neg hzl, if_pos hzy, hzy]
        exact update_self ..
      · rw [if_neg hzy, show db1.nodes z = db.nodes z from update_of_ne hzy _ _]
        by_cases hzx : z = x
        · subst hzx
          have hz : db.nodes z = some ⟨z, y, l.head?.getD z, val z⟩ := by
            rw [h.1]
            simp [record]
          simp [hz, apply]
        · simp [hzx]

/-! ## Adding a node -/

namespace Holds

variable {rs : RawStorage}

/-- A node after the last one. -/
theorem addNode_head (h : Holds val (l ++ [k]) db) (rs : RawStorage) (hkx : k < x) :
    ∃ db', db.addNode ⟨x, 0, 0, rs⟩ = .ok db' ∧ Holds (update val x rs) (l ++ [k] ++ [x]) db' := by
  have hk : k ≠ 0 := h.pos (by simp)
  have hx : x ≠ 0 := by
    rintro rfl
    exact absurd hkx (by simp)
  have hle := UInt32.le_of_lt hkx
  have hpre : isPreValid ⟨x, 0, 0, rs⟩ := by simp [isPreValid, hx]
  have hvalid : isValid ⟨k, l.getLast?.getD k, k, val k⟩ := h.isValid_node _
  have hprev : isValid ⟨k, l.getLast?.getD k, x, val k⟩ := by
    simp only [isValid, Bool.and_eq_true, decide_eq_true_eq] at hvalid ⊢
    exact ⟨⟨⟨hvalid.1.1.1, hx⟩, hvalid.1.2⟩, hle⟩
  have hnew : isValid ⟨x, k, x, rs⟩ := by simp [isValid, hk, hx, hle]
  have hnot : ¬x ≤ k := UInt32.not_le.mpr hkx
  refine ⟨{ linkedList := some x, nodes := update (update db.nodes k
    (some ⟨k, l.getLast?.getD k, x, val k⟩)) x (some ⟨x, k, x, rs⟩) }, ?_, ?_, ?_, by simp, ?_⟩
  · have hnode := h.getNode
    have hlast : db.linkedList = some k := by simp [h.last]
    simp only [head?_nil, getD_none] at hnode
    simp only [Db.addNode, hpre, Bool.not_true, hnode, bind, Except.bind, hkx, if_true,
      Bool.false_eq_true, if_false, Db.addNodeHead, hvalid, isHead, beq_self_eq_true,
      Bool.and_self, Bool.or_self, hnot, decide_false, setEpochsHead, decide_true,
      Db.setNode, hprev, hnew, Db.getLinkedList, hlast, hk, Db.setLinkedList, hx]
  · have hlt : ∀ z ∈ l ++ [k], z < x := by
      intro z hz
      rcases mem_append.mp hz with hz | hz
      · exact UInt32.lt_trans ((pairwise_append.mp h.sorted).2.2 z hz k (by simp)) hkx
      · rwa [mem_singleton.mp hz]
    exact pairwise_append.mpr ⟨h.sorted, pairwise_singleton .., by simpa using hlt⟩
  · rw [head?_append, h.first, some_or]
  · obtain ⟨hseg, -⟩ := segment_append.mp h.nodes
    have hl : ∀ z ∈ l, z ≠ k ∧ z ≠ x := fun z hz =>
      have hzk := (pairwise_append.mp h.sorted).2.2 z hz k (by simp)
      ⟨UInt32.ne_of_lt hzk, UInt32.ne_of_lt (UInt32.lt_trans hzk hkx)⟩
    have hkx' := UInt32.ne_of_lt hkx
    rw [append_assoc, segment_append]
    refine ⟨hseg.congr (fun z hz => ?_) fun z hz => ?_, ?_, ?_, trivial⟩
    · dsimp only
      rw [update_of_ne (hl z hz).2, update_of_ne (hl z hz).1]
    · exact record_update (hl z hz).2
    · simp [record, update_of_ne hkx']
    · simp [record]

/-- A node between two others. -/
theorem addNodeSplit (h : Holds val (l1 ++ k :: y :: l2) db) (rs : RawStorage) (hkx : k < x)
    (hxy : x < y) :
    ∃ db', db.addNodeSplit ⟨x, 0, 0, rs⟩ ⟨k, l1.getLast?.getD k, y, val k⟩
        ⟨y, k, l2.head?.getD y, val y⟩ = .ok db' ∧
      Holds (update val x rs) (l1 ++ k :: x :: y :: l2) db' := by
  have h' : Holds val ((l1 ++ [k]) ++ y :: l2) db := by simpa using h
  have hk : k ≠ 0 := h.pos (by simp)
  have hy : y ≠ 0 := h.pos (by simp)
  have hx : x ≠ 0 := by
    rintro rfl
    exact absurd hkx (by simp)
  have hkx' := UInt32.ne_of_lt hkx
  have hxy' := UInt32.ne_of_lt hxy
  have hky' := UInt32.ne_of_lt (UInt32.lt_trans hkx hxy)
  have hpre : isPreValid ⟨x, 0, 0, rs⟩ := by simp [isPreValid, hx]
  have hvalidk : isValid ⟨k, l1.getLast?.getD k, y, val k⟩ := h.isValid_node _
  have hvalidy : isValid ⟨y, k, l2.head?.getD y, val y⟩ := by
    simpa using h'.isValid_node (val y)
  have hprev : isValid ⟨k, l1.getLast?.getD k, x, val k⟩ := by
    simp only [isValid, Bool.and_eq_true, decide_eq_true_eq] at hvalidk ⊢
    exact ⟨⟨⟨hvalidk.1.1.1, hx⟩, hvalidk.1.2⟩, UInt32.le_of_lt hkx⟩
  have hnext : isValid ⟨y, x, l2.head?.getD y, val y⟩ := by
    simp only [isValid, Bool.and_eq_true, decide_eq_true_eq] at hvalidy ⊢
    exact ⟨⟨⟨⟨hvalidy.1.1.1.1, hx⟩, hvalidy.1.1.2⟩, UInt32.le_of_lt hxy⟩, hvalidy.2⟩
  have hnew : isValid ⟨x, k, y, rs⟩ := by
    simp [isValid, hk, hx, hy, UInt32.le_of_lt hkx, UInt32.le_of_lt hxy]
  have hnotk : ¬x ≤ k := UInt32.not_le.mpr hkx
  have hnoty : ¬y ≤ x := UInt32.not_le.mpr hxy
  refine ⟨{ db with nodes := (update (update (update db.nodes k
    (some ⟨k, l1.getLast?.getD k, x, val k⟩)) y (some ⟨y, x, l2.head?.getD y, val y⟩)) x
    (some ⟨x, k, y, rs⟩)) }, ?_, ?_, ?_, ?_, ?_⟩
  · simp only [Db.addNodeSplit, hpre, hvalidk, hvalidy, hnotk, hnoty, Bool.not_true, decide_false,
      Bool.or_self, Bool.false_eq_true, if_false, setEpochsBetween, hkx, hxy, decide_true,
      Bool.and_self, if_true, bind, Except.bind, Db.setNode, hprev, hnext, hnew]
  · exact sorted_between h.sorted hkx hxy
  · simpa using h.first
  · simp [h.last, getLast?_cons]
  · obtain ⟨hseg1, -, -, hseg2⟩ := segment_append.mp h.nodes
    obtain ⟨-, hrest, hlt⟩ := pairwise_append.mp h.sorted
    obtain ⟨hkl, hyl⟩ := pairwise_cons.mp hrest
    have hother (z) (hz : z ∈ l1 ∨ z ∈ l2) : z ≠ k ∧ z ≠ y ∧ z ≠ x := by
      rcases hz with hz | hz
      · have hzk := hlt z hz k (by simp)
        exact ⟨UInt32.ne_of_lt hzk, UInt32.ne_of_lt (hlt z hz y (by simp)),
          UInt32.ne_of_lt (UInt32.lt_trans hzk hkx)⟩
      · have hyz := (pairwise_cons.mp hyl).1 z hz
        exact ⟨(UInt32.ne_of_lt (hkl z (by simp [hz]))).symm, (UInt32.ne_of_lt hyz).symm,
          (UInt32.ne_of_lt (UInt32.lt_trans hxy hyz)).symm⟩
    have hget (z) (hz : z ∈ l1 ∨ z ∈ l2) {a b c} : update (update
        (update db.nodes k a) y b) x c z = db.nodes z := by
      obtain ⟨hzk, hzy, hzx⟩ := hother z hz
      rw [update_of_ne hzx, update_of_ne hzy, update_of_ne hzk]
    refine segment_append.mpr ⟨hseg1.congr (fun z hz => hget z (.inl hz)) fun z hz =>
      record_update (hother z (.inl hz)).2.2, ?_, ?_, ?_, hseg2.congr (fun z hz => hget z (.inr hz))
      fun z hz => record_update (hother z (.inr hz)).2.2⟩
    · dsimp only
      rw [record_update hkx', update_of_ne hkx', update_of_ne hky']
      simp [record]
    · simp [record]
    · dsimp only
      rw [record_update hxy'.symm, update_of_ne hxy'.symm]
      simp [record]

/-- The node of an epoch after two others. -/
theorem exists_node {l3 : List UInt32} (h : Holds val (l1 ++ k :: y :: (l2 ++ l3)) db) :
    ∃ n, db.getNode (l2.getLast?.getD y) = .ok n ∧ y ≤ n.thisEpoch ∧ n.prevEpoch < n.thisEpoch := by
  obtain ⟨m, w, hm⟩ : ∃ m w, y :: l2 = m ++ [w] :=
    ⟨_, _, (dropLast_append_getLast (cons_ne_nil y l2)).symm⟩
  have hw : Holds val ((l1 ++ k :: m) ++ w :: l3) db := by
    rw [← cons_append, hm] at h
    simpa using h
  have hlast : l2.getLast?.getD y = w := by
    simpa [getLast?_cons] using congrArg getLast? hm
  rw [hlast]
  refine ⟨_, hw.getNode, ?_, hw.prev_lt (by simp)⟩
  cases m with
  | nil =>
    obtain rfl : y = w := (cons.inj hm).1
    exact UInt32.le_refl _
  | cons a m =>
    obtain rfl : y = a := (cons.inj hm).1
    exact UInt32.le_of_lt ((pairwise_append.mp hw.sorted).2.2 y (by simp) w (by simp))

/-- The loop of `addNode` goes back to the two nodes between which the new one belongs. -/
theorem addNodeBefore {fuel : Nat} (rs : RawStorage) (l2 : List UInt32) {l3 : List UInt32}
    (h : Holds val (l1 ++ k :: y :: (l2 ++ l3)) db) (hkx : k < x) (hxy : x < y)
    (hfuel : l2.length < fuel) :
    (do db.addNodeBefore ⟨x, 0, 0, rs⟩ fuel (← db.getNode (l2.getLast?.getD y))) =
      db.addNodeSplit ⟨x, 0, 0, rs⟩ ⟨k, l1.getLast?.getD k, y, val k⟩
        ⟨y, k, (l2 ++ l3).head?.getD y, val y⟩ := by
  induction l2 using reverseRecOn generalizing l3 fuel with
  | nil =>
    rcases fuel with _ | fuel
    · cases hfuel
    have hy : Holds val ((l1 ++ [k]) ++ y :: l3) db := by simpa using h
    have hnode := hy.getNode
    have hprev := h.getNode
    simp only [getLast?_append, getLast?_singleton, some_or,
      getD_some] at hnode
    simp only [head?_cons, getD_some] at hprev
    simp [Db.addNodeBefore, hnode, hprev, hkx, hxy, bind, Except.bind]
  | append_singleton l2 z ih =>
    rcases fuel with _ | fuel
    · cases hfuel
    have h' : Holds val (l1 ++ k :: y :: (l2 ++ z :: l3)) db := by simpa using h
    have hz : Holds val ((l1 ++ k :: y :: l2) ++ z :: l3) db := by simpa using h
    have hlast : (l1 ++ k :: y :: l2).getLast? = some (l2.getLast?.getD y) := by
      simp [getLast?_cons]
    have hnode := hz.getNode
    rw [hlast, getD_some] at hnode
    have hfuel' : l2.length < fuel := by simp at hfuel; omega
    have hrest := ih h' hfuel'
    simp only [getLast?_append, getLast?_singleton, some_or, getD_some, hnode]
    obtain ⟨n, hn, hyn, hprev⟩ := h'.exists_node
    have hxn : x < n.thisEpoch := UInt32.lt_of_lt_of_le hxy hyn
    have hnot : ¬n.thisEpoch < x := UInt32.not_lt.mpr (UInt32.le_of_lt hxn)
    simp only [bind, Except.bind, Db.addNodeBefore, hn, hnot, false_and, if_false,
      UInt32.ne_of_lt hxn, not_isTail hprev, Bool.false_eq_true] at hrest ⊢
    simpa using hrest

theorem addNode_between (h : Holds val (l1 ++ k :: y :: l2) db) (rs : RawStorage) (hkx : k < x)
    (hxy : x < y) :
    ∃ db', db.addNode ⟨x, 0, 0, rs⟩ = .ok db' ∧ Holds (update val x rs) (l1 ++ k :: x :: y :: l2)
      db' := by
  have hx : x ≠ 0 := by
    rintro rfl
    exact absurd hkx (by simp)
  have hpre : isPreValid ⟨x, 0, 0, rs⟩ := by simp [isPreValid, hx]
  have h' : Holds val (l1 ++ k :: y :: (l2 ++ [])) db := by simpa using h
  have hlist := h.getLinkedList
  rw [getLast?_cons, getD_some] at hlist
  obtain ⟨n, hn, hyn, hprev⟩ := h'.exists_node
  have hfuel : l2.length < (l2.getLast?.getD y).toNat + 1 := by
    have := h.length_le (k := l2.getLast?.getD y) (by simp [getLast?_cons])
    simp at this
    omega
  have hloop := h'.addNodeBefore rs l2 hkx hxy hfuel
  have hxn : x < n.thisEpoch := UInt32.lt_of_lt_of_le hxy hyn
  have hnot : ¬n.thisEpoch < x := UInt32.not_lt.mpr (UInt32.le_of_lt hxn)
  obtain ⟨db', hsplit, hholds⟩ := h.addNodeSplit rs hkx hxy
  refine ⟨db', ?_, hholds⟩
  rw [append_nil, hsplit] at hloop
  simp only [bind, Except.bind, addNode, hpre, Bool.not_true, Bool.false_eq_true, if_false, hlist,
    hn, hnot, UInt32.ne_of_lt hxn, not_isTail hprev] at hloop ⊢
  exact hloop

/-! ## Updates -/

variable {v : Value}

/-- The fuel of the loops is enough. -/
theorem length_lt (h : Holds val (l1 ++ k :: l2) db) :
    l2.length < (l2.getLast?.getD k).toNat + 1 := by
  have := h.length_le (k := l2.getLast?.getD k) (by simp [getLast?_cons])
  simp at this
  omega

/-- The node in force at the epoch of an update, or at any other. -/
theorem findNode_last {e : Err} {epoch : UInt32} (h : Holds val (l1 ++ k :: l2) db)
    (hk : k ≤ epoch) (hl2 : ∀ x ∈ l2, epoch < x) :
    ∃ n, db.getNode (l2.getLast?.getD k) = .ok n ∧ db.findNode e epoch
      ((l2.getLast?.getD k).toNat + 1) n =
        .ok ⟨k, l1.getLast?.getD k, l2.head?.getD k, val k⟩ := by
  have h' : Holds val (l1 ++ k :: (l2 ++ [])) db := by simpa using h
  have hfind := h'.findNode (e := e) l2 hk hl2 h.length_lt
  rw [append_nil] at hfind
  exact bind_ok hfind

theorem updateStorageValue_at (h : Holds val (l1 ++ u.epoch :: l2) db) (hu : u.parse = .ok v) :
    ∃ db', db.updateStorageValue u = .ok db' ∧
      Holds (fun z => if u.epoch ≤ z then u.applyTo (val z) else val z)
      (l1 ++ u.epoch :: l2) db' := by
  obtain ⟨hl1, hrest, hlt⟩ := pairwise_append.mp h.sorted
  obtain ⟨hl2, -⟩ := pairwise_cons.mp hrest
  obtain ⟨hseg1, hseg2⟩ := segment_append.mp h.nodes
  obtain ⟨n, hn, hfind⟩ := h.findNode_last (e := .invalidUpdateValue) (UInt32.le_refl _) hl2
  have hvalid := h.isValid_node (val u.epoch)
  simp only [isValid, Bool.and_eq_true, decide_eq_true_eq] at hvalid
  obtain ⟨db', hrun, hlist, hnodes⟩ := updateForward_ok hu hseg2.2 hrest hvalid.1.1.1.1
    hvalid.1.1.1.2 hvalid.1.2 h.length_lt
  refine ⟨db', ?_, h.sorted, h.first, hlist.trans h.last, segment_append.mpr ⟨?_, ?_⟩⟩
  · simp only [updateStorageValue, h.getLinkedList, hn, hfind, bind, Except.bind, if_true]
    exact hrun
  · refine hseg1.congr (fun z hz => ?_) fun z hz => ?_
    · have hz' := hlt z hz
      rw [hnodes z, if_neg (UInt32.ne_of_lt (hz' _ (by simp))), if_neg]
      intro hzl
      exact UInt32.lt_irrefl _ (hz' z (by simp [hzl]))
    · have hz' : ¬u.epoch ≤ z := UInt32.not_le.mpr (hlt z hz _ (by simp))
      exact record_congr (if_neg hz')
  · refine hseg2.map (f := apply u) (fun z hz => ?_) fun z hz p n => ?_
    · rw [hnodes z]
      rcases mem_cons.mp hz with rfl | hz
      · rw [if_pos rfl, h.node]
        rfl
      · rw [if_neg (UInt32.ne_of_lt (hl2 z hz)).symm, if_pos hz]
    · have hz' : u.epoch ≤ z := by
        rcases mem_cons.mp hz with rfl | hz
        · exact UInt32.le_refl _
        · exact UInt32.le_of_lt (hl2 z hz)
      simp [record, apply, hz']

theorem updateStorageValue_after (h : Holds val (l ++ [k]) db) (hu : u.parse = .ok v)
    (hk : k < u.epoch) :
    ∃ db', db.updateStorageValue u = .ok db' ∧
      Holds (update val u.epoch (u.applyTo (val k))) (l ++ [k] ++ [u.epoch]) db' := by
  obtain ⟨n, hn, hfind⟩ := h.findNode_last (e := .invalidUpdateValue) (UInt32.le_of_lt hk) (by simp)
  obtain ⟨db', hadd, hholds⟩ := h.addNode_head (u.applyTo (val k)) hk
  have hhead : isHead ⟨k, l.getLast?.getD k, k, val k⟩ := by
    have hvalid := h.isValid_node (val k)
    simp only [head?_nil, getD_none] at hvalid
    simp [isHead, hvalid]
  have hpos : u.epoch ≠ 0 := hholds.pos (by simp)
  have hlast : db'.linkedList = some u.epoch := by simp [hholds.last]
  refine ⟨db', ?_, hholds⟩
  simp only [head?_nil, getD_none] at hfind
  simp only [updateStorageValue, h.getLinkedList, hn, hfind, bind, Except.bind,
    (UInt32.ne_of_lt hk).symm, if_false, hhead, if_true, (updateValue_applyTo hu (val k)).1, hadd,
    setLinkedList, hpos, ← hlast]

/-- An update between two nodes. The later node is written with the link back that it had before. -/
theorem updateStorageValue_between (h : Holds val (l1 ++ k :: y :: l2) db) (hu : u.parse = .ok v)
    (hk : k < u.epoch) (hy : u.epoch < y) :
    ∃ db', db.updateStorageValue u = .ok db' ∧ db'.linkedList = db.linkedList ∧
      Segment db'.nextLink (fun _ _ n => n) none (l1 ++ k :: u.epoch :: y :: l2) none ∧
      Segment db'.prevLink (fun _ p _ => p) none (l1 ++ k :: y :: l2) none := by
  have hpos : y ≠ 0 := h.pos (by simp)
  have hky := UInt32.lt_trans hk hy
  have hafter : ∀ x ∈ y :: l2, u.epoch < x := by
    intro x hx
    rcases mem_cons.mp hx with rfl | hx
    · exact hy
    · have hrest := (pairwise_append.mp h.sorted).2.1
      exact UInt32.lt_trans hy ((pairwise_cons.mp (pairwise_cons.mp hrest).2).1 x hx)
  obtain ⟨n, hn, hfind⟩ := h.findNode_last (e := .invalidUpdateValue) (UInt32.le_of_lt hk) hafter
  have hhead := not_isHead (n := ⟨k, l1.getLast?.getD k, y, val k⟩) hky
  have hfirst : db.getNode y = .ok ⟨y, k, l2.head?.getD y, val y⟩ := by
    have hy : Holds val ((l1 ++ [k]) ++ y :: l2) db := by simpa using h
    simpa using hy.getNode
  obtain ⟨db1, hadd, hholds⟩ := h.addNode_between (u.applyTo (val k)) hk hy
  obtain ⟨hseg1, hk1, -, hy1, hseg2⟩ := segment_append.mp hholds.nodes
  obtain ⟨-, hrest, hlt⟩ := pairwise_append.mp h.sorted
  obtain ⟨hkl, hyl⟩ := pairwise_cons.mp hrest
  have hfuel := h.length_lt
  obtain ⟨db', hrun, hlist, hnodes⟩ := updateForward_ok hu hseg2 hyl hpos
    (h.pos (by simp) : k ≠ 0) (UInt32.le_of_lt hky) (Nat.lt_of_succ_lt hfuel)
  have hval : update val u.epoch (u.applyTo (val k)) y = val y :=
    update_of_ne (UInt32.ne_of_lt hy).symm ..
  rw [hval] at hrun hnodes
  have hlinks (z) (hz : z ≠ y) : db'.prevLink z = db1.prevLink z := by
    unfold prevLink
    rw [hnodes z, if_neg hz]
    split
    · rw [Option.map_map]
      rfl
    · rfl
  refine ⟨db', ?_, hlist.trans ?_, ?_, ?_⟩
  · simp only [head?_cons, getD_some] at hfind
    simp only [updateStorageValue, h.getLinkedList, hn, hfind, bind, Except.bind,
      (UInt32.ne_of_lt hk).symm, if_false, hhead, Bool.false_eq_true, hfirst,
      (updateValue_applyTo hu (val k)).1, hadd]
    exact hrun
  · rw [hholds.last, h.last]
    simp [getLast?_cons]
  · refine hholds.nodes.map (f := nextEpoch) (fun z _ => ?_) fun _ _ _ _ => rfl
    unfold nextLink
    rw [hnodes z]
    split
    next hzy => simp [hzy, hy1, record]
    next =>
      split
      · rw [Option.map_map]
        rfl
      · rfl
  · refine segment_append.mpr ⟨?_, ?_, ?_, ?_⟩
    · exact hseg1.map (f := prevEpoch) (fun z hz => hlinks z (UInt32.ne_of_lt
        (hlt z hz y (by simp)))) fun _ _ _ _ => rfl
    · rw [hlinks k (UInt32.ne_of_lt hky), prevLink, hk1]
      rfl
    · rw [prevLink, hnodes y, if_pos rfl]
      rfl
    · exact hseg2.map (f := prevEpoch) (fun z hz => hlinks z (UInt32.ne_of_lt
        ((pairwise_cons.mp hyl).1 z hz)).symm) fun _ _ _ _ => rfl

end Holds

end MadNet.Dynamics
