import MadNet.Dynamics.LinkedList

/-!
# The parameters and the updates that were made

The parameters of an epoch are to be those of the last updates that are in force then, and the list
of nodes is to be the same in both directions. Both hold after every update exactly as long as no
update is made between the epochs of two nodes.
-/

namespace MadNet.Dynamics

open Prog Links List

/-! ## Specification -/

/-- The last of the updates to a field that are in force at an epoch. -/
def lastUpdate (us : List Update) (t : UpdateType) (epoch : UInt32) : Option Update :=
  (us.filter fun u => u.key = t ∧ u.epoch ≤ epoch).getLast?

/-- What a field should be at an epoch. -/
def expected (us : List Update) (t : UpdateType) (epoch : UInt32) : Except Err Value :=
  match lastUpdate us t epoch with
  | some u => u.parse
  | none => .ok (RawStorage.standardParameters.get t)

namespace Db

variable (db : Db)

/-- Every field has the value of the last update to it, at every epoch. -/
def Reflects (us : List Update) : Prop :=
  ∀ epoch, epoch ≠ 0 → ∃ rs, db.loadStorage epoch = .ok rs ∧
    ∀ t, .ok (rs.get t) = expected us t epoch

end Db

/-- The database after updates that all succeeded. -/
def run (us : List Update) : Except Err Db := us.foldlM Db.updateStorage Db.empty

/-- Each update is at an epoch that was updated before, at epoch 1 or after all of these. -/
def NeverBetween (seen : List UInt32) : List Update → Prop
  | [] => True
  | u :: us => (u.epoch ∈ seen ∨ ∀ k ∈ seen, k < u.epoch) ∧ NeverBetween (u.epoch :: seen) us

instance NeverBetween.decidable : ∀ seen us, Decidable (NeverBetween seen us)
  | _, [] => inferInstanceAs (Decidable True)
  | seen, u :: us =>
    @instDecidableAnd _ _ (@instDecidableOr _ _ _ (List.decidableBAll _ seen))
      (decidable (u.epoch :: seen) us)

variable {val : UInt32 → RawStorage} {l l1 l2 : List UInt32} {k x y : UInt32} {db db' : Db}
  {u : Update} {us : List Update}

/-! ## Well-formed lists -/

/-- The walk forward of a list whose links go through `l`. -/
theorem walk_next {n : Nat} (h : Segment db.nextLink (fun _ _ n => n) none l none)
    (hfirst : l.head? = some x) (hnodup : l.Nodup) (hn : l.length ≤ n) :
    walk db.nextLink n x = some l := by
  obtain ⟨l, k, rfl⟩ : ∃ l' k, l = l' ++ [k] :=
    ⟨_, _, (dropLast_append_getLast (ne_nil_of_mem (mem_of_head? hfirst))).symm⟩
  have hx : l.headD k = x := by cases l <;> simpa using hfirst
  rw [← hx]
  exact walk_eq h.leads_next hnodup (by simp at hn; omega)

/-- The walk back. -/
theorem walk_prev {n : Nat} (h : Segment db.prevLink (fun _ p _ => p) none l none)
    (hlast : l.getLast? = some k) (hnodup : l.Nodup) (hn : l.length ≤ n) :
    walk db.prevLink n k = some l.reverse := by
  cases l with
  | nil => cases hlast
  | cons x l =>
    have hleads := h.leads_prev (k := x)
    have hk : l.reverse.headD x = k := by
      simpa [getLast?_cons, headD_eq_head?_getD] using hlast
    rw [reverse_cons] at hleads ⊢
    rw [← hk]
    refine walk_eq hleads ?_ (by simp at hn ⊢; omega)
    rw [← reverse_cons]
    exact nodup_reverse.mpr hnodup

theorem nodup_of_sorted (h : l.Pairwise (· < ·)) : l.Nodup := h.imp UInt32.ne_of_lt

theorem Holds.wellFormed (h : Holds val l db) : db.WellFormed := by
  intro elu helu
  have hlast : l.getLast? = some elu := h.last.symm.trans helu
  have hlen := h.length_le hlast
  have hnodup := nodup_of_sorted h.sorted
  refine ⟨l, walk_next ?_ h.first hnodup (by omega), h.sorted, walk_prev ?_ hlast hnodup (by omega)⟩
  · exact h.nodes.map (f := Node.nextEpoch) (fun _ _ => rfl) fun _ _ _ _ => rfl
  · exact h.nodes.map (f := Node.prevEpoch) (fun _ _ => rfl) fun _ _ _ _ => rfl

/-- The new node is only on the way forward. -/
theorem Holds.not_wellFormed_between (h : Holds val (l1 ++ k :: y :: l2) db)
    (hk : k < x) (hy : x < y) (hlist : db'.linkedList = db.linkedList)
    (hnext : Segment db'.nextLink (fun _ _ n => n) none (l1 ++ k :: x :: y :: l2) none)
    (hprev : Segment db'.prevLink (fun _ p _ => p) none (l1 ++ k :: y :: l2) none) :
    ¬db'.WellFormed := by
  intro hwf
  have hlast : (l1 ++ k :: y :: l2).getLast? = some (l2.getLast?.getD y) := by
    simp [getLast?_cons]
  have hlast' : (l1 ++ k :: x :: y :: l2).getLast? = some (l2.getLast?.getD y) := by
    simp [getLast?_cons]
  obtain ⟨l, hforward, -, hback⟩ := hwf _ ((hlist.trans h.last).trans hlast)
  have hsorted := sorted_between h.sorted hk hy
  have hpos : ∀ z ∈ l1 ++ k :: x :: y :: l2, z ≠ 0 := by
    intro z hz
    by_cases hzx : z = x
    · rintro rfl
      exact absurd (hzx ▸ hk) (by simp)
    · exact h.pos (by simpa [hzx] using hz)
  have hlen := length_le_of_sorted hsorted hpos hlast'
  have hfirst : (l1 ++ k :: x :: y :: l2).head? = some 1 := by simpa using h.first
  rw [walk_next hnext hfirst (nodup_of_sorted hsorted) (by omega)] at hforward
  rw [walk_prev hprev hlast (nodup_of_sorted h.sorted) (by simp at hlen ⊢; omega)] at hback
  have hl := congrArg length (Option.some_inj.mp hforward)
  have hl' := congrArg length (Option.some_inj.mp hback)
  simp at hl hl'
  omega

/-! ## Values -/

theorem lastUpdate_append (t : UpdateType) (epoch : UInt32) : lastUpdate (us ++ [u]) t epoch =
    if u.key = t ∧ u.epoch ≤ epoch then some u else lastUpdate us t epoch := by
  unfold lastUpdate
  by_cases h : u.key = t ∧ u.epoch ≤ epoch
  · simp [filter_append, h]
  · simp only [filter_append, filter_singleton, h, decide_false, cond_false, append_nil, if_false]

theorem expected_append (t : UpdateType) (epoch : UInt32) : expected (us ++ [u]) t epoch =
    if u.key = t ∧ u.epoch ≤ epoch then u.parse else expected us t epoch := by
  unfold expected
  rw [lastUpdate_append]
  by_cases h : u.key = t ∧ u.epoch ≤ epoch
  · rw [if_pos h, if_pos h]
  · rw [if_neg h, if_neg h]

/-- Two epochs between which nothing was updated. -/
theorem expected_congr (t : UpdateType) (h : ∀ u ∈ us, u.epoch ≤ x ↔ u.epoch ≤ y) :
    expected us t x = expected us t y := by
  have hfilter : us.filter (fun u => u.key = t ∧ u.epoch ≤ x) =
      us.filter (fun u => u.key = t ∧ u.epoch ≤ y) :=
    filter_congr fun u hu => by simp only [h u hu]
  unfold expected lastUpdate
  rw [hfilter]

/-- The nodes are at epoch 1 and at the epochs of the updates, with the values that are expected. -/
structure Follows (us : List Update) (val : UInt32 → RawStorage) (l : List UInt32) : Prop where
  mem : ∀ k, k ∈ l ↔ k = 1 ∨ k ∈ us.map (·.epoch)
  value : ∀ k ∈ l, ∀ t, .ok ((val k).get t) = expected us t k

theorem Holds.reflects (h : Holds val l db) (hl : Follows us val l) : db.Reflects us := by
  intro epoch hepoch
  have hone : (1 : UInt32) ≤ epoch := UInt32.lt_iff_toNat_lt.mp (UInt32.pos_iff_ne_zero.mpr hepoch)
  obtain ⟨l1, k, l2, rfl, hk, hl2⟩ := exists_last_le ⟨1, (hl.mem 1).mpr (.inl rfl), hone⟩
  obtain ⟨n, hn, hfind⟩ := h.findNode_last (e := .invalid) hk hl2
  refine ⟨val k, ?_, fun t => (hl.value k (by simp) t).trans (expected_congr t fun u hu => ?_)⟩
  · simp only [Db.loadStorage, Db.loadRawStorage, hepoch, if_false, h.getLinkedList, hn, hfind,
      bind, Except.bind, pure, Except.pure]
  · refine ⟨fun hle => UInt32.le_trans hle hk, fun hle => ?_⟩
    have hmem := (hl.mem u.epoch).mpr (.inr (mem_map_of_mem hu))
    rcases mem_append.mp hmem with hmem | hmem
    · exact UInt32.le_of_lt ((pairwise_append.mp h.sorted).2.2 _ hmem k (by simp))
    · rcases mem_cons.mp hmem with heq | hmem
      · exact UInt32.le_of_eq heq
      · exact absurd hle (UInt32.not_le.mpr (hl2 _ hmem))

/-- An update at the epoch of a node keeps the values. -/
theorem Follows.at {v : Value} (h : Follows us val l) (hu : u.parse = .ok v) (hmem : u.epoch ∈ l) :
    Follows (us ++ [u]) (fun z => if u.epoch ≤ z then u.applyTo (val z) else val z) l := by
  refine ⟨fun k => ?_, fun k hk t => ?_⟩
  · rw [h.mem k, map_append, mem_append, map_singleton, mem_singleton]
    refine ⟨fun hk => hk.imp_right .inl, fun hk => ?_⟩
    rcases hk with hk | hk | rfl
    · exact .inl hk
    · exact .inr hk
    · exact (h.mem _).mp hmem
  · rw [expected_append]
    by_cases hle : u.epoch ≤ k
    · simp only [hle, if_true, and_true, (updateValue_applyTo hu (val k)).2, eq_comm (a := t)]
      split
      · exact hu.symm
      · exact h.value k hk t
    · simp only [hle, if_false, and_false]
      exact h.value k hk t

theorem Follows.after {v : Value} (h : Follows us val (l ++ [k])) (hu : u.parse = .ok v)
    (hlt : ∀ z ∈ l ++ [k], z ≤ k) (hk : k < u.epoch) :
    Follows (us ++ [u]) (Function.update val u.epoch (u.applyTo (val k)))
      (l ++ [k] ++ [u.epoch]) := by
  refine ⟨fun z => ?_, fun z hz t => ?_⟩
  · rw [mem_append, h.mem z, map_append, mem_append, map_singleton, or_assoc]
  · rw [expected_append]
    rcases mem_append.mp hz with hz | hz
    · have hzu := UInt32.lt_of_le_of_lt (hlt z hz) hk
      rw [Function.update_of_ne (UInt32.ne_of_lt hzu),
        if_neg fun hle => UInt32.not_le.mpr hzu hle.2]
      exact h.value z hz t
    · obtain rfl := mem_singleton.mp hz
      have hsame : expected us t k = expected us t u.epoch := by
        refine expected_congr t fun w hw => ?_
        have hwk := hlt _ ((h.mem w.epoch).mpr (.inr (mem_map_of_mem hw)))
        exact ⟨fun _ => UInt32.le_trans hwk (UInt32.le_of_lt hk), fun _ => hwk⟩
      rw [Function.update_self, (updateValue_applyTo hu (val k)).2, ← hsame]
      simp only [eq_comm (a := t), UInt32.le_refl, and_true]
      split
      · exact hu.symm
      · exact h.value k (by simp) t

/-! ## Runs -/

theorem holds_createLinkedList : ∃ db, Db.empty.createLinkedList = .ok db ∧
    Holds (fun _ => .standardParameters) [1] db := by
  refine ⟨_, rfl, pairwise_singleton .., rfl, rfl, ?_, trivial⟩
  rfl

/-- The database follows the updates; before the first one it is empty. -/
def Tracks (us : List Update) (db : Db) : Prop :=
  us = [] ∧ db = Db.empty ∨ ∃ val l, Holds val l db ∧ Follows us val l

theorem Tracks.wellFormed_reflects (h : Tracks us db) : db.WellFormed ∧ db.Reflects us := by
  rcases h with ⟨rfl, rfl⟩ | ⟨val, l, hl, hfollows⟩
  · refine ⟨nofun, fun epoch hepoch => ⟨.standardParameters, ?_, fun t => rfl⟩⟩
    simp [Db.loadStorage, Db.loadRawStorage, hepoch, Db.getLinkedList, Db.empty, bind, Except.bind]
  · exact ⟨hl.wellFormed, hl.reflects hfollows⟩

/-- A successful update is checked, and made on a list. -/
theorem Tracks.updateStorage (h : Tracks us db) (hrun : db.updateStorage u = .ok db') :
    u.epoch ≠ 0 ∧ (∃ v, u.parse = .ok v) ∧
      ∃ val l db0, Holds val l db0 ∧ Follows us val l ∧ db0.updateStorageValue u = .ok db' := by
  obtain ⟨_, hcheck, hrun⟩ := bind_ok hrun
  have hepoch : u.epoch ≠ 0 := by
    intro h0
    simp [Db.checkUpdate, h0] at hcheck
  have hparse : ∃ v, u.parse = .ok v := by
    simp only [Db.checkUpdate, if_neg hepoch] at hcheck
    obtain ⟨rs, hrs, -⟩ := bind_ok hcheck
    rcases (default : RawStorage).updateValue_cases u with ⟨e, -, he⟩ | ⟨v, -, hv, -, -⟩
    · cases hrs.symm.trans he
    · exact ⟨v, hv⟩
  refine ⟨hepoch, hparse, ?_⟩
  rcases h with ⟨rfl, rfl⟩ | ⟨val, l, hl, hfollows⟩
  · obtain ⟨db0, hdb0, hholds⟩ := holds_createLinkedList
    refine ⟨_, _, db0, hholds, ⟨fun k => by simp, fun k _ t => rfl⟩, ?_⟩
    have hnone : Db.empty.getLinkedList = .error .keyNotPresent := rfl
    simpa [hnone, hdb0, bind, Except.bind] using hrun
  · refine ⟨val, l, db, hl, hfollows, ?_⟩
    obtain ⟨l', k, rfl⟩ : ∃ l' k, l = l' ++ [k] :=
      ⟨_, _, (dropLast_append_getLast (ne_nil_of_mem (mem_of_head? hl.first))).symm⟩
    simpa [hl.getLinkedList] using hrun

/-- An update keeps what the database follows, or makes the list ill formed. -/
theorem Tracks.step (h : Tracks us db) (hrun : db.updateStorage u = .ok db') :
    if u.epoch ∈ [1] ++ us.map (·.epoch) ∨ ∀ k ∈ [1] ++ us.map (·.epoch), k < u.epoch then
      Tracks (us ++ [u]) db'
    else ¬db'.WellFormed := by
  obtain ⟨hepoch, ⟨v, hu⟩, val, l, db0, hl, hfollows, hvalue⟩ := h.updateStorage hrun
  have hmem (k) : k ∈ [1] ++ us.map (·.epoch) ↔ k ∈ l := by
    rw [mem_append, mem_singleton, hfollows.mem]
  simp only [hmem]
  have hone : (1 : UInt32) ≤ u.epoch :=
    UInt32.lt_iff_toNat_lt.mp (UInt32.pos_iff_ne_zero.mpr hepoch)
  obtain ⟨l1, k, l2, rfl, hk, hl2⟩ := exists_last_le ⟨1, (hfollows.mem 1).mpr (.inl rfl), hone⟩
  have hlt := (pairwise_append.mp hl.sorted).2.2
  rcases UInt32.le_iff_lt_or_eq.mp hk with hk | rfl
  · cases l2 with
    | nil =>
      have hle : ∀ z ∈ l1 ++ [k], z ≤ k := by
        intro z hz
        rcases mem_append.mp hz with hz | hz
        · exact UInt32.le_of_lt (hlt z hz k (by simp))
        · exact UInt32.le_of_eq (mem_singleton.mp hz)
      rw [if_pos (.inr fun z hz => UInt32.lt_of_le_of_lt (hle z hz) hk)]
      obtain ⟨db₁, hdb₁, hholds⟩ := hl.updateStorageValue_after hu hk
      obtain rfl := Except.ok.inj (hdb₁.symm.trans hvalue)
      exact .inr ⟨_, _, hholds, hfollows.after hu hle hk⟩
    | cons y l2 =>
      have hy := hl2 y (by simp)
      have hnot : ¬(u.epoch ∈ l1 ++ k :: y :: l2 ∨ ∀ z ∈ l1 ++ k :: y :: l2, z < u.epoch) := by
        rintro (hu | hall)
        · rcases mem_append.mp hu with hu | hu
          · exact UInt32.lt_irrefl _ (UInt32.lt_trans (hlt _ hu k (by simp)) hk)
          · rcases mem_cons.mp hu with heq | hu
            · exact UInt32.ne_of_lt hk heq.symm
            · exact UInt32.lt_irrefl _ (hl2 _ hu)
        · exact UInt32.lt_irrefl _ (UInt32.lt_trans hy (hall y (by simp)))
      rw [if_neg hnot]
      obtain ⟨db₁, hdb₁, hlist, hnext, hprev⟩ := hl.updateStorageValue_between hu hk hy
      obtain rfl := Except.ok.inj (hdb₁.symm.trans hvalue)
      exact hl.not_wellFormed_between hk hy hlist hnext hprev
  · rw [if_pos (.inl (by simp))]
    obtain ⟨db₁, hdb₁, hholds⟩ := hl.updateStorageValue_at hu
    obtain rfl := Except.ok.inj (hdb₁.symm.trans hvalue)
    exact .inr ⟨_, _, hholds, hfollows.at hu (by simp)⟩

theorem neverBetween_append {seen : List UInt32} : NeverBetween seen (us ++ [u]) ↔
    NeverBetween seen us ∧ (u.epoch ∈ seen ++ us.map (·.epoch) ∨
      ∀ k ∈ seen ++ us.map (·.epoch), k < u.epoch) := by
  induction us generalizing seen with
  | nil => simp [NeverBetween]
  | cons w us ih =>
    have hmem (k) : k ∈ (w.epoch :: seen) ++ us.map (·.epoch) ↔
      k ∈ seen ++ (w :: us).map (·.epoch) := by
      simp only [cons_append, map_cons, mem_cons, mem_append]
      tauto
    rw [cons_append, NeverBetween, ih, NeverBetween, and_assoc]
    simp only [hmem]

theorem run_append : run (us ++ [u]) = .ok db' ↔ ∃ db, run us = .ok db ∧
    db.updateStorage u = .ok db' := by
  unfold run
  rw [foldlM_append]
  simp only [foldlM_cons, foldlM_nil, bind_pure]
  exact bind_eq_ok

theorem NeverBetween.of_prefix {seen : List UInt32} {us₁ : List Update} (hpre : us₁ <+: us)
    (h : NeverBetween seen us) : NeverBetween seen us₁ := by
  obtain ⟨us2, rfl⟩ := hpre
  induction us2 using reverseRecOn with
  | nil => rwa [append_nil] at h
  | append_singleton us2 u ih =>
    rw [← append_assoc] at h
    exact ih (neverBetween_append.mp h).1

theorem tracks_of_neverBetween (h : NeverBetween [1] us) (hrun : run us = .ok db) :
    Tracks us db := by
  induction us using reverseRecOn generalizing db with
  | nil => exact .inl ⟨rfl, (Except.ok.inj hrun).symm⟩
  | append_singleton us u ih =>
    obtain ⟨db₁, hdb₁, hstep⟩ := run_append.mp hrun
    obtain ⟨hus, hu⟩ := neverBetween_append.mp h
    have hnext := (ih hus hdb₁).step hstep
    rwa [if_pos hu] at hnext

/-- After every one of a sequence of successful updates, the list is well formed and every field has
the value of the last update to it that is in force, exactly if each update is at epoch 1, at an
epoch that was updated before or after all of these. -/
theorem wellFormed_reflects_iff (us : List Update) (db : Db) (hrun : run us = .ok db) :
    (∀ us₁ db₁, us₁ <+: us → run us₁ = .ok db₁ → db₁.WellFormed ∧ db₁.Reflects us₁) ↔
      NeverBetween [1] us := by
  refine ⟨fun h => ?_, fun h us₁ db₁ hpre hrun₁ => ?_⟩
  · induction us using reverseRecOn generalizing db with
    | nil => trivial
    | append_singleton us u ih =>
      obtain ⟨db₁, hdb₁, hstep⟩ := run_append.mp hrun
      have hus := ih db₁ hdb₁ fun us₁ db₂ hpre => h us₁ db₂ (hpre.trans (prefix_append ..))
      refine neverBetween_append.mpr ⟨hus, ?_⟩
      -- otherwise the list after `u` is not well formed
      by_contra hu
      have hnext := (tracks_of_neverBetween hus hdb₁).step hstep
      rw [if_neg hu] at hnext
      exact hnext (h _ db (prefix_refl _) hrun).1
  · exact (tracks_of_neverBetween (h.of_prefix hpre) hrun₁).wellFormed_reflects

/-- Two updates at one epoch and one after them. -/
theorem wellFormed_reflects_sample :
    let us : List Update := [⟨.minTxFee, "7", 10⟩, ⟨.maxBytes, "5000", 10⟩, ⟨.minTxFee, "9", 20⟩]
    ∃ db, run us = .ok db ∧
      ∀ us₁ db₁, us₁ <+: us → run us₁ = .ok db₁ → db₁.WellFormed ∧ db₁.Reflects us₁ := by
  intro us
  have hok : (run us).isOk := by decide +kernel
  cases hrun : run us with
  | error e => simp [hrun, Except.isOk, Except.toBool] at hok
  | ok db => exact ⟨db, rfl, (wellFormed_reflects_iff us db hrun).mpr (by decide)⟩

/-- An update at epoch 5 after one at epoch 10: the walk back from node 10 goes to node 1, and the
fee at epoch 7 is the standard one. -/
theorem updateStorage_between :
    let us : List Update := [⟨.minTxFee, "7", 10⟩, ⟨.minTxFee, "3", 5⟩]
    ∃ db, run us = .ok db ∧ walk db.nextLink 11 1 = some [1, 5, 10] ∧
      walk db.prevLink 11 10 = some [10, 1] ∧
      (db.loadStorage 7).map (·.get .minTxFee) = .ok (RawStorage.standardParameters.get .minTxFee) ∧
      expected us .minTxFee 7 = .ok (.bigInt 3) ∧ ¬db.WellFormed ∧ ¬db.Reflects us := by
  intro us
  have hall : (run us).toOption.any fun db => walk db.nextLink 11 1 = some [1, 5, 10] ∧
      walk db.prevLink 11 10 = some [10, 1] ∧
      (db.loadStorage 7).map (·.get .minTxFee) =
        .ok (RawStorage.standardParameters.get .minTxFee) ∧ ¬db.WellFormed := by
    decide +kernel
  have hexpected : expected us .minTxFee 7 = .ok (.bigInt 3) := by decide +kernel
  cases hrun : run us with
  | error e => simp [hrun, Except.toOption] at hall
  | ok db =>
    simp only [hrun, Except.toOption, Option.any_some, decide_eq_true_eq] at hall
    obtain ⟨hnext, hprev, hload, hwf⟩ := hall
    refine ⟨db, rfl, hnext, hprev, hload, hexpected, hwf, fun hreflects => ?_⟩
    obtain ⟨rs, hrs, hget⟩ := hreflects 7 (by decide)
    rw [hrs] at hload
    have hstandard := (hload.symm.trans (hget .minTxFee)).trans hexpected
    exact absurd hstandard (by decide)

end MadNet.Dynamics
