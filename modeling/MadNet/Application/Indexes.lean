import MadNet.Application.Handlers
import MadNet.Lib.Index

/-!
# The indexes of the UTXOs

`UTXOHandler.ApplyState` drops the consumed UTXOs from the indexes, adds the generated ones, and
then updates the trie. The invariant `Indexed` is about an arbitrary set of UTXOs, so that it can be
followed through the first two stages, when the trie is still the old one.
-/

namespace MadNet.App

open Function (update update_of_ne update_self)
open Prog (bind_ok bind₂_ok)
open Index List UTXOHandler Option Batch TXOut

variable {ι : Type} [DecidableEq ι] (S : Scheme ι)

/-! ## Keys -/

namespace TXOut

variable (out : TXOut ι)

def valueKey (utxoID : ι) : Option (ValueKey ι) :=
  match out with
  | .valueStore vs => some (vs.preImage.owner, vs.preImage.value, utxoID)
  | _ => none

def expKey : Option (Nat × Nat) :=
  match out with
  | .dataStore ds => ds.preImage.epochOfExpiration.toOption.map (·, S.objSize out)
  | _ => none

section

omit [DecidableEq ι]

@[simp] theorem preHash_stored : out.stored.preHash S = out.preHash S := by cases out <;> rfl

theorem valueKey_id {out : TXOut ι} {utxoID : ι} {key : ValueKey ι}
    (h : out.valueKey utxoID = some key) : key.2.2 = utxoID := by
  cases out with
  | valueStore vs =>
    cases h
    rfl
  | dataStore ds | atomicSwap as => cases h

end

end TXOut

/-! ## The invariant -/

namespace State

variable (st : State ι)

/-- The indexes hold exactly the UTXOs of `utxos`. -/
structure Indexed (utxos : ι → Option (TXOut ι)) : Prop where
  value : Mirrors st.valueIndex.lookup st.valueIndex.ref
    fun utxoID => (utxos utxoID).bind (·.valueKey utxoID)
  data : Mirrors st.dataIndex.lookup st.dataIndex.ref
    fun utxoID => (utxos utxoID).bind TXOut.dataIndex
  exp_ref : st.expIndex.ref = fun utxoID => (utxos utxoID).bind (TXOut.expKey S)
  exp_keys : ∀ expEpoch size utxoID,
    (expEpoch, size, utxoID) ∈ st.expIndex.keys ↔ st.expIndex.ref utxoID = some (expEpoch, size)

end State

variable {S} {st st' : State ι} {utxos : ι → Option (TXOut ι)} {utxoID : ι}

/-! ## Dropping a UTXO -/

theorem ValueIndex.drop_eq_ok {vi vi' : ValueIndex ι} (h : vi.drop utxoID = .ok vi') :
    ∃ key, vi.ref utxoID = some key ∧ vi'.lookup = update vi.lookup key none ∧
      vi'.ref = update vi.ref utxoID none := by
  unfold drop at h
  split at h
  · cases h
  · rename_i key hkey
    cases h
    exact ⟨key, hkey, rfl, rfl⟩

theorem DataIndex.drop_eq_ok {di di' : DataIndex ι} (h : di.drop utxoID = .ok di') :
    ∃ key, di.ref utxoID = some key ∧ di'.lookup = update di.lookup key none ∧
      di'.ref = update di.ref utxoID none := by
  unfold drop at h
  split at h
  · cases h
  · rename_i key hkey
    cases h
    exact ⟨key, hkey, rfl, rfl⟩

theorem ExpSizeIndex.drop_eq_ok {ei ei' : ExpSizeIndex ι} (h : ei.drop utxoID = .ok ei') :
    ∃ expEpoch size, ei.ref utxoID = some (expEpoch, size) ∧
      ei'.keys = ei.keys.filter (· ≠ (expEpoch, size, utxoID)) ∧
      ei'.ref = update ei.ref utxoID none := by
  unfold drop at h
  split at h
  · cases h
  · rename_i expEpoch size hkey
    cases h
    exact ⟨expEpoch, size, hkey, rfl, rfl⟩

namespace State.Indexed

theorem drop_valueStore {vi : ValueIndex ι} (h : st.Indexed S utxos)
    (hdrop : st.valueIndex.drop utxoID = .ok vi) :
    State.Indexed S { st with valueIndex := vi } (update utxos utxoID none) := by
  obtain ⟨key, hkey, hlookup, href⟩ := ValueIndex.drop_eq_ok hdrop
  rw [h.value.ref_eq] at hkey
  obtain ⟨out, hout, hvs⟩ := bind_eq_some_iff.mp hkey
  cases out with
  | dataStore ds | atomicSwap as => cases hvs
  | valueStore vs =>
    refine ⟨?_, ?_, ?_, h.exp_keys⟩
    · rw [bind_update fun utxoID (out : TXOut ι) => out.valueKey utxoID, bind_none]
      simpa only [hlookup, href] using h.value.drop hkey
    · rw [bind_update_of_eq (fun _ => TXOut.dataIndex) utxos utxoID (by rw [hout]; rfl)]
      exact h.data
    · rw [bind_update_of_eq (fun _ => TXOut.expKey S) utxos utxoID (by rw [hout]; rfl)]
      exact h.exp_ref

theorem drop_dataStore {ei : ExpSizeIndex ι} {di : DataIndex ι} (h : st.Indexed S utxos)
    (hexp : st.expIndex.drop utxoID = .ok ei) (hdata : st.dataIndex.drop utxoID = .ok di) :
    State.Indexed S { st with expIndex := ei, dataIndex := di }
      (update utxos utxoID none) := by
  obtain ⟨key, hkey, hlookup, href⟩ := DataIndex.drop_eq_ok hdata
  obtain ⟨expEpoch, size, hekey, hekeys, heref⟩ := ExpSizeIndex.drop_eq_ok hexp
  rw [h.data.ref_eq] at hkey
  obtain ⟨out, hout, hds⟩ := bind_eq_some_iff.mp hkey
  cases out with
  | valueStore vs | atomicSwap as => cases hds
  | dataStore ds =>
    refine ⟨?_, ?_, ?_, fun expEpoch' size' utxoID' => ?_⟩
    · rw [bind_update_of_eq (fun utxoID (out : TXOut ι) => out.valueKey utxoID) utxos utxoID
        (by rw [hout]; rfl)]
      exact h.value
    · rw [bind_update fun _ => TXOut.dataIndex, bind_none]
      simpa only [hlookup, href] using h.data.drop hkey
    · rw [bind_update fun _ => TXOut.expKey S]
      simp only [heref, h.exp_ref, bind_none]
    · simp only [hekeys, heref, mem_filter, h.exp_keys, decide_eq_true_eq]
      by_cases hid : utxoID' = utxoID
      · subst hid
        rw [update_self, hekey]
        simp only [some.injEq, Prod.mk.injEq, ne_eq, and_true, reduceCtorEq, iff_false, not_and]
        exact fun heq hne => hne heq.1.symm heq.2.symm
      · rw [update_of_ne hid]
        simp [hid]

/-! ## Adding a UTXO -/

variable {stored : ι → Option (TXOut ι)}

theorem add_valueStore {vs : ValueStore ι} (h : st.Indexed S utxos) (hnew : utxos utxoID = none) :
    State.Indexed S { st with
      valueIndex := st.valueIndex.add utxoID vs.preImage.owner vs.preImage.value
      utxos := stored } (update utxos utxoID (some (valueStore vs).stored)) := by
  refine ⟨?_, ?_, ?_, h.exp_keys⟩
  · rw [bind_update fun utxoID (out : TXOut ι) => out.valueKey utxoID]
    refine h.value.add (by rw [hnew]; rfl) (h.value.lookup_eq_none fun utxoID' hkey => ?_)
    -- the ID is part of the key
    obtain ⟨out, hout, hvs⟩ := bind_eq_some_iff.mp hkey
    obtain rfl : utxoID = utxoID' := valueKey_id hvs
    exact some_ne_none _ (hout.symm.trans hnew)
  · rw [bind_update_of_eq (fun _ => TXOut.dataIndex) utxos utxoID (by rw [hnew]; rfl)]
    exact h.data
  · rw [bind_update_of_eq (fun _ => TXOut.expKey S) utxos utxoID (by rw [hnew]; rfl)]
    exact h.exp_ref

theorem add_dataStore {ds : DataStore ι} {expEpoch : Nat} {di : DataIndex ι}
    (h : st.Indexed S utxos) (hnew : utxos utxoID = none)
    (hexp : ds.preImage.epochOfExpiration = .ok expEpoch)
    (hdata : st.dataIndex.add utxoID (ds.preImage.owner, ds.preImage.index) = .ok di) :
    State.Indexed S { st with
      expIndex := st.expIndex.add expEpoch utxoID (S.objSize (.dataStore ds))
      dataIndex := di
      utxos := stored } (update utxos utxoID (some (.dataStore ds))) := by
  unfold DataIndex.add at hdata
  split at hdata
  · cases hdata
  rename_i hnone
  cases hdata
  have hkey : expKey S (.dataStore ds) = some (expEpoch, S.objSize (.dataStore ds)) := by
    simp only [expKey, hexp]
    rfl
  refine ⟨?_, ?_, ?_, fun expEpoch' size' utxoID' => ?_⟩
  · rw [bind_update_of_eq (fun utxoID (out : TXOut ι) => out.valueKey utxoID) utxos utxoID
      (by rw [hnew]; rfl)]
    exact h.value
  · rw [bind_update fun _ => TXOut.dataIndex]
    exact h.data.add (by rw [hnew]; rfl) hnone
  · rw [bind_update fun _ => TXOut.expKey S, bind_some, hkey]
    simp only [ExpSizeIndex.add, h.exp_ref]
  · simp only [ExpSizeIndex.add, mem_setKey, h.exp_keys]
    by_cases hid : utxoID' = utxoID
    · subst hid
      have hold : st.expIndex.ref utxoID' = none := by
        rw [h.exp_ref]
        simp only [hnew, bind_none]
      simp [hold, eq_comm]
    · simp [hid]

end State.Indexed

/-! ## One UTXO of a block -/

/-- The states differ in the stored UTXOs and the indexes only. -/
structure State.SameBase (st st' : State ι) : Prop where
  currentRoot : st'.currentRoot = st.currentRoot
  nodes : st'.nodes = st.nodes
  pendingRoot : st'.pendingRoot = st.pendingRoot
  deposits : st'.deposits = st.deposits
  pool : st'.pool = st.pool

omit [DecidableEq ι] in
theorem State.SameBase.refl (st : State ι) : st.SameBase st := ⟨rfl, rfl, rfl, rfl, rfl⟩

omit [DecidableEq ι] in
theorem State.SameBase.trans {st'' : State ι} (h : st.SameBase st') (h' : st'.SameBase st'') :
    st.SameBase st'' :=
  ⟨h'.currentRoot.trans h.currentRoot, h'.nodes.trans h.nodes, h'.pendingRoot.trans h.pendingRoot,
    h'.deposits.trans h.deposits, h'.pool.trans h.pool⟩

omit [DecidableEq ι] in
theorem State.SameBase.getCurrentStateRoot (h : st.SameBase st') :
    st'.getCurrentStateRoot S = st.getCurrentStateRoot S := by
  rw [State.getCurrentStateRoot, h.currentRoot]
  rfl

theorem State.SameBase.getCurrentTrie (h : st.SameBase st') :
    st'.getCurrentTrie S = st.getCurrentTrie S := by
  rw [State.getCurrentTrie, h.getCurrentStateRoot, h.nodes]
  rfl

theorem State.SameBase.trieContains (h : st.SameBase st') (utxoID : ι) :
    st'.trieContains S utxoID = st.trieContains S utxoID := by
  rw [State.trieContains, h.getCurrentTrie]
  rfl

/-- The UTXOs of `m` are stored and indexed, and there is no AtomicSwap among them. -/
structure State.Backs (S : Scheme ι) (st : State ι) (m : AList fun _ : ι => TXOut ι) : Prop where
  indexed : st.Indexed S m.lookup
  stored : ∀ {utxoID utxo}, m.lookup utxoID = some utxo → st.utxos utxoID = some utxo
  swapless : ∀ {utxoID as}, m.lookup utxoID ≠ some (.atomicSwap as)

namespace State.Backs

variable {m : AList fun _ : ι => TXOut ι}

theorem drop (h : st.Backs S m) (hdrop : dropFromIndexes st utxoID = .ok st') :
    st'.Backs S (write m (utxoID, none)) ∧ utxoID ∈ m := by
  have hstored {st'' : State ι} (hutxos : st''.utxos = st.utxos) {id utxo}
      (hid : (write m (utxoID, none)).lookup id = some utxo) :
      m.lookup id = some utxo ∧ st''.utxos id = some utxo := by
    by_cases hne : id = utxoID
    · rw [hne, lookup_write_self] at hid
      cases hid
    · rw [lookup_write_ne hne] at hid
      exact ⟨hid, by rw [hutxos, h.stored hid]⟩
  have hmem {α : Type} {f : TXOut ι → Option α} {a : α} (ha : (m.lookup utxoID).bind f = some a) :
      utxoID ∈ m := by
    obtain ⟨utxo, hutxo, -⟩ := bind_eq_some_iff.mp ha
    exact AList.lookup_isSome.mp (by rw [hutxo]; rfl)
  unfold dropFromIndexes at hdrop
  split at hdrop
  · cases hdrop
  · obtain ⟨ei, di, hexp, hdata, hdrop⟩ := bind₂_ok hdrop
    cases hdrop
    obtain ⟨key, hkey, -, -⟩ := DataIndex.drop_eq_ok hdata
    refine ⟨⟨?_, fun hid => (hstored rfl hid).2, fun hid => ?_⟩, ?_⟩
    · rw [lookup_write]
      exact h.indexed.drop_dataStore hexp hdata
    · exact h.swapless (hstored rfl hid).1
    · rw [h.indexed.data.ref_eq] at hkey
      exact hmem hkey
  · obtain ⟨vi, hvalue, hdrop⟩ := bind_ok hdrop
    cases hdrop
    obtain ⟨key, hkey, -, -⟩ := ValueIndex.drop_eq_ok hvalue
    refine ⟨⟨?_, fun hid => (hstored rfl hid).2, fun hid => ?_⟩, ?_⟩
    · rw [lookup_write]
      exact h.indexed.drop_valueStore hvalue
    · exact h.swapless (hstored rfl hid).1
    · rw [h.indexed.value.ref_eq] at hkey
      exact hmem hkey
  · cases hdrop

theorem add {utxo : TXOut ι} (h : st.Backs S m) (hadd : addOne S st utxo = .ok st')
    (hnew : utxo.utxoID S ∉ m) :
    st'.Backs S (write m (utxo.utxoID S, some utxo.stored)) := by
  have hnone : m.lookup (utxo.utxoID S) = none := AList.lookup_eq_none.mpr hnew
  have hstored {id utxo'}
      (hid : (write m (utxo.utxoID S, some utxo.stored)).lookup id = some utxo') :
      update st.utxos (utxo.utxoID S) (some utxo.stored) id = some utxo' ∧
        (m.lookup id = some utxo' ∨ utxo' = utxo.stored) := by
    by_cases hne : id = utxo.utxoID S
    · rw [hne, lookup_write_self] at hid
      rw [hne, update_self]
      exact ⟨hid, .inr (some.inj hid).symm⟩
    · rw [lookup_write_ne hne] at hid
      rw [update_of_ne hne]
      exact ⟨h.stored hid, .inl hid⟩
  obtain ⟨_, -, hadd⟩ := bind_ok hadd
  cases utxo with
  | dataStore ds =>
    obtain ⟨expEpoch, di, hexp, hdata, hadd⟩ := bind₂_ok hadd
    cases hadd
    refine ⟨?_, fun hid => (hstored hid).1, fun hid => ?_⟩
    · rw [lookup_write]
      exact h.indexed.add_dataStore hnone hexp hdata
    · rcases (hstored hid).2 with hid | hid
      · exact h.swapless hid
      · cases hid
  | valueStore vs =>
    cases hadd
    refine ⟨?_, fun hid => (hstored hid).1, fun hid => ?_⟩
    · rw [lookup_write]
      exact h.indexed.add_valueStore hnone
    · rcases (hstored hid).2 with hid | hid
      · exact h.swapless hid
      · cases hid
  | atomicSwap as => cases hadd

end State.Backs

theorem UTXOHandler.dropFromIndexes_base (h : dropFromIndexes st utxoID = .ok st') :
    st.SameBase st' := by
  unfold dropFromIndexes at h
  split at h
  · cases h
  · obtain ⟨_, _, -, -, h⟩ := bind₂_ok h
    cases h
    exact ⟨rfl, rfl, rfl, rfl, rfl⟩
  · obtain ⟨_, -, h⟩ := bind_ok h
    cases h
    exact ⟨rfl, rfl, rfl, rfl, rfl⟩
  · cases h

theorem UTXOHandler.addOne_base {utxo : TXOut ι} (h : addOne S st utxo = .ok st') :
    st.SameBase st' ∧ st.trieContains S (utxo.utxoID S) = .ok false := by
  obtain ⟨_, hnew, h⟩ := bind_ok h
  have hnew := (checkTrie_eq_ok S).mp hnew
  cases utxo with
  | dataStore ds =>
    obtain ⟨_, _, -, -, h⟩ := bind₂_ok h
    cases h
    exact ⟨⟨rfl, rfl, rfl, rfl, rfl⟩, hnew⟩
  | valueStore vs =>
    cases h
    exact ⟨⟨rfl, rfl, rfl, rfl, rfl⟩, hnew⟩
  | atomicSwap as => cases h

/-! ## The UTXOs of a block -/

namespace State.Backs

variable {m : AList fun _ : ι => TXOut ι}

theorem drop_all {utxoIDs : List ι} (h : st.Backs S m)
    (hdrop : utxoIDs.foldlM dropFromIndexes st = .ok st') :
    st'.Backs S ((utxoIDs.map (·, none)).foldl write m) ∧ ∀ utxoID ∈ utxoIDs, utxoID ∈ m := by
  induction utxoIDs generalizing st m with
  | nil =>
    cases hdrop
    exact ⟨h, by simp⟩
  | cons utxoID utxoIDs ih =>
    rw [foldlM_cons] at hdrop
    obtain ⟨st1, hdrop1, hdrop⟩ := bind_ok hdrop
    obtain ⟨h1, hmem⟩ := h.drop hdrop1
    obtain ⟨h', hall⟩ := ih h1 hdrop
    refine ⟨h', fun id hid => ?_⟩
    rcases mem_cons.mp hid with rfl | hid
    · exact hmem
    · exact (AList.mem_erase.mp (hall id hid)).2

end State.Backs

theorem UTXOHandler.dropAll_base {utxoIDs : List ι}
    (h : utxoIDs.foldlM dropFromIndexes st = .ok st') : st.SameBase st' := by
  induction utxoIDs generalizing st with
  | nil =>
    obtain rfl := Except.ok.inj h
    exact .refl st
  | cons utxoID utxoIDs ih =>
    rw [foldlM_cons] at h
    obtain ⟨st1, hdrop, h⟩ := bind_ok h
    exact (dropFromIndexes_base hdrop).trans (ih h)

theorem UTXOHandler.addAll_base {outs : List (TXOut ι)} (h : outs.foldlM (addOne S) st = .ok st') :
    st.SameBase st' ∧ ∀ utxo ∈ outs, st.trieContains S (utxo.utxoID S) = .ok false := by
  induction outs generalizing st with
  | nil =>
    obtain rfl := Except.ok.inj h
    exact ⟨.refl st, by simp⟩
  | cons utxo outs ih =>
    rw [foldlM_cons] at h
    obtain ⟨st1, hadd, h⟩ := bind_ok h
    obtain ⟨hbase, hnew⟩ := addOne_base hadd
    obtain ⟨hbase', hall⟩ := ih h
    refine ⟨hbase.trans hbase', fun utxo' hutxo' => ?_⟩
    rcases mem_cons.mp hutxo' with rfl | hutxo'
    · exact hnew
    · rw [← hbase.trieContains]
      exact hall utxo' hutxo'

theorem State.Backs.add_all {outs : List (TXOut ι)} {m : AList fun _ : ι => TXOut ι}
    (h : st.Backs S m) (hadd : outs.foldlM (addOne S) st = .ok st')
    (hnodup : (outs.map (·.utxoID S)).Nodup) (hnew : ∀ utxo ∈ outs, utxo.utxoID S ∉ m) :
    st'.Backs S ((outs.map fun utxo => (utxo.utxoID S, some utxo.stored)).foldl write m) := by
  induction outs generalizing st m with
  | nil =>
    cases hadd
    exact h
  | cons utxo outs ih =>
    rw [foldlM_cons] at hadd
    obtain ⟨st1, hadd1, hadd⟩ := bind_ok hadd
    rw [map_cons, nodup_cons] at hnodup
    refine ih (h.add hadd1 (hnew utxo (by simp))) hadd hnodup.2 fun utxo' hutxo' hmem => ?_
    rcases (AList.mem_insert m).mp hmem with heq | hmem
    · exact hnodup.1 (heq ▸ mem_map_of_mem hutxo')
    · exact hnew utxo' (by simp [hutxo']) hmem

end MadNet.App
