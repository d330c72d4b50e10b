import MadNet.Application.Handlers
import MadNet.Trie.History

/-!
# The UTXO trie (`utxotrie.go`)

The trie of the application is a trie of `MadNet.Trie` whose keys are UTXO IDs. As long as no block
deletes the only key of a subtree together with smaller and larger keys of the subtree, the entries
of the trie after a block are those that it has written and those that were there before.
-/

namespace MadNet.App

open List Prog
open Trie (Key Digest SMT Clashes applyKVs applyKVs_eq_some)
open Trie.Digest (hasher collisionFree)

/-! ## Sorted updates -/

section

variable {D : Type} {kvs : List (Key × D)} {kv : Key × D}

theorem sortKVs_perm (kvs : List (Key × D)) : (sortKVs kvs).Perm kvs := perm_insertionSort _ kvs

theorem mem_sortKVs : kv ∈ sortKVs kvs ↔ kv ∈ kvs := (sortKVs_perm kvs).mem_iff

theorem clashes_sortKVs {H : Trie.Hasher D} {present : Key → Prop} :
    Clashes H present (sortKVs kvs) ↔ Clashes H present kvs := by
  simp only [Clashes, mem_sortKVs]

theorem sorted_sortKVs (hnodup : (kvs.map Prod.fst).Nodup) : Trie.Sorted (sortKVs kvs) := by
  have htotal : Std.Total fun a b : Key × D => a.1 ≤ b.1 := ⟨fun a b => BitVec.le_total a.1 b.1⟩
  have htrans : IsTrans (Key × D) fun a b => a.1 ≤ b.1 := ⟨fun _ _ _ => BitVec.le_trans⟩
  have hle : (sortKVs kvs).Pairwise fun a b => a.1 ≤ b.1 := pairwise_insertionSort _ kvs
  have hne : ((sortKVs kvs).map Prod.fst).Nodup :=
    ((sortKVs_perm kvs).map Prod.fst).nodup_iff.mpr hnodup
  refine hle.imp₂ (fun a b hab hne => ?_) (pairwise_map.mp hne)
  exact BitVec.lt_of_le_ne hab hne

end

variable {ι : Type} [DecidableEq ι] {S : Scheme ι} {trie trie' : SMT (Digest ι)}
  {kvs : List (ι × Option ι)}

/-- A successful update has found no key twice. -/
theorem updateTrie_ok (h : updateTrie S trie kvs = .ok trie') :
    (kvs.map fun kv => S.key kv.1).Nodup ∧
      let sorted := sortKVs (kvs.map (trieEntry S))
      ∃ root, SMT.update hasher (sorted.map Prod.fst) (sorted.map Prod.snd) trie =
        .ok root trie' := by
  unfold updateTrie at h
  dsimp only at h
  split at h
  next root _ hupdate =>
    cases h
    refine ⟨?_, root, hupdate⟩
    have hnodup := SMT.nodup_of_update hupdate
    rw [((sortKVs_perm _).map Prod.fst).nodup_iff, map_map] at hnodup
    exact hnodup
  next => cases h

/-! ## What an update leaves -/

/-- What is written is in the map, and the rest stays. -/
structure Updated (m m' : ι → Option (Digest ι)) (kvs : List (ι × Option ι)) : Prop where
  of_mem : ∀ {utxoID v}, (utxoID, v) ∈ kvs → m' utxoID = v.map .value
  of_notMem : ∀ {utxoID}, utxoID ∉ kvs.map Prod.fst → m' utxoID = m utxoID

theorem updated_applyKVs (hkey : Function.Injective S.key) {m : Key → Option (Digest ι)}
    (hnodup : (kvs.map fun kv => S.key kv.1).Nodup) :
    Updated (fun utxoID => m (S.key utxoID))
      (fun utxoID => applyKVs hasher m (sortKVs (kvs.map (trieEntry S))) (S.key utxoID)) kvs := by
  have hsorted : Trie.Sorted (sortKVs (kvs.map (trieEntry S))) :=
    sorted_sortKVs (by rwa [map_map])
  have hmem {kv} : kv ∈ sortKVs (kvs.map (trieEntry S)) ↔ ∃ w ∈ kvs, trieEntry S w = kv := by
    rw [mem_sortKVs, mem_map]
  constructor
  · intro utxoID v hv
    have hentry : (S.key utxoID, v.elim .defaultLeaf .value) ∈ sortKVs (kvs.map (trieEntry S)) :=
      hmem.mpr ⟨_, hv, rfl⟩
    cases v with
    | some v => exact (applyKVs_eq_some hsorted).mpr (.inl ⟨hentry, nofun⟩)
    | none =>
      refine Option.eq_none_iff_forall_ne_some.mpr fun d hd => ?_
      rcases (applyKVs_eq_some hsorted).mp hd with ⟨hd, hne⟩ | ⟨-, hnot⟩
      · -- the key is written only once
        obtain ⟨w, hw, heq⟩ := hmem.mp hd
        obtain ⟨hid, hval⟩ := Prod.mk.inj heq
        obtain rfl : w = (utxoID, none) := inj_on_of_nodup_map hnodup hw hv hid
        exact hne hval.symm
      · exact hnot _ hentry
  · intro utxoID hid
    refine Option.ext fun d => (applyKVs_eq_some hsorted).trans ?_
    have hnot (d) : (S.key utxoID, d) ∉ sortKVs (kvs.map (trieEntry S)) := by
      intro hd
      obtain ⟨w, hw, heq⟩ := hmem.mp hd
      exact hid (mem_map.mpr ⟨w, hw, hkey (Prod.mk.inj heq).1⟩)
    simp [hnot]

/-- An update without a clash: the trie holds a tree with the entries that it leaves. -/
theorem updateTrie_tracks (hkey : Function.Injective S.key)
    {x : Radix.Tree Key (Digest ι) × (Key → Option (Digest ι))} (hx : Trie.Tracks hasher x)
    (hholds : trie.Holds hasher x.1) (h : updateTrie S trie kvs = .ok trie')
    (hclash : ¬Clashes hasher (fun k => x.2 k ≠ none) (kvs.map (trieEntry S))) :
    ∃ x', Trie.Tracks hasher x' ∧ trie'.Holds hasher x'.1 ∧
      Updated (fun utxoID => x.2 (S.key utxoID)) (fun utxoID => x'.2 (S.key utxoID)) kvs ∧
      ∀ k, x'.2 k ≠ none → x.2 k ≠ none ∨ ∃ utxoID, S.key utxoID = k := by
  obtain ⟨hnodup, root, hupdate⟩ := updateTrie_ok h
  have hsorted : Trie.Sorted (sortKVs (kvs.map (trieEntry S))) :=
    sorted_sortKVs (by rwa [map_map])
  have hspec := hholds.update collisionFree ((sortKVs (kvs.map (trieEntry S))).map Prod.fst)
    ((sortKVs (kvs.map (trieEntry S))).map Prod.snd)
  rw [wp_of_ok hupdate] at hspec
  obtain ⟨-, -, T, hT, hholds'⟩ := hspec
  have hzip : sortKVs (kvs.map (trieEntry S)) = zip _ _ := zip_of_prod rfl rfl
  have htracks := hx.update hT (pairwise_map.mpr hsorted) (by rwa [← hzip, clashes_sortKVs])
  rw [← hzip] at htracks
  refine ⟨_, htracks, hholds', updated_applyKVs hkey hnodup, fun k hk => ?_⟩
  obtain ⟨d, hd⟩ := Option.ne_none_iff_exists'.mp hk
  rcases (applyKVs_eq_some hsorted).mp hd with ⟨hmem, -⟩ | ⟨hold, -⟩
  · obtain ⟨w, -, heq⟩ := mem_map.mp (mem_sortKVs.mp hmem)
    exact .inr ⟨w.1, (Prod.mk.inj heq).1⟩
  · exact .inl (by rw [hold]; exact Option.some_ne_none d)

/-! ## The current trie -/

omit [DecidableEq ι] in
/-- The root of a trie is a hash of keys and values, and not 32 bytes that are stored in it. -/
theorem root_ne_value {T : Radix.Tree Key (Digest ι)} (h : trie.Holds hasher T) (v : ι) :
    trie.root ≠ some (.value v) := by
  rw [h.root]
  cases T <;> simp [Trie.ref, hasher]

variable {st : State ι} {txs : List (Tx ι)} {root : Root ι}

namespace UTXOHandler

/-- The trie of which the block writes the nodes and the root. -/
theorem nextTrie_ok (h : nextTrie S st txs = .ok (root, trie)) :
    txs = [] ∧ root = st.getCurrentStateRoot S ∧ trie = st.getCurrentTrie S ∨
      ∃ kvs, trieKVs S txs = .ok kvs ∧ updateTrie S (st.getCurrentTrie S) kvs = .ok trie ∧
        root = trie.root := by
  unfold nextTrie at h
  split at h
  next htxs =>
    obtain ⟨rfl, rfl⟩ := Prod.mk.inj (Except.ok.inj h)
    exact .inl ⟨htxs, rfl, rfl⟩
  next =>
    obtain ⟨kvs, trie₁, hkvs, hupdate, h⟩ := bind₂_ok h
    obtain ⟨rfl, rfl⟩ := Prod.mk.inj (Except.ok.inj h)
    exact .inr ⟨kvs, hkvs, hupdate, rfl⟩

end UTXOHandler

end MadNet.App
