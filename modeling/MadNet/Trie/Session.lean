import MadNet.Trie.Refinement

/-!
# The trie and its tree, from update to update

`SMT.Holds t T` says that the trie holds the tree. `Update` does on the trie what `updateRoot` does
on the tree, `Commit` and `NewSMT` change nothing about it.
-/

namespace MadNet.Trie

open Radix Prog

variable {D : Type} {H : Hasher D}

structure SMT.Holds (H : Hasher D) (t : SMT D) (T : Tree Key D) : Prop where
  sound : Sound H t.store
  complete : Complete H t.store 256 T
  root : t.root = (ref H 256 T).map (·.hash)

namespace SMT.Holds

variable {t : SMT D} {T : Tree Key D}

theorem rootNode (h : t.Holds H T) : t.rootNode.map (·.hash) = (ref H 256 T).map (·.hash) := by
  rw [← h.root, SMT.rootNode, Option.map_map]
  exact Option.map_id'

theorem get (h : t.Holds H T) (key : Key) : t.get key = .ok (T.get bitIsSet key 0) :=
  get_spec h.sound (Nat.le_refl _) h.complete h.rootNode (fun hne => absurd rfl hne) trivial key

theorem empty : (SMT.empty : SMT D).Holds H .empty := by
  refine ⟨fun d b hb => ?_, trivial, rfl⟩
  simp [SMT.empty, SMT.newSMT, Store.loadBatch] at hb

/-- What was in memory is in the database. -/
theorem commit (h : t.Holds H T) : t.commit.Holds H T := by
  have hnew {d b} (hd : t.store.updatedNodes d = some b) :
      t.commit.store.loadBatch d = parseBatch b.serialize := by
    simp [SMT.commit, Store.loadBatch, hd]
  have hold {d} (hd : t.store.updatedNodes d = none) : t.commit.store.loadBatch d =
    t.store.loadBatch d := by
    simp [SMT.commit, Store.loadBatch, hd]
  -- a batch that has a tree is read back as it was
  have hback {d b} (hb : t.store.updatedNodes d = some b) {h' T' n} (href : ref H h' T' = some n)
      (hn : n.hash = d) : ∃ b', parseBatch b.serialize = .ok b' ∧ Represents H b' h' T' := by
    have hstored : t.store.loadBatch d = .ok b := by rw [Store.loadBatch, hb]
    exact (h.sound d b hstored h' T' n href hn).parse_serialize
  refine ⟨fun d b hb h' T' n href hn => ?_, h.complete.mono_ref fun h' T' n href hd => ?_, h.root⟩
  · cases hupdated : t.store.updatedNodes d with
    | some b₀ =>
      obtain ⟨b', hb', hrep⟩ := hback hupdated href hn
      rw [hnew hupdated, hb'] at hb
      exact Except.ok.inj hb ▸ hrep
    | none =>
      rw [hold hupdated] at hb
      exact h.sound d b hb h' T' n href hn
  · unfold Available
    cases hupdated : t.store.updatedNodes n.hash with
    | some b =>
      obtain ⟨b', hb', -⟩ := hback hupdated href rfl
      exact ⟨b', (hnew hupdated).trans hb'⟩
    | none => exact hold hupdated ▸ hd

theorem reload (h : t.Holds H T) : (SMT.newSMT t.commit.root t.commit.store.db).Holds H T :=
  h.commit

end SMT.Holds

variable [DecidableEq D]

def checkTree (H : Hasher D) (T : Tree Key D) (kv : Key × D) : Except Err Unit := do
  if kv.2 = H.defaultLeaf then
    if T.get bitIsSet kv.1 0 = none then .error .missing
  else if T.get bitIsSet kv.1 0 ≠ none ∧ T.get bitIsSet kv.1 0 ≠ some kv.2 then .error .conflicting

/-- `Update` on the tree. -/
def updateRoot (H : Hasher D) (T : Tree Key D) (keys : List Key) (values : List D) :
    Except Err (Tree Key D) := do
  if keys.length ≠ values.length then
    .error .differentLengths
  else if ¬keys.Nodup then
    .error .duplicateKey
  else
    (keys.zip values).forM (checkTree H T)
    if (keys.zip values).isEmpty then .error .noKeys
    else return (updateTree H 256 T (keys.zip values)).1

theorem SMT.nodup_of_update {t t' : SMT D} {keys : List Key} {values : List D} {root : Option D}
    (h : SMT.update H keys values t = .ok root t') : keys.Nodup := by
  by_contra hdup
  unfold SMT.update at h
  split at h <;> cases h

/-- `Update` does what `updateRoot` does; when it fails, nothing has changed. -/
theorem SMT.Holds.update (hH : H.CollisionFree) {t : SMT D} {T : Tree Key D} (h : t.Holds H T)
    (keys : List Key) (values : List D) :
    wp (SMT.update H keys values) (fun root t' => root = t'.root ∧ Records H t.store t'.store ∧
        ∃ T', updateRoot H T keys values = .ok T' ∧ t'.Holds H T')
      (fun e t' => t' = t ∧ updateRoot H T keys values = .error e) t := by
  have hcheck : t.checkKV H = checkTree H T := by
    funext kv
    simp only [SMT.checkKV, h.get, checkTree, bind, Except.bind]
  unfold SMT.update updateRoot
  rw [wp_ite, wp_ite]
  refine ⟨fun hlen => ⟨rfl, if_pos hlen⟩, fun hlen => ⟨fun hdup => ⟨rfl, ?_⟩, fun hdup => ?_⟩⟩
  · rw [if_neg hlen, if_pos hdup]
  rw [if_neg hlen, if_neg hdup]
  simp only [wp_bind, wp_get, wp_ofExcept, hcheck]
  refine ⟨fun _ hok => ?_, fun e herr => ⟨trivial, by rw [herr]; rfl⟩⟩
  rw [hok, wp_zoom]
  cases hkvs : (keys.zip values).isEmpty with
  | true =>
    rw [List.isEmpty_iff.mp hkvs]
    exact ⟨rfl, rfl⟩
  | false =>
    have hne : keys.zip values ≠ [] := by
      intro hnil
      rw [hnil] at hkvs
      cases hkvs
    have hspec : UpdateSpec H 256 := update_spec hH 256
    refine wp_mono (hspec hne h.sound h.complete h.rootNode (fun hne => absurd rfl hne) trivial)
      (fun res s' hu => ?_) (fun _ _ hfalse => hfalse.elim)
    refine ⟨rfl, hu.records, _, rfl, hu.sound, hu.complete, ?_⟩
    exact congrArg (Option.map (·.hash)) hu.node

end MadNet.Trie
