import MadNet.Lib.Run
import MadNet.Trie.Contents
import MadNet.Trie.Session

/-!
# Histories of a trie

A session is a trie together with the map that its successful updates describe. As long as no update
deletes the only key of a subtree together with smaller and larger keys of the subtree, the trie is
the map, and the root depends on nothing else.
-/

namespace MadNet.Trie

open Radix Prog Run List

variable {D : Type} [DecidableEq D] {H : Hasher D}

inductive Event (D : Type) where
  | update (keys : List Key) (values : List D)
  | commit
  /-- `Commit`, and then `NewSMT` on the root. -/
  | reload

structure Session (D : Type) where
  trie : SMT D
  map : Key → Option D

/-- Insert a key, or delete it if its value is the default leaf. -/
def applyKV (H : Hasher D) (m : Key → Option D) (kv : Key × D) : Key → Option D :=
  Function.update m kv.1 (if kv.2 = H.defaultLeaf then none else some kv.2)

def applyKVs (H : Hasher D) (m : Key → Option D) (kvs : List (Key × D)) : Key → Option D :=
  kvs.foldl (applyKV H) m

namespace Session

def start : Session D where
  trie := .empty
  map := fun _ => none

def step (H : Hasher D) (s : Session D) : Event D → Session D
  | .update keys values =>
    match SMT.update H keys values s.trie with
    | .ok _ trie => { trie, map := applyKVs H s.map (keys.zip values) }
    | .error _ trie => { s with trie }
  | .commit => { s with trie := s.trie.commit }
  | .reload => { s with trie := .newSMT s.trie.commit.root s.trie.commit.store.db }

end Session

/-- The keys of an update are in strictly increasing order. -/
def Event.Increasing : Event D → Prop
  | .update keys _ => keys.Pairwise (· < ·)
  | _ => True

instance : DecidablePred (Event.Increasing (D := D))
  | .update keys _ => inferInstanceAs (Decidable (keys.Pairwise (· < ·)))
  | .commit => inferInstanceAs (Decidable True)
  | .reload => inferInstanceAs (Decidable True)

/-- A key that is present is deleted together with a smaller and a larger key, and no other present
key has a prefix that these two share. -/
def Clashes (H : Hasher D) (present : Key → Prop) (kvs : List (Key × D)) : Prop :=
  ∃ n p s, present s ∧ (s, H.defaultLeaf) ∈ kvs ∧ (∃ e ∈ kvs, HasPrefix n p e.1 ∧ e.1 < s) ∧
    (∃ e ∈ kvs, HasPrefix n p e.1 ∧ s < e.1) ∧ ∀ k, present k → HasPrefix n p k → k = s

/-- The event is an update that succeeds although it clashes with the keys of the map. -/
def Event.Clashes (H : Hasher D) (s : Session D) : Event D → Prop
  | .update keys values =>
    (∃ root trie, SMT.update H keys values s.trie = .ok root trie) ∧
      Trie.Clashes H (fun k => s.map k ≠ none) (keys.zip values)
  | _ => False

omit [DecidableEq D] in
theorem not_clashes_of_no_deletion {present : Key → Prop} {kvs : List (Key × D)}
    (h : ∀ kv ∈ kvs, kv.2 ≠ H.defaultLeaf) : ¬Clashes H present kvs := by
  rintro ⟨n, p, s, -, hs, -⟩
  exact h _ hs rfl

omit [DecidableEq D] in
/-- A key that is present, and beside the keys that are deleted, prevents a clash. -/
theorem not_clashes_of_between {present : Key → Prop} {kvs : List (Key × D)} {k : Key}
    (hk : present k)
    (h : ∀ kv ∈ kvs, kv.2 = H.defaultLeaf → k ≠ kv.1 ∧
      ∀ e ∈ kvs, (e.1 < kv.1 → e.1 < k) ∧ (kv.1 < e.1 → k < e.1)) : ¬Clashes H present kvs := by
  rintro ⟨n, p, s, -, hs, ⟨a, ha, hpa, hlt⟩, ⟨b, hb, hpb, hgt⟩, honly⟩
  obtain ⟨hne, hbetween⟩ := h _ hs rfl
  exact hne (honly k hk (hpa.between hpb ((hbetween a ha).1 hlt) ((hbetween b hb).2 hgt)))

/-! ## The tree of a session -/

def stepTree (H : Hasher D) (x : Tree Key D × (Key → Option D)) :
    Event D → Tree Key D × (Key → Option D)
  | .update keys values =>
    match updateRoot H x.1 keys values with
    | .ok T => (T, applyKVs H x.2 (keys.zip values))
    | .error _ => x
  | _ => x

@[simp] theorem stepTree_commit (x : Tree Key D × (Key → Option D)) : stepTree H x .commit = x :=
  rfl

@[simp] theorem stepTree_reload (x : Tree Key D × (Key → Option D)) : stepTree H x .reload = x :=
  rfl

variable {x : Tree Key D × (Key → Option D)} {keys : List Key} {values : List D}

theorem stepTree_map (h : (updateRoot H x.1 keys values).isOk) :
    (stepTree H x (.update keys values)).2 = applyKVs H x.2 (keys.zip values) := by
  rw [stepTree]
  cases hr : updateRoot H x.1 keys values with
  | ok T => rfl
  | error e =>
    rw [hr] at h
    cases h

/-- The tree and the map with which every history starts. -/
def emptyTree : Tree Key D × (Key → Option D) := (.empty, fun _ => none)

structure Session.Shows (H : Hasher D) (s : Session D) (x : Tree Key D × (Key → Option D)) :
    Prop where
  holds : s.trie.Holds H x.1
  map : s.map = x.2

variable {s : Session D}

theorem Session.Shows.step (hH : H.CollisionFree) {x} (h : s.Shows H x)
    (e : Event D) : (s.step H e).Shows H (stepTree H x e) := by
  cases e with
  | commit => exact ⟨h.holds.commit, h.map⟩
  | reload => exact ⟨h.holds.reload, h.map⟩
  | update keys values =>
    have hu := h.holds.update hH keys values
    unfold Session.step stepTree
    cases hr : SMT.update H keys values s.trie with
    | ok root t =>
      rw [wp_of_ok hr] at hu
      obtain ⟨-, -, T, hT, hholds⟩ := hu
      simp only [hr, hT]
      exact ⟨hholds, by rw [h.map]⟩
    | error e t =>
      rw [wp_of_error hr] at hu
      obtain ⟨rfl, hT⟩ := hu
      simp only [hr, hT]
      exact h

theorem Session.Shows.exec (hH : H.CollisionFree) {x} (h : s.Shows H x) (es : List (Event D)) :
    (Run.exec (Session.step H) s es).Shows H (Run.exec (stepTree H) x es) := by
  induction es generalizing s x with
  | nil => exact h
  | cons e es ih => exact ih (h.step hH e)

omit [DecidableEq D] in
theorem Session.shows_start : (start : Session D).Shows H emptyTree := ⟨.empty, rfl⟩

theorem Session.shows_exec (hH : H.CollisionFree) (es : List (Event D)) :
    (Run.exec (step H) start es).Shows H (Run.exec (stepTree H) emptyTree es) :=
  Shows.exec hH shows_start es

/-! ## The tree of a history without clashes -/

theorem applyKVs_eq_some {m : Key → Option D} {kvs : List (Key × D)} {k : Key} {v : D}
    (hkvs : Sorted kvs) : applyKVs H m kvs k = some v ↔
      (k, v) ∈ kvs ∧ v ≠ H.defaultLeaf ∨ m k = some v ∧ ∀ w, (k, w) ∉ kvs := by
  induction kvs generalizing m with
  | nil => simp [applyKVs]
  | cons e kvs ih =>
    obtain ⟨k', v'⟩ := e
    obtain ⟨hlt, hkvs⟩ := pairwise_cons.mp hkvs
    refine (ih hkvs).trans ?_
    by_cases hk : k = k'
    · subst hk
      -- the key does not come a second time
      have hlast : ∀ w, (k, w) ∉ kvs := fun w hw => BitVec.lt_irrefl k (hlt _ hw)
      simp only [applyKV, Function.update_self, hlast, mem_cons, Prod.mk.injEq, true_and]
      split <;> grind
    · simp [applyKV, hk]

structure Tracks (H : Hasher D) (x : Tree Key D × (Key → Option D)) : Prop where
  good : Good H 256 0 x.1
  entries : ∀ k v, (k, v) ∈ x.1.entries ↔ x.2 k = some v

theorem hasPrefix_all (k : Key) : HasPrefix 256 0 k := Nat.div_eq_of_lt k.isLt

section

omit [DecidableEq D]

theorem Tracks.get {x : Tree Key D × (Key → Option D)} (h : Tracks H x) (k : Key) :
    x.1.get bitIsSet k 0 = x.2 k := by
  refine Option.ext fun v => ?_
  rw [Tree.get_eq_some_iff h.good.placed, h.entries]

theorem tracks_empty : Tracks H (emptyTree (D := D)) :=
  ⟨good_empty, by simp [emptyTree, Tree.entries]⟩

/-- Below a prefix, what clashes in the tree clashes in the map. -/
theorem noClash_of_not_clashes {present : Key → Prop} {h p : Nat} {T : Tree Key D}
    {kvs kvs' : List (Key × D)} (hh : h ≤ 256) (hclash : ¬Clashes H present kvs) (hT : Good H h p T)
    (hentry : ∀ e ∈ T.entries, present e.1)
    (hm : ∀ k, present k → HasPrefix h p k → ∃ v, (k, v) ∈ T.entries) (hsub : kvs' ⊆ kvs)
    (hp : ∀ e ∈ kvs', HasPrefix h p e.1) : NoClash H h T kvs' := by
  induction T generalizing h p kvs' with
  | empty => trivial
  | leaf s w =>
    intro hs
    by_contra hnot
    push Not at hnot
    obtain ⟨⟨a, ha, hlt⟩, b, hb, hgt⟩ := hnot
    refine hclash ⟨h, p, s, hentry (s, w) (mem_singleton_self _), hsub hs,
      ⟨a, hsub ha, hp a ha, hlt⟩, ⟨b, hsub hb, hp b hb, hgt⟩, ?_⟩
    intro k hk hpk
    obtain ⟨v, hv⟩ := hm k hk hpk
    exact congrArg Prod.fst (mem_singleton.mp hv)
  | node l r ihl ihr =>
    obtain _ | h := h
    · exact hT.not_node_zero.elim
    refine ⟨ihl (by omega) (hT.left (by omega)) (fun e he => hentry e (mem_append_left _ he))
        (fun k hk hpk => ?_) (fun e he => hsub (mem_of_mem_filter he)) (fun e he => ?_),
      ihr (by omega) (hT.right (by omega)) (fun e he => hentry e (mem_append_right _ he))
        (fun k hk hpk => ?_) (fun e he => hsub (mem_of_mem_filter he)) (fun e he => ?_)⟩
    · obtain ⟨v, hv⟩ := hm k hk (hpk.up (c := 0) (by omega))
      refine ⟨v, (mem_append.mp hv).resolve_right fun hr => ?_⟩
      have := hpk.unique ((hT.right (by omega)).hasPrefix _ hr)
      omega
    · obtain ⟨he, hbit⟩ := mem_filter.mp he
      exact (hp e he).left (by omega) (by simpa using hbit)
    · obtain ⟨v, hv⟩ := hm k hk (hpk.up (by omega))
      refine ⟨v, (mem_append.mp hv).resolve_left fun hl => ?_⟩
      have := hpk.unique ((hT.left (by omega)).hasPrefix _ hl)
      omega
    · obtain ⟨he, hbit⟩ := mem_filter.mp he
      exact (hp e he).right (by omega) hbit

end

theorem checkTree_present {T : Tree Key D} {k : Key}
    (h : checkTree H T (k, H.defaultLeaf) = .ok ()) : T.get bitIsSet k 0 ≠ none := by
  intro hnone
  simp [checkTree, hnone] at h

/-- What a successful update has checked. -/
theorem updateRoot_eq_ok {T T' : Tree Key D}
    (h : updateRoot H T keys values = .ok T') : keys.zip values ≠ [] ∧
      (∀ kv ∈ keys.zip values, checkTree H T kv = .ok ()) ∧
      T' = (updateTree H 256 T (keys.zip values)).1 := by
  unfold updateRoot at h
  split at h
  · cases h
  split at h
  · cases h
  obtain ⟨_, hchecks, h⟩ := bind_ok h
  split at h
  · cases h
  next hne =>
    exact ⟨fun hnil => hne (by simp [hnil]), forM_eq_ok hchecks, (Except.ok.inj h).symm⟩

omit [DecidableEq D] in
theorem sorted_zip (h : keys.Pairwise (· < ·)) : Sorted (keys.zip values) := by
  induction h generalizing values with
  | nil => simp
  | cons hlt _ ih =>
    cases values with
    | nil => simp
    | cons v values => exact .cons (fun e he => hlt e.1 (of_mem_zip he).1) ih

/-- An update without a clash does to the tree what it does to the map. -/
theorem Tracks.update (h : Tracks H x) {T' : Tree Key D}
    (hT' : updateRoot H x.1 keys values = .ok T') (hincr : keys.Pairwise (· < ·))
    (hclash : ¬Clashes H (fun k => x.2 k ≠ none) (keys.zip values)) :
    Tracks H (T', applyKVs H x.2 (keys.zip values)) := by
  obtain ⟨hne, hchecks, rfl⟩ := updateRoot_eq_ok hT'
  have hsorted : Sorted (keys.zip values) := sorted_zip hincr
  have hentry (k) (hk : x.2 k ≠ none) : ∃ v, (k, v) ∈ x.1.entries := by
    obtain ⟨v, hv⟩ := Option.ne_none_iff_exists'.mp hk
    exact ⟨v, (h.entries k v).mpr hv⟩
  have hpresent (e) (he : e ∈ x.1.entries) : x.2 e.1 ≠ none := by
    rw [(h.entries e.1 e.2).mp he]
    exact Option.some_ne_none _
  have happ : Applicable H 256 0 x.1.entries (keys.zip values) := by
    refine ⟨hsorted, hne, fun e _ => hasPrefix_all e.1, fun k hk => hentry k ?_⟩
    rw [← h.get]
    exact checkTree_present (hchecks _ hk)
  have hnoClash : NoClash H 256 x.1 (keys.zip values) :=
    noClash_of_not_clashes (Nat.le_refl _) hclash h.good hpresent (fun k hk _ => hentry k hk)
      (List.Subset.refl _) (fun e _ => hasPrefix_all e.1)
  have hspec : ContentsSpec H 256 := updateTree_contents (Nat.le_refl _)
  obtain ⟨hgood, hentries⟩ := hspec h.good happ hnoClash
  refine ⟨hgood, fun k v => (hentries (k, v)).trans ?_⟩
  rw [applyKVs_eq_some hsorted, ← h.entries]
  rfl

theorem Session.Shows.tracks_step (hH : H.CollisionFree) (hs : s.Shows H x) (hx : Tracks H x)
    {e : Event D} (hincr : e.Increasing) (hclash : ¬e.Clashes H s) :
    Tracks H (stepTree H x e) := by
  cases e with
  | commit | reload => exact hx
  | update keys values =>
    rw [stepTree]
    split
    next T' hT' =>
      refine hx.update hT' hincr fun hc => hclash ⟨?_, hs.map ▸ hc⟩
      -- the update of the trie fails only where that of the tree does
      have hu := hs.holds.update hH keys values
      cases hr : SMT.update H keys values s.trie with
      | ok root t => exact ⟨root, t, rfl⟩
      | error e t =>
        rw [wp_of_error hr, hT'] at hu
        cases hu.2
    next => exact hx

variable {es : List (Event D)}

/-- A history without a clash: the trie shows a tree with the entries of the map. -/
theorem Session.exists_tracks (hH : H.CollisionFree) (hincr : ∀ e ∈ es, e.Increasing)
    (hclash : Along (fun s e => ¬e.Clashes H s) (step H) start es) :
    ∃ x, Tracks H x ∧ (exec (step H) start es).Shows H x := by
  have hes : Along (fun s e => e.Increasing ∧ ¬e.Clashes H s) (step H) start es :=
    along_and.mpr ⟨along_of_forall fun _ => hincr, hclash⟩
  refine invariant (fun s => ∃ x, Tracks H x ∧ s.Shows H x) ?_ ⟨_, tracks_empty, shows_start⟩ hes
  rintro s e ⟨x, hx, hs⟩ he
  exact ⟨_, hs.tracks_step hH hx he.1 he.2, hs.step hH e⟩

/-! ## The trie is the map -/

/-- In every history whose updates do not clash, `Get` returns what the map has. -/
theorem Session.get_eq_map (hH : H.CollisionFree) {es : List (Event D)}
    (hincr : ∀ e ∈ es, e.Increasing)
    (hclash : Along (fun s e => ¬e.Clashes H s) (step H) start es) (k : Key) :
    (exec (step H) start es).trie.get k = .ok ((exec (step H) start es).map k) := by
  obtain ⟨x, hx, hs⟩ := exists_tracks hH hincr hclash
  rw [hs.holds.get, hx.get, hs.map]

/-- Histories whose updates do not clash and that end with one map end with one root. -/
theorem Session.root_eq_of_map_eq (hH : H.CollisionFree) {es es' : List (Event D)}
    (hincr : ∀ e ∈ es, e.Increasing) (hincr' : ∀ e ∈ es', e.Increasing)
    (hclash : Along (fun s e => ¬e.Clashes H s) (step H) start es)
    (hclash' : Along (fun s e => ¬e.Clashes H s) (step H) start es')
    (hmap : (exec (step H) start es).map = (exec (step H) start es').map) :
    (exec (step H) start es).trie.root = (exec (step H) start es').trie.root ∧
      ((exec (step H) start es).map = (fun _ => none) →
        (exec (step H) start es).trie.root = none) := by
  obtain ⟨x, hx, hs⟩ := exists_tracks hH hincr hclash
  obtain ⟨x', hx', hs'⟩ := exists_tracks hH hincr' hclash'
  have htree : x.1 = x'.1 := by
    refine Tree.ext_entries hx.good.compact hx'.good.compact hx.good.placed hx'.good.placed ?_
    rintro ⟨k, v⟩
    rw [hx.entries, hx'.entries, ← hs.map, ← hs'.map, hmap]
  refine ⟨by rw [hs.holds.root, hs'.holds.root, htree], fun hnone => ?_⟩
  have hempty : x.1 = .empty := by
    by_contra hne
    obtain ⟨⟨k, v⟩, he⟩ := hx.good.compact.exists_entry hne
    have hv := (hx.entries k v).mp he
    rw [← hs.map, hnone] at hv
    cases hv
  rw [hs.holds.root, hempty]
  rfl

/-- The root commits to the contents: two histories that end with one root, clashes or not, end with
tries from which every key is read alike. -/
theorem Session.get_eq_of_root_eq (hH : H.CollisionFree) (es es' : List (Event D))
    (hroot : (exec (step H) start es).trie.root = (exec (step H) start es').trie.root) (k : Key) :
    (exec (step H) start es).trie.get k = (exec (step H) start es').trie.get k := by
  have h := (shows_exec hH es).holds
  have h' := (shows_exec hH es').holds
  rw [h.root, h'.root] at hroot
  have hdigest (x : Option (Node D)) : digest H x = (x.map (·.hash)).getD H.defaultLeaf := by
    cases x <;> rfl
  have heq := (hdigest _).trans ((congrArg (·.getD H.defaultLeaf) hroot).trans (hdigest _).symm)
  rw [h.get, h'.get, ref_inj hH (digest_ref_inj hH heq)]

/-! ## Histories with symbolic hashes -/

namespace Digest

/-- A key by its first four bits. -/
def key (n : Nat) : Key := BitVec.ofNat 256 (n * 2 ^ 252)

/-- The key `0110…` is inserted, and deleted together with a smaller and a larger key. -/
def deletion : List (Event (Digest Nat)) :=
  [.update [key 6] [.value 6], .update [key 5, key 6, key 8] [.value 5, .defaultLeaf, .value 8]]

/-- After the deletion the key `0101…` is also where keys with the prefix `11` belong. An insertion
of such a key succeeds, and the key is not found. -/
theorem get_after_deletion :
    let es := deletion ++ [.update [key 12] [.value 12]]
    let s := exec (Session.step hasher) .start es
    (∀ e ∈ es, e.Increasing) ∧ s.map (key 12) = some (.value 12) ∧
      s.trie.get (key 12) = .ok none := by
  intro es s
  have hs : s.Shows hasher _ := Session.shows_exec collisionFree es
  rw [hs.map, hs.holds.get]
  decide +kernel

/-- The map after the deletion is the map after the two insertions alone, and the roots differ. -/
theorem root_after_deletion :
    let es := [.update [key 5, key 8] [.value 5, .value 8]]
    let s := exec (Session.step hasher) .start deletion
    let s' := exec (Session.step hasher) .start es
    (∀ e ∈ deletion ++ es, e.Increasing) ∧ s.map = s'.map ∧ s.trie.root ≠ s'.trie.root := by
  intro es s s'
  have hs : s.Shows hasher _ := Session.shows_exec collisionFree deletion
  have hs' : s'.Shows hasher _ := Session.shows_exec collisionFree es
  rw [hs.map, hs'.map, hs.holds.root, hs'.holds.root]
  refine ⟨by decide +kernel, ?_, by decide +kernel⟩
  simp only [deletion, es, exec_cons, exec_nil]
  rw [stepTree_map (by decide +kernel), stepTree_map (by decide +kernel),
    stepTree_map (by decide +kernel)]
  funext k
  by_cases hk : k = key 6
  · subst hk
    decide +kernel
  · simp [applyKVs, applyKV, Function.update_apply, hk, hasher]

/-- A key is deleted together with a smaller and a larger key; between these is another key. -/
def permitted : List (Event (Digest Nat)) :=
  [.update [key 6, key 7] [.value 6, .value 7], .commit, .reload,
    .update [key 5, key 6, key 8] [.value 5, .defaultLeaf, .value 8]]

theorem permitted_increasing : ∀ e ∈ permitted, e.Increasing := by decide +kernel

theorem permitted_along :
    Along (fun s e => ¬e.Clashes hasher s) (Session.step hasher) .start permitted := by
  have hmap : ((exec (Session.step hasher) .start (permitted.take 3)).map (key 7)) ≠ none := by
    rw [(Session.shows_exec collisionFree _).map]
    decide +kernel
  exact ⟨fun hc => not_clashes_of_no_deletion (by decide +kernel) hc.2, id, id,
    fun hc => not_clashes_of_between hmap (by decide +kernel) hc.2, trivial⟩

theorem get_permitted : (exec (Session.step hasher) .start permitted).trie.get (key 6) =
      .ok ((exec (Session.step hasher) .start permitted).map (key 6)) :=
  Session.get_eq_map collisionFree permitted_increasing permitted_along (key 6)

/-- The keys that the permitted history leaves, in one update. -/
def atOnce : List (Event (Digest Nat)) :=
  [.update [key 5, key 7, key 8] [.value 5, .value 7, .value 8]]

theorem map_permitted : (exec (Session.step hasher) .start permitted).map =
    (exec (Session.step hasher) .start atOnce).map := by
  rw [(Session.shows_exec collisionFree permitted).map,
    (Session.shows_exec collisionFree atOnce).map]
  simp only [permitted, atOnce, exec_cons, exec_nil, stepTree_commit, stepTree_reload]
  rw [stepTree_map (by decide +kernel), stepTree_map (by decide +kernel),
    stepTree_map (by decide +kernel)]
  funext k
  by_cases hk : k = key 6
  · subst hk
    decide +kernel
  · have hne : key 5 ≠ key 7 ∧ key 7 ≠ key 8 := by decide +kernel
    simp only [applyKVs, applyKV, hasher, zip_cons_cons, zip_nil_right, foldl_cons,
      foldl_nil, Function.update_apply, hk, if_false]
    grind

theorem root_permitted : (exec (Session.step hasher) .start permitted).trie.root =
    (exec (Session.step hasher) .start atOnce).trie.root := by
  have hincr : ∀ e ∈ atOnce, e.Increasing := by decide +kernel
  have hclash : Along (fun s e => ¬e.Clashes hasher s) (Session.step hasher) .start atOnce := by
    exact ⟨fun hc => not_clashes_of_no_deletion (by decide +kernel) hc.2, trivial⟩
  exact (Session.root_eq_of_map_eq collisionFree permitted_increasing hincr permitted_along hclash
    map_permitted).1

/-- The same keys, with a commit between two updates and a reload at the end, or in one update. -/
theorem get_of_same_root :
    let es : List (Event (Digest Nat)) :=
      [.update [key 6] [.value 6], .commit, .update [key 9] [.value 9], .reload]
    let es' : List (Event (Digest Nat)) := [.update [key 6, key 9] [.value 6, .value 9]]
    (exec (Session.step hasher) .start es).trie.get (key 9) =
      (exec (Session.step hasher) .start es').trie.get (key 9) :=
  Session.get_eq_of_root_eq collisionFree _ _ (by decide +kernel) _

end Digest

end MadNet.Trie
