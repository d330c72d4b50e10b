import MadNet.Trie.History

/-!
# Rolling a trie back (`Discard`)

`Discard` goes back to `prevRoot`, which `Commit` sets and `NewSMT` leaves empty, and only if a node
has been recorded since the last `Commit`. An update records its root, and nothing if it leaves an
empty trie.
-/

namespace MadNet.Trie

open Radix Prog Run List

variable {D : Type} {H : Hasher D}

/-! ## What an update records -/

section Writes

variable [DecidableEq D] {s s' s1 : Store D} {root left right : Option (Node D)}
    {b : Batch D} {i h : Nat}

/-- The nodes that are recorded; `fresh` says that the node is recorded whatever was there before.
-/
structure Writes (s : Store D) (fresh : Prop) (node : Option (Node D)) (s' : Store D) : Prop where
  unchanged : node = none → s' = s
  kept : ∀ d, (s.updatedNodes d).isSome → (s'.updatedNodes d).isSome
  recorded : fresh → ∀ n ∈ node, (s'.updatedNodes n.hash).isSome

omit [DecidableEq D] in
theorem Writes.nothing {fresh : Prop} : Writes s fresh none s :=
  ⟨fun _ => rfl, fun _ => id, fun _ _ hn => (nomatch hn)⟩

/-- A node where a batch starts, with a root that has no byte that tells shortcuts. -/
structure Fresh (root : Option (Node D)) (i h : Nat) : Prop where
  height : h % 4 = 0
  index : i = 0
  flag : ∀ m ∈ root, m.flag = none

theorem storeNode_writes {n : Node D} {c : Bool} (hflag : n.flag = some c) :
    wp (storeNode b n root) (fun _ s' => Writes s (Fresh root i h) (some n) s')
      (fun _ _ => True) s := by
  unfold storeNode
  rw [wp_ite, wp_modify, wp_pure]
  refine ⟨fun _ => ⟨nofun, fun d hd => ?_, fun _ n' hn' => ?_⟩,
    fun hroot => ⟨nofun, fun _ => id, fun hfresh => ?_⟩⟩
  · change (Function.update s.updatedNodes n.hash (some b) d).isSome
    by_cases hd' : d = n.hash
    · rw [hd', Function.update_self]
      rfl
    · rwa [Function.update_of_ne hd']
  · cases hn'
    change (Function.update s.updatedNodes n.hash (some b) n.hash).isSome
    rw [Function.update_self]
    rfl
  · have hnone := hfresh.flag n (not_not.mp hroot).symm
    rw [hflag] at hnone
    cases hnone

theorem leafHash_writes {k : Key} {v : D} :
    wp (leafHash H k v root b i h) (fun res s' => Writes s (Fresh root i h) (some res.2) s')
      (fun _ _ => True) s := by
  unfold leafHash
  rw [wp_ite, wp_bind]
  refine ⟨fun _ => ?_, fun hh => ⟨nofun, fun _ => id, fun hfresh => ?_⟩⟩
  · exact storeNode_writes rfl
  · exact absurd hfresh.height hh

theorem interiorHash_writes : wp (interiorHash H left right root b i h)
    (fun res s' => Writes s (Fresh root i h) (some res.2) s') (fun _ _ => True) s := by
  unfold interiorHash
  rw [wp_bind, wp_ofExcept]
  refine ⟨fun hash _ => ?_, fun _ _ => trivial⟩
  rw [wp_ite, wp_bind]
  refine ⟨fun _ => ?_, fun hh => ⟨nofun, fun _ => id, fun hfresh => ?_⟩⟩
  · exact storeNode_writes rfl
  · exact absurd hfresh.height hh

theorem moveUpShortcut_writes {n : Node D} {j : Nat} : wp (moveUpShortcut H n root b i j h)
    (fun res s' => Writes s (Fresh root i h) res.2.1 s' ∧ res.2.1 ≠ none) (fun _ _ => True) s := by
  unfold moveUpShortcut
  simp only [wp_bind, wp_get, wp_ofExcept]
  refine ⟨fun loaded _ => ⟨fun kv _ => ?_, fun _ _ => trivial⟩, fun _ _ => trivial⟩
  rw [wp_ite, wp_ite]
  have hinside (hi : i ≠ 0) (n : Node D) : Writes s (Fresh root i h) (some n) s ∧ some n ≠ none :=
    ⟨⟨by simp, fun _ => id, fun hfresh => absurd hfresh.index hi⟩, Option.some_ne_none n⟩
  refine ⟨fun _ => ?_, fun hi => ⟨fun _ => hinside hi _, fun _ => hinside hi _⟩⟩
  rw [wp_bind]
  exact wp_mono (storeNode_writes rfl) (fun _ _ hw => ⟨hw, Option.some_ne_none _⟩) fun _ _ => id

theorem maybeMoveUpShortcut_writes : wp (maybeMoveUpShortcut H left right root b i h)
    (fun moved s' => match moved with
      | some res =>
      Writes s (Fresh root i h) res.2.1 s' ∧ (res.2.1 = none → left = none ∧ right = none)
      | none => s' = s) (fun _ _ => True) s := by
  have hmove (n : Node D) (j : Nat) : wp (some <$> moveUpShortcut H n root b i j h)
      (fun moved s' => match moved with
        | some res =>
          Writes s (Fresh root i h) res.2.1 s' ∧ (res.2.1 = none → left = none ∧ right = none)
        | none => s' = s) (fun _ _ => True) s := by
    rw [wp_map]
    exact wp_mono moveUpShortcut_writes (fun _ _ hw => ⟨hw.1, fun hnone => absurd hnone hw.2⟩)
      fun _ _ => id
  cases left with
  | none =>
    cases right with
    | none => exact ⟨.nothing, fun _ => ⟨rfl, rfl⟩⟩
    | some r =>
      exact (wp_ite _ _).mpr ⟨fun _ => hmove r _, fun _ => rfl⟩
  | some l =>
    cases right with
    | none => exact (wp_ite _ _).mpr ⟨fun _ => hmove l _, fun _ => rfl⟩
    | some r => exact rfl

theorem join_writes {deleted : Bool} : wp (join H left right root b i h deleted)
    (fun res s' => Writes s (Fresh root i h) res.2.1 s' ∧
      (res.2.1 = none → left = none ∧ right = none))
    (fun _ _ => True) s := by
  have hinterior : wp (do
        let res ← interiorHash H left right root b i h
        return (res.1, some res.2, false))
      (fun res s' => Writes s (Fresh root i h) res.2.1 s' ∧
        (res.2.1 = none → left = none ∧ right = none))
      (fun _ _ => True) s := by
    rw [wp_bind]
    exact wp_mono interiorHash_writes (fun _ _ hw => ⟨hw, by simp⟩) fun _ _ => id
  cases deleted with
  | false => exact hinterior
  | true =>
    simp only [join, if_true]
    rw [wp_bind]
    refine wp_mono maybeMoveUpShortcut_writes (fun moved s' hw => ?_) fun _ _ => id
    cases moved with
    | some res => exact hw
    | none =>
      obtain rfl := hw
      exact hinterior

omit [DecidableEq D] in
/-- A child has been updated, and then the node. -/
theorem Writes.trans {fresh fresh' : Prop} {child node : Option (Node D)}
    (h1 : Writes s fresh' child s1)
    (h2 : Writes s1 fresh node s') (hnone : node = none → child = none) :
    Writes s fresh node s' where
  unchanged hn := (h2.unchanged hn).trans (h1.unchanged (hnone hn))
  kept d hd := h2.kept d (h1.kept d hd)
  recorded := h2.recorded

/-- What an update of a subtree at height `h` records. -/
def UpdateWrites (H : Hasher D) (h : Nat) : Prop :=
  ∀ {root kvs b i s}, wp (update H h root kvs b i)
    (fun res s' => Writes s (h % 4 = 0 ∧ ∀ m ∈ root, m.flag = none) res.2.1 s') (fun _ _ => True) s

section Children

variable {kvs : List (Key × D)} (hrec : UpdateWrites H h)
include hrec

theorem updateChildren_writes {h' : Nat} :
    wp (updateChildren H (update H h) left right root kvs b i h')
    (fun res s' => Writes s (Fresh root i h') res.2.1 s') (fun _ _ => True) s := by
  unfold updateChildren
  split
  next =>
    rw [wp_bind]
    refine wp_mono hrec (fun child s1 hw => ?_) fun _ _ => id
    exact wp_mono join_writes (fun _ _ hj => hw.trans hj.1 fun hn => (hj.2 hn).2) fun _ _ => id
  next =>
    rw [wp_bind]
    refine wp_mono hrec (fun child s1 hw => ?_) fun _ _ => id
    exact wp_mono join_writes (fun _ _ hj => hw.trans hj.1 fun hn => (hj.2 hn).1) fun _ _ => id
  next =>
    rw [wp_bind]
    refine wp_mono hrec (fun left s1 hl => ?_) fun _ _ => id
    dsimp only
    rw [wp_bind]
    refine wp_mono hrec (fun right s2 hr => ?_) fun _ _ => id
    refine wp_mono join_writes (fun _ _ hj => ?_) fun _ _ => id
    exact hl.trans (hr.trans hj.1 fun hn => (hj.2 hn).2) fun hn => (hj.2 hn).1

theorem updateNode_writes {h' : Nat} : wp (updateNode H (update H h) left right root kvs b i h')
    (fun res s' => Writes s (Fresh root i h') res.2.1 s') (fun _ _ => True) s := by
  unfold updateNode
  split
  next =>
    rw [wp_ite, wp_pure, wp_bind]
    refine ⟨fun _ => .nothing, fun _ => ?_⟩
    exact leafHash_writes
  next => exact updateChildren_writes hrec

theorem updateLoaded_writes {h' : Nat} {lslot rslot : Option (Slot D)} {isShortcut : Bool} :
    wp (updateLoaded H (update H h) root kvs b i h' lslot rslot isShortcut)
      (fun res s' => Writes s (Fresh root i h') res.2.1 s') (fun _ _ => True) s := by
  unfold updateLoaded
  rw [wp_ite]
  refine ⟨fun _ => ?_, fun _ => ?_⟩
  · rw [wp_bind, wp_ofExcept]
    refine ⟨fun kv _ => ?_, fun _ _ => trivial⟩
    rw [wp_ite, wp_pure]
    exact ⟨fun _ => .nothing, fun _ => updateNode_writes hrec⟩
  · simp only [wp_bind, wp_ofExcept]
    exact ⟨fun lnode _ => ⟨fun rnode _ => updateNode_writes hrec, fun _ _ => trivial⟩,
      fun _ _ => trivial⟩

end Children

omit [DecidableEq D] in
theorem loadChildren_index {loaded : Batch D × Nat × Option (Slot D) × Option (Slot D) × Bool}
    (hload : s.loadChildren root h i b = .ok loaded) (hh : h % 4 = 0) : loaded.2.1 = 0 := by
  unfold Store.loadChildren at hload
  rw [if_pos hh] at hload
  cases root with
  | none =>
    cases hload
    rfl
  | some n =>
    obtain ⟨batch, -, h1⟩ := bind_ok hload
    cases h1
    rfl

theorem update_writes (h : Nat) : UpdateWrites H h := by
  induction h with
  | zero =>
    intro root kvs b i s
    cases kvs with
    | nil => trivial
    | cons kv kvs =>
      unfold update
      rw [wp_ite, wp_pure, wp_bind]
      refine ⟨fun _ => .nothing, fun _ => ?_⟩
      refine wp_mono leafHash_writes (fun _ _ hw => ⟨hw.unchanged, hw.kept, fun hfresh => ?_⟩)
        fun _ _ => id
      exact hw.recorded ⟨rfl, rfl, hfresh.2⟩
  | succ h ih =>
    intro root kvs b i s
    unfold update
    rw [wp_ite, wp_throw]
    refine ⟨fun _ => trivial, fun _ => ?_⟩
    simp only [wp_bind, wp_get, wp_ofExcept]
    refine ⟨fun loaded hload => ?_, fun _ _ => trivial⟩
    refine wp_mono (updateLoaded_writes ih)
      (fun _ _ hw => ⟨hw.unchanged, hw.kept, fun hfresh => ?_⟩) fun _ _ => id
    exact hw.recorded ⟨hfresh.1, loadChildren_index hload hfresh.1, hfresh.2⟩

end Writes

/-- What `Update` records. -/
theorem SMT.update_writes [DecidableEq D] (t : SMT D) (keys : List Key) (values : List D) :
    wp (SMT.update H keys values)
      (fun root t' => root = t'.root ∧ (t'.root = none → t'.store = t.store) ∧
        (∀ d, (t.store.updatedNodes d).isSome → (t'.store.updatedNodes d).isSome) ∧
        ∀ d ∈ t'.root, (t'.store.updatedNodes d).isSome) (fun _ _ => True) t := by
  unfold SMT.update
  rw [wp_ite, wp_ite, wp_throw, wp_throw]
  refine ⟨fun _ => trivial, fun _ => ⟨fun _ => trivial, fun _ => ?_⟩⟩
  simp only [wp_bind, wp_get, wp_ofExcept]
  refine ⟨fun _ _ => ?_, fun _ _ => trivial⟩
  rw [wp_zoom]
  refine wp_mono (Trie.update_writes 256) (fun res s' hw => ?_) fun _ _ => id
  refine ⟨rfl, fun hnone => hw.unchanged (Option.map_eq_none_iff.mp hnone), hw.kept, fun d hd => ?_⟩
  obtain ⟨n, hn, rfl⟩ := Option.map_eq_some_iff.mp hd
  refine hw.recorded ⟨by decide, fun m hm => ?_⟩ n hn
  obtain ⟨hash, -, rfl⟩ := Option.map_eq_some_iff.mp hm
  rfl

/-! ## The trie with its last committed root -/

/-- The trie with the field that `Discard` reads. -/
structure VersionedSMT (D : Type) extends SMT D where
  prevRoot : Option D

/-- `len(updatedNodes) > 0`. -/
def Store.HasUpdates (s : Store D) : Prop := ∃ d, (s.updatedNodes d).isSome

namespace VersionedSMT

/-- `NewSMT`, which sets no `prevRoot`. -/
def newSMT (root : Option D) (db : D → Option (Record D)) : VersionedSMT D :=
  { toSMT := SMT.newSMT root db, prevRoot := none }

variable (t : VersionedSMT D)

def commit : VersionedSMT D := { toSMT := t.toSMT.commit, prevRoot := t.root }

def discard [Decidable t.store.HasUpdates] : VersionedSMT D :=
  if t.store.HasUpdates then
    { t with root := t.prevRoot, store := { t.store with updatedNodes := fun _ => none } }
  else t

section Calls

variable [DecidableEq D]

/-- `Update`; what it returns is not needed here. -/
def update (H : Hasher D) (t : VersionedSMT D) (kvs : List Key × List D) : VersionedSMT D :=
  match SMT.update H kvs.1 kvs.2 t.toSMT with
  | .ok _ toSMT => { t with toSMT }
  | .error _ toSMT => { t with toSMT }

inductive Call (D : Type) where
  | update (kvs : List Key × List D)
  | commit
  | discard

def step (H : Hasher D) [∀ s : Store D, Decidable s.HasUpdates] (t : VersionedSMT D) :
    Call D → VersionedSMT D
  | .update kvs => t.update H kvs
  | .commit => t.commit
  | .discard => t.discard

/-- The roots that the updates return which do not fail. -/
def roots (H : Hasher D) (t : VersionedSMT D) : List (List Key × List D) → List (Option D)
  | [] => []
  | kvs :: us =>
    match SMT.update H kvs.1 kvs.2 t.toSMT with
    | .ok root _ => root :: roots H (t.update H kvs) us
    | .error _ _ => roots H (t.update H kvs) us

end Calls

/-! ## Trees -/

/-- What is recorded represents trees. -/
def Recorded (H : Hasher D) (s : Store D) : Prop :=
  ∀ d b, s.updatedNodes d = some b → ∃ h T n, ref H h T = some n ∧ n.hash = d ∧ Represents H b h T

theorem recorded_of_none {s : Store D} (hs : ∀ d, s.updatedNodes d = none) : Recorded H s := by
  intro d b hb
  rw [hs d] at hb
  cases hb

/-- The trie holds a tree, and so does what `Discard` goes back to. -/
structure Holds (H : Hasher D) (t : VersionedSMT D) (T T₀ : Tree Key D) : Prop where
  current : t.toSMT.Holds H T
  prev : (SMT.newSMT t.prevRoot t.store.db).Holds H T₀
  recorded : Recorded H t.store

theorem holds_newSMT {root : Option D} {db : D → Option (Record D)} {T : Tree Key D}
    (h : (SMT.newSMT root db).Holds H T) : (newSMT root db).Holds H T .empty :=
  ⟨h, ⟨h.sound, trivial, rfl⟩, recorded_of_none fun _ => rfl⟩

namespace Holds

variable {t : VersionedSMT D} {T T₀ : Tree Key D}

theorem commit (h : t.Holds H T T₀) : t.commit.Holds H T T :=
  ⟨h.current.commit, h.current.reload, recorded_of_none fun _ => rfl⟩

theorem discard [Decidable t.store.HasUpdates] (h : t.Holds H T T₀) :
    ∃ T', t.discard.Holds H T' T₀ := by
  unfold VersionedSMT.discard
  split
  next => exact ⟨T₀, h.prev, h.prev, recorded_of_none fun _ => rfl⟩
  next => exact ⟨T, h⟩

variable [DecidableEq D]

/-- An update that fails changes nothing; one that does not returns the root, and records a node if
it is not empty. -/
theorem update_cases (hH : H.CollisionFree) (h : t.Holds H T T₀) (kvs : List Key × List D) :
    ((∃ e, SMT.update H kvs.1 kvs.2 t.toSMT = .error e t.toSMT) ∧ t.update H kvs = t) ∨
    ∃ root T', SMT.update H kvs.1 kvs.2 t.toSMT = .ok root (t.update H kvs).toSMT ∧
      (t.update H kvs).prevRoot = t.prevRoot ∧ (t.update H kvs).store.db = t.store.db ∧
      (t.update H kvs).root = root ∧ (t.update H kvs).Holds H T' T₀ ∧
      ((t.update H kvs).store.HasUpdates ↔ t.store.HasUpdates ∨ root ≠ none) := by
  have hu := h.current.update hH kvs.1 kvs.2
  have hw := SMT.update_writes (H := H) t.toSMT kvs.1 kvs.2
  unfold VersionedSMT.update
  cases hr : SMT.update H kvs.1 kvs.2 t.toSMT with
  | error e t' =>
    rw [wp_of_error hr] at hu
    obtain ⟨rfl, -⟩ := hu
    exact .inl ⟨⟨e, rfl⟩, rfl⟩
  | ok root t' =>
    rw [wp_of_ok hr] at hu hw
    obtain ⟨hroot, hrecords, T', -, hholds⟩ := hu
    obtain ⟨-, hunchanged, hkept, hrecorded⟩ := hw
    refine .inr ⟨root, T', rfl, rfl, hrecords.db, hroot.symm, ⟨hholds, ?_, fun d b hb => ?_⟩, ?_⟩
    · rw [hrecords.db]
      exact h.prev
    · rcases hrecords.recorded d b hb with hold | hnew
      · exact h.recorded d b hold
      · exact hnew
    · refine ⟨fun hupdates => ?_, ?_⟩
      · by_cases hnone : root = none
        · left
          rwa [← hunchanged (hroot.symm.trans hnone)]
        · exact .inr hnone
      · rintro (⟨d, hd⟩ | hne)
        · exact ⟨d, hkept d hd⟩
        · obtain ⟨d, hd⟩ := Option.ne_none_iff_exists'.mp hne
          exact ⟨d, hrecorded d (hroot.symm.trans hd)⟩

theorem update (hH : H.CollisionFree) (h : t.Holds H T T₀) (kvs : List Key × List D) :
    ∃ T', (t.update H kvs).Holds H T' T₀ := by
  obtain ⟨-, heq⟩ | ⟨root, T', -, -, -, -, hholds, -⟩ := h.update_cases hH kvs
  · rw [heq]
    exact ⟨T, h⟩
  · exact ⟨T', hholds⟩

theorem step (hH : H.CollisionFree) [∀ s : Store D, Decidable s.HasUpdates]
    (h : t.Holds H T T₀) (e : Call D) :
    ∃ T' T0', (t.step H e).Holds H T' T0' := by
  cases e with
  | update kvs =>
    obtain ⟨T', hT'⟩ := h.update hH kvs
    exact ⟨T', T₀, hT'⟩
  | commit => exact ⟨T, T, h.commit⟩
  | discard =>
    obtain ⟨T', hT'⟩ := h.discard
    exact ⟨T', T₀, hT'⟩

theorem exec (hH : H.CollisionFree) [∀ s : Store D, Decidable s.HasUpdates] (h : t.Holds H T T₀)
    (es : List (Call D)) : ∃ T' T0', (Run.exec (VersionedSMT.step H) t es).Holds H T' T0' := by
  induction es generalizing t T T₀ with
  | nil => exact ⟨T, T₀, h⟩
  | cons e es ih =>
    obtain ⟨T', T0', h'⟩ := h.step hH e
    exact ih h'

end Holds

/-! ## Updates without `Commit` -/

section Updates

variable [DecidableEq D]

/-- What a list of updates has left. -/
structure Since (H : Hasher D) (c : VersionedSMT D) (us : List (List Key × List D))
    (t : VersionedSMT D) : Prop where
  prevRoot : t.prevRoot = c.prevRoot
  db : t.store.db = c.store.db
  none_succeeds : roots H c us = [] → t = c
  last_root : ∀ root ∈ (roots H c us).getLast?, t.root = root
  hasUpdates : t.store.HasUpdates ↔ c.store.HasUpdates ∨ ∃ root ∈ roots H c us, root ≠ none

theorem Holds.since (hH : H.CollisionFree) {c : VersionedSMT D} {T T₀ : Tree Key D}
    (h : c.Holds H T T₀)
    (us : List (List Key × List D)) : Since H c us (us.foldl (VersionedSMT.update H) c) := by
  induction us generalizing c T with
  | nil => exact ⟨rfl, rfl, fun _ => rfl, fun _ hr => (nomatch hr), by simp [roots]⟩
  | cons kvs us ih =>
    obtain ⟨⟨e, hfail⟩, heq⟩ | ⟨root, T', hok, hprev, hdb, hroot, hholds, hupdates⟩ :=
      h.update_cases hH kvs
    · have hroots : roots H c (kvs :: us) = roots H c us := by rw [roots, hfail, heq]
      have hi := ih h
      rw [foldl_cons, heq]
      exact ⟨hi.prevRoot,
        hi.db, by rw [hroots]; exact hi.none_succeeds, by rw [hroots]; exact hi.last_root,
        by rw [hroots]; exact hi.hasUpdates⟩
    · have hroots : roots H c (kvs :: us) = root :: roots H (c.update H kvs)
        us := by rw [roots, hok]
      have hi := ih hholds
      rw [foldl_cons]
      refine ⟨hi.prevRoot.trans hprev, hi.db.trans hdb, ?_, ?_, ?_⟩
      · rw [hroots]
        exact nofun
      · rw [hroots]
        intro last hlast
        cases hrest : roots H (c.update H kvs) us with
        | nil =>
          rw [hrest] at hlast
          rw [hi.none_succeeds hrest, hroot]
          exact Option.some_inj.mp hlast
        | cons root' rest =>
          rw [hrest, getLast?_cons_cons] at hlast
          exact hi.last_root last (by rw [hrest]; exact hlast)
      · rw [hi.hasUpdates, hupdates, hroots]
        simp [or_assoc]

variable {us : List (List Key × List D)}

/-- The database is what it was; only the root may be another one. -/
theorem Since.discard_store {c t : VersionedSMT D} (h : Since H c us t)
    (hc : ¬c.store.HasUpdates) [Decidable t.store.HasUpdates] : t.discard.store = c.store := by
  have hnone {s : Store D} (hs : ¬s.HasUpdates) : s.updatedNodes = fun _ => none :=
    funext fun d => Option.not_isSome_iff_eq_none.mp fun hd => hs ⟨d, hd⟩
  have hstore {s s' : Store D} (h1 : s.updatedNodes = s'.updatedNodes) (h2 : s.db = s'.db) : s =
    s' := by
    cases s
    cases s'
    exact Store.mk.injEq .. ▸ ⟨h1, h2⟩
  unfold VersionedSMT.discard
  split
  next => exact hstore (hnone hc).symm h.db
  next hupdates => exact hstore ((hnone hupdates).trans (hnone hc).symm) h.db

/-- A root was recorded: `Discard` goes back to `prevRoot`. -/
theorem Since.discard_root_of_recorded {c t : VersionedSMT D}
    (h : Since H c us t) (hroots : ∃ root ∈ roots H c us, root ≠ none)
    [Decidable t.store.HasUpdates] :
    t.discard.root = c.prevRoot := by
  rw [VersionedSMT.discard, if_pos (h.hasUpdates.mpr (.inr hroots))]
  exact h.prevRoot

/-- Nothing was recorded: `Discard` leaves the root as it is. -/
theorem Since.discard_root_of_deleted {c t : VersionedSMT D}
    (h : Since H c us t) (hc : ¬c.store.HasUpdates) (hroots : ¬∃ root ∈ roots H c us, root ≠ none)
    (hne : roots H c us ≠ []) [Decidable t.store.HasUpdates] : t.discard.root = none := by
  have hno : ¬t.store.HasUpdates := by
    rw [h.hasUpdates]
    rintro (hupdates | hrecorded)
    · exact hc hupdates
    · exact hroots hrecorded
  rw [VersionedSMT.discard, if_neg hno, h.last_root _ (getLast?_eq_getLast_of_ne_nil hne)]
  by_contra hlast
  exact hroots ⟨_, getLast_mem hne, hlast⟩

/-- What `Discard` restores, if `prevRoot` may be the root or not. -/
theorem Since.discard_root_iff {c t : VersionedSMT D} (h : Since H c us t)
    (hc : ¬c.store.HasUpdates) [Decidable t.store.HasUpdates] :
    t.discard.root = c.root ↔ roots H c us = [] ∨
      if ∃ root ∈ roots H c us, root ≠ none then c.prevRoot = c.root else c.root = none := by
  by_cases hne : roots H c us = []
  · refine iff_of_true ?_ (.inl hne)
    have hno : ¬t.store.HasUpdates := by
      rw [h.none_succeeds hne]
      exact hc
    rw [VersionedSMT.discard, if_neg hno, h.none_succeeds hne]
  · rw [or_iff_right hne]
    split
    next hroots => rw [h.discard_root_of_recorded hroots]
    next hroots =>
      rw [h.discard_root_of_deleted hc hroots hne]
      exact eq_comm

end Updates

section Discard

variable [DecidableEq D] [∀ s : Store D, Decidable s.HasUpdates]

/-- Since the creation of the trie or the last `Commit` there have been only updates. Then `Discard`
restores the root and what is read exactly if the trie was empty, or no update has succeeded, or
there was a `Commit` and an update has left a trie that is not empty. -/
theorem discard_restores_iff (hH : H.CollisionFree) {root : Option D} {db : D → Option (Record D)}
    {T : Tree Key D} (hdb : (SMT.newSMT root db).Holds H T) (es : List (Call D))
    (hes : es = [] ∨ es.getLast? = some .commit) (us : List (List Key × List D)) :
    let c := Run.exec (step H) (newSMT root db) es
    let t := (us.foldl (update H) c).discard
    (t.root = c.root ∧ ∀ key, t.get key = c.get key) ↔
      c.root = none ∨ roots H c us = [] ∨ (es ≠ [] ∧ ∃ root ∈ roots H c us, root ≠ none) := by
  intro c t
  obtain ⟨T', T₀, hholds⟩ := (holds_newSMT hdb).exec hH es
  have hsince : Since H c us _ := hholds.since hH us
  have hstore (hc : ¬c.store.HasUpdates) :
      (t.root = c.root ∧ ∀ key, t.get key = c.get key) ↔ t.root = c.root := by
    refine and_iff_left_of_imp fun hroot key => ?_
    unfold SMT.get SMT.rootNode
    rw [hroot, show t.store = c.store from hsince.discard_store hc]
  rcases hes with rfl | hlast
  · have hc : ¬c.store.HasUpdates := by
      rintro ⟨d, hd⟩
      cases hd
    have hprev : c.prevRoot = none := rfl
    rw [hstore hc, hsince.discard_root_iff hc, hprev, eq_comm (a := none), ite_self, or_comm]
    simp
  · obtain ⟨es', rfl⟩ := getLast?_eq_some_iff.mp hlast
    have hcommit : c = (Run.exec (step H) (newSMT root db) es').commit :=
      Run.exec_append _ es' [.commit]
    have hc : ¬c.store.HasUpdates := by
      rw [hcommit]
      rintro ⟨d, hd⟩
      cases hd
    have hprev : c.prevRoot = c.root := by
      rw [hcommit]
      rfl
    rw [hstore hc, hsince.discard_root_iff hc, hprev]
    by_cases hroots : ∃ root ∈ roots H c us, root ≠ none
    · simp [hroots]
    · rw [if_neg hroots, or_comm]
      simp only [hroots, and_false, or_false]

end Discard

end VersionedSMT

namespace Digest

open VersionedSMT

def insertion : Call (Digest Nat) := .update ([key 6], [.value 6])

open Classical in
theorem discard_after_commit :
    let c := exec (step hasher) (newSMT none fun _ => none) [insertion, .commit]
    let t := ([([key 7], [value 7])].foldl (VersionedSMT.update hasher) c).discard
    c.root ≠ none ∧ t.root = c.root ∧ ∀ key, t.get key = c.get key := by
  intro c t
  refine ⟨by decide +kernel, ?_⟩
  refine (discard_restores_iff collisionFree SMT.Holds.empty [insertion, .commit] (.inr rfl) _).mpr
    ?_
  exact .inr (.inr ⟨nofun, by decide +kernel⟩)

open Classical in
/-- A trie is created on a root that is in the database, and a key is inserted: `Discard` leaves an
empty trie. A committed trie loses its only key: `Discard` does not bring it back. -/
theorem discard_not_restored :
    let committed := exec (step hasher) (newSMT none fun _ => none) [insertion, .commit]
    let created := newSMT committed.root committed.store.db
    let t := (created.update hasher ([key 7], [value 7])).discard
    let t' := (committed.update hasher ([key 6], [defaultLeaf])).discard
    (∃ T, created.toSMT.Holds hasher T) ∧ created.root = some (.leaf (key 6) (.value 6) 0) ∧
      t.root = none ∧
      committed.root = created.root ∧ t'.root = none := by
  intro committed created t t'
  obtain ⟨T, T₀, hcommitted⟩ := (holds_newSMT (H := hasher) (SMT.Holds.empty)).exec collisionFree
    [insertion, .commit]
  have hcreated : created.toSMT.Holds hasher T := hcommitted.current
  have hsince := (holds_newSMT hcreated).since collisionFree [([key 7], [value 7])]
  have hsince' : Since hasher committed [([key 6], [defaultLeaf])] _ :=
    hcommitted.since collisionFree _
  refine ⟨⟨T, hcreated⟩, by decide +kernel, ?_, rfl, ?_⟩
  · exact hsince.discard_root_of_recorded (by decide +kernel)
  · refine hsince'.discard_root_of_deleted ?_ (by decide +kernel) (by decide +kernel)
    rintro ⟨d, hd⟩
    cases hd

end Digest

end MadNet.Trie
