import MadNet.Engine.Admin

/-!
# Validator sets that arrive again (`admin/handlers.go`)

The monitor delivers the events of a batch again after a failure, so `AddValidatorSet` first looks
whether it knows the set: it takes the set that holds from `NotBefore` on, and compares the group
keys. A set of an epoch boundary is not stored under that height but under the height after the
snapshot, and a set can be replaced under its height by another one. Then the round states start
again, without the votes of the node.
-/

namespace MadNet

open List
open Prog (bind_ok bind₂_ok)

/-! ## The database -/

namespace Db

variable (db : Db)

/-- The snapshot of the greatest height that is not above `n`. -/
def snapshotUpTo : Nat → Option BlockHeader
  | 0 => db.snapshotBlockHeaders 0
  | n + 1 => (db.snapshotBlockHeaders (UInt32.ofNat (n + 1))).or (snapshotUpTo n)

/-- `GetSnapshotByHeight`, where a missing snapshot is no error. -/
def getSnapshotByHeight (height : UInt32) : Except Err (Option BlockHeader) :=
  match db.snapshotUpTo height.toNat with
  | none => .ok none
  | some bh => some <$> decode bh.unmarshalCapn bh

/-- `GetCommittedBlockHeader`, where a missing header is no error. -/
def findCommittedBlockHeader (height : UInt32) : Except Err (Option BlockHeader) :=
  match db.committedBlockHeaders height with
  | none => .ok none
  | some bh => some <$> decode bh.unmarshalCapn bh

def stored (height : UInt32) : Option ValidatorSet := db.validatorSets.find? (·.notBefore == height)

end Db

namespace ValidatorSet

variable (v : ValidatorSet)

/-- The height at which `AddValidatorSet` looks for the set. -/
def firstHeight : UInt32 := if 1 ≤ v.notBefore then v.notBefore else 1

/-- The height of the block that `AddValidatorSet` wants to be committed. -/
def blockHeight : UInt32 := if v.notBefore = 0 then 1 else v.firstHeight - 1

/-- The set starts with an epoch. -/
def AtBoundary : Prop := v.notBefore % Constants.epochLength = 0

/-- The set of a reset, whose group key is all zeros. -/
def IsReset : Prop := v.groupKey = List.replicate v.groupKey.length 0

instance : Decidable v.AtBoundary := inferInstanceAs (Decidable (_ = _))

instance : Decidable v.IsReset := inferInstanceAs (Decidable (_ = _))

end ValidatorSet

/-! ## The handler -/

namespace Admin

variable (ah : Admin) (c : Crypto)

/-- `initDB`, on a database that need not be empty. -/
def restartDB (v : ValidatorSet) (db : Db) : Except Err (BlockHeader × Db) := do
  let (bh, fresh) ← ah.initDB c v
  let db := { db with ownState := fresh.ownState, ownValidatingState := fresh.ownValidatingState }
  return (bh, db.addCommitted c bh)

/-- The block after which a set of an epoch boundary starts. -/
def boundaryBlock (v : ValidatorSet) (db : Db) : Except Err (BlockHeader × Db) := do
  match ← db.getSnapshotByHeight v.notBefore with
  | none => ah.restartDB c v db
  | some bh => if v.notBefore = 0 then ah.restartDB c v db else return (bh, db)

def epochBoundaryValidator (v : ValidatorSet) (db : Db) : Except Err Db := do
  let (bh, db) ← ah.boundaryBlock c v db
  let db ← ah.initRoundStates v (bh.getRCert c) db
  let notBefore := if v.notBefore = 0 then 1 else (bh.getRCert c).height
  { db with validatorSets := { v with notBefore } :: db.validatorSets }.setSafeToProceed notBefore
    true

/-- The first part of `AddValidatorSet`: the block before the set is there, and the set that holds
at its height has the same group key. -/
def isKnown (v : ValidatorSet) (db : Db) : Except Err Bool := do
  let vSet := (db.getValidatorSet v.firstHeight).toOption
  let bh ← db.findCommittedBlockHeader v.blockHeight
  return bh.isSome && vSet.any (·.groupKey == v.groupKey)

def addValidatorSet (v : ValidatorSet) (db : Db) : Except Err Db := do
  match ← isKnown v db with
  | true => return db
  | false =>
    if v.AtBoundary then ah.epochBoundaryValidator c v db
    else if v.IsReset then return { db with validatorSets := v :: db.validatorSets }
    else ah.addValidatorSetEdgecase c v db

end Admin

/-- An event at a node that also follows the contract. The engine calls `AddValidatorSetEdgecase`
for a set that has waited for its block. -/
inductive SetEvent where
  | node (e : Event)
  | addValidatorSet (v : ValidatorSet)
  | addValidatorSetEdgecase (v : ValidatorSet)

namespace Admin

variable (ah : Admin) (ce : Engine)

/-- The database after an event; a transaction that fails is rolled back. -/
def next (db : Db) : SetEvent → Db
  | .node e => ce.next db e
  | .addValidatorSet v => (ah.addValidatorSet ce.crypto v db).toOption.getD db
  | .addValidatorSetEdgecase v => (ah.addValidatorSetEdgecase ce.crypto v db).toOption.getD db

/-- The height under which `AddValidatorSet` stores a set. -/
def slot (db : Db) (v : ValidatorSet) : UInt32 :=
  if v.notBefore = 0 then 1
  else if v.AtBoundary then
    match db.snapshotUpTo v.notBefore.toNat with
    | none => 2
    | some bh => bh.bClaims.height + 1
  else v.notBefore

/-! ## What the events do to the validator sets and the committed blocks -/

def KeepsBlocks (db db' : Db) : Prop :=
  ∀ height, (db.committedBlockHeaders height).isSome → (db'.committedBlockHeaders height).isSome

structure Stores (w : ValidatorSet) (db db' : Db) : Prop where
  validatorSets : db'.validatorSets = w :: db.validatorSets
  blocks : KeepsBlocks db db'

variable {ah ce} {c : Crypto} {v w : ValidatorSet} {rcert : RCert} {db db' : Db}

variable {bh : BlockHeader}

theorem isSome_update_block {blocks : UInt32 → Option BlockHeader}
    {height height' : UInt32} (h : (blocks height).isSome) :
    (Function.update blocks height' (some bh) height).isSome := by
  rw [Function.update_apply]
  split
  · rfl
  · exact h

theorem initValidatorsRoundState_rest (vals : List (Validator × Nat))
    (h : vals.foldlM (initValidatorRoundState v rcert) db = .ok db') :
    db' = { db with roundStates := db'.roundStates } := by
  induction vals generalizing db with
  | nil =>
    cases h
    rfl
  | cons val vals ih =>
    rw [foldlM_cons] at h
    obtain ⟨db1, h1, h⟩ := bind_ok h
    obtain ⟨rs, -, h1⟩ := bind_ok h1
    cases h1
    have hrest := ih h
    exact hrest

theorem initRoundStates_rest (h : ah.initRoundStates v rcert db = .ok db') :
    db' = { db with roundStates := db'.roundStates } := by
  obtain ⟨db1, h1, h⟩ := bind_ok h
  have hrest := initValidatorsRoundState_rest _ h1
  split at h
  · cases h
    exact hrest
  · obtain ⟨rs, -, h⟩ := bind_ok h
    cases h
    rw [hrest]

theorem restartDB_ok (h : ah.restartDB c v db = .ok (bh, db')) :
    bh.bClaims.height = 1 ∧ db'.validatorSets = db.validatorSets ∧ KeepsBlocks db db' ∧
      (db'.committedBlockHeaders 1).isSome := by
  obtain ⟨⟨bh', fresh⟩, hinit, h⟩ := bind_ok h
  obtain ⟨stateRoot, txRoot, -, -, hinit⟩ := bind₂_ok hinit
  obtain ⟨prevBlock, -, hinit⟩ := bind_ok hinit
  cases hinit
  cases h
  refine ⟨rfl, rfl, fun height => isSome_update_block, ?_⟩
  simp [Db.addCommitted]

theorem boundaryBlock_ok (h : ah.boundaryBlock c v db = .ok (bh, db')) (hb : v.AtBoundary) :
    (if v.notBefore = 0 then 1 else bh.bClaims.height + 1) = slot db v ∧
      db'.validatorSets = db.validatorSets ∧ KeepsBlocks db db' ∧
      (v.notBefore = 0 → (db'.committedBlockHeaders 1).isSome) := by
  obtain ⟨snapshot, hsnap, h⟩ := bind_ok h
  unfold slot
  rw [if_pos hb]
  unfold Db.getSnapshotByHeight at hsnap
  cases hs : db.snapshotUpTo v.notBefore.toNat with
  | none =>
    rw [hs] at hsnap
    cases hsnap
    obtain ⟨hheight, hrest⟩ := restartDB_ok h
    rw [hheight]
    exact ⟨rfl, hrest.1, hrest.2.1, fun _ => hrest.2.2⟩
  | some bh0 =>
    rw [hs] at hsnap
    obtain ⟨bh1, hdec, rfl⟩ := Prog.except_map_eq_ok.mp hsnap
    obtain ⟨-, rfl⟩ := decode_eq_ok.mp hdec
    dsimp only at h
    split at h
    next hzero =>
      obtain ⟨-, hrest⟩ := restartDB_ok h
      simp only [if_pos hzero]
      exact ⟨trivial, hrest.1, hrest.2.1, fun _ => hrest.2.2⟩
    next hzero =>
      cases h
      exact ⟨rfl, rfl, fun _ => id, fun h0 => absurd h0 hzero⟩

theorem epochBoundaryValidator_ok (h : ah.epochBoundaryValidator c v db = .ok db')
    (hb : v.AtBoundary) :
    Stores { v with notBefore := slot db v } db db' ∧
      (v.notBefore = 0 → (db'.committedBlockHeaders 1).isSome) := by
  obtain ⟨⟨bh, db1⟩, db2, hblock, hinit, h⟩ := bind₂_ok h
  obtain ⟨-, rfl⟩ := Db.setSafeToProceed_ok.mp h
  obtain ⟨hslot, hsets, hblocks, hfirst⟩ := boundaryBlock_ok hblock hb
  have hrest := initRoundStates_rest hinit
  refine ⟨⟨?_, ?_⟩, ?_⟩
  · rw [← hslot, ← hsets, hrest]
    rfl
  · rw [hrest]
    exact hblocks
  · rw [hrest]
    exact hfirst

/-- `AddValidatorSetEdgecase` lets the set wait for its block, or stores it. -/
theorem addValidatorSetEdgecase_ok (h : ah.addValidatorSetEdgecase c v db = .ok db') :
    (db'.validatorSets = db.validatorSets ∧
      db'.committedBlockHeaders = db.committedBlockHeaders ∧ db'.roundStates = db.roundStates) ∨
    Stores v db db' ∧ (db.committedBlockHeaders (v.notBefore - 1)).isSome := by
  unfold addValidatorSetEdgecase at h
  split at h
  · cases h
    exact .inl ⟨rfl, rfl, rfl⟩
  next bh hbh =>
    obtain ⟨bh', db1, -, hinit, h⟩ := bind₂_ok h
    cases h
    have hrest := initRoundStates_rest hinit
    refine .inr ⟨⟨?_, ?_⟩, by rw [hbh]; rfl⟩
    · rw [hrest]
    · rw [hrest]
      exact fun _ => id

/-- What `AddValidatorSet` does with a set. -/
inductive Added (v : ValidatorSet) (db db' : Db) : Prop where
  | known : isKnown v db = .ok true → db' = db → Added v db db'
  | waits : ¬v.AtBoundary → db'.validatorSets = db.validatorSets →
      db'.committedBlockHeaders = db.committedBlockHeaders → Added v db db'
  | reset : ¬v.AtBoundary → v.IsReset → db' = { db with validatorSets := v :: db.validatorSets } →
      Added v db db'
  | boundary : v.AtBoundary → Stores { v with notBefore := slot db v } db db' →
      (v.notBefore = 0 → (db'.committedBlockHeaders 1).isSome) → Added v db db'
  | edgecase : ¬v.AtBoundary → Stores v db db' →
      (db.committedBlockHeaders (v.notBefore - 1)).isSome → Added v db db'

theorem addValidatorSet_ok (h : ah.addValidatorSet c v db = .ok db') : Added v db db' := by
  obtain ⟨known, hknown, h⟩ := bind_ok h
  cases known with
  | true => exact .known hknown (Except.ok.inj h).symm
  | false =>
    dsimp only at h
    split at h
    next hb =>
      obtain ⟨hstores, hfirst⟩ := epochBoundaryValidator_ok h hb
      exact .boundary hb hstores hfirst
    next hb =>
      split at h
      next hreset => exact .reset hb hreset (Except.ok.inj h).symm
      next =>
        rcases addValidatorSetEdgecase_ok h with ⟨hsets, hblocks, -⟩ | ⟨hstores, hblock⟩
        · exact .waits hb hsets hblocks
        · exact .edgecase hb hstores hblock

/-- A step of the engine and a message leave the validator sets alone. -/
theorem node_ok (ce : Engine) (db : Db) (e : Event) :
    (ce.next db e).validatorSets = db.validatorSets ∧ KeepsBlocks db (ce.next db e) := by
  cases e with
  | store m =>
    simp only [Engine.next]
    cases hm : Handlers.store ce.crypto db m with
    | error e => exact ⟨rfl, fun _ => id⟩
    | ok db' =>
      obtain ⟨rs, -, h⟩ := bind_ok hm
      cases m with
      | vote m =>
        dsimp only at h
        split at h
        · cases h
        · cases h
          exact ⟨rfl, fun _ => id⟩
      | blockHeader bh =>
        dsimp only at h
        split at h
        · cases h
        split at h
        · cases h
        cases h
        exact ⟨rfl, fun _ => id⟩
  | step env =>
    simp only [Engine.next]
    cases hs : ce.runStep env db with
    | error e => exact ⟨rfl, fun _ => id⟩
    | ok db' =>
      rcases Engine.runStep_ok hs with heq | ⟨rs, s, hst⟩
      · exact heq ▸ ⟨rfl, fun _ => id⟩
      rw [hst.written]
      have hprep {s1 : Txn} (hP : Prep ce { db, rs } s1) : s1.db.validatorSets = db.validatorSets ∧
            s1.db.committedBlockHeaders = db.committedBlockHeaders := by
        obtain ⟨bs, hdb, -⟩ := hP.kept.db
        rw [hdb]
        exact ⟨rfl, rfl⟩
      have hcommit {s1 : Txn} {bh : BlockHeader} (hP : Prep ce { db, rs } s1) :
          (s1.db.addCommitted ce.crypto bh).validatorSets = db.validatorSets ∧
            KeepsBlocks db (s1.db.addCommitted ce.crypto bh) := by
        obtain ⟨hsets, hblocks⟩ := hprep hP
        refine ⟨hsets, fun height hh => isSome_update_block ?_⟩
        rwa [hblocks]
      cases hst.outcome with
      | idle hP => exact ⟨(hprep hP).1, fun _ => by rw [Store.writeState, (hprep hP).2]; exact id⟩
      | @cast s b v own hP _ _ _ _ =>
        obtain ⟨hsets, hblocks⟩ := hprep hP
        cases v <;> exact ⟨hsets, fun _ hh => hblocks ▸ hh⟩
      | roundJump hP _ | nextRoundRCert hP _ => exact ⟨(hprep hP).1, fun _ hh => (hprep hP).2 ▸ hh⟩
      | commit hP _ | commitAndClear hP _ => exact hcommit hP

/-! ## Sets that are found again -/

theorem Stores.stored (h : Stores w db db') (height : UInt32) :
    db'.stored height = if w.notBefore = height then some w else db.stored height := by
  rw [Db.stored, h.validatorSets, find?_cons]
  split <;> simp_all [Db.stored]

theorem getValidatorSet_of_stored {height : UInt32} (h : db.stored height = some w) :
    db.getValidatorSet height = .ok w := by
  have hw := find?_some h
  have hmem := mem_of_find?_eq_some h
  simp only [beq_iff_eq] at hw
  -- only a set of the height itself is not below another one
  have hfind : (db.validatorSets.filter (·.notBefore ≤ height)).find?
      (fun vs => (db.validatorSets.filter (·.notBefore ≤ height)).all
        (·.notBefore ≤ vs.notBefore)) = some w := by
    rw [find?_filter, ← h, Db.stored]
    congr 1
    funext vs
    rw [Bool.eq_iff_iff]
    simp only [all_filter, decide_eq_true_eq, all_eq_true,
      Bool.or_eq_true, Bool.not_eq_true', decide_eq_false_iff_not, beq_iff_eq]
    constructor
    · rintro ⟨hle, hall⟩
      have := (hall w hmem).resolve_left (by simp [hw])
      exact UInt32.le_antisymm hle (hw ▸ this)
    · rintro rfl
      exact ⟨UInt32.le_refl _, fun x _ => (em _).symm⟩
  simp only [Db.getValidatorSet, hfind]

/-- The set is stored where `AddValidatorSet` looks for it, and the block before it is there. -/
structure Known (v : ValidatorSet) (db : Db) : Prop where
  stored : (db.stored v.firstHeight).map (·.groupKey) = some v.groupKey
  block : (db.committedBlockHeaders v.blockHeight).isSome

theorem Known.addValidatorSet (h : Known v db) :
    (ah.addValidatorSet c v db).toOption.getD db = db := by
  obtain ⟨w, hw, hkey⟩ := Option.map_eq_some_iff.mp h.stored
  obtain ⟨bh, hbh⟩ := Option.isSome_iff_exists.mp h.block
  cases hrun : ah.addValidatorSet c v db with
  | error e => rfl
  | ok db' =>
    obtain ⟨known, hknown, hrest⟩ := bind_ok hrun
    obtain ⟨bh', hfind, hknown⟩ := bind_ok hknown
    rw [getValidatorSet_of_stored hw] at hknown
    rw [Db.findCommittedBlockHeader, hbh] at hfind
    obtain ⟨_, -, rfl⟩ := Prog.except_map_eq_ok.mp hfind
    obtain rfl : true = known := by simpa [hkey, Except.toOption] using Except.ok.inj hknown
    exact (Except.ok.inj hrest).symm

/-- The event stores no set with another group key where `AddValidatorSet` looks for `v`. -/
def LeavesSlot (v : ValidatorSet) (db : Db) : SetEvent → Prop
  | .node _ => True
  | .addValidatorSet w => slot db w = v.firstHeight → w.groupKey = v.groupKey
  | .addValidatorSetEdgecase w => w.notBefore = v.firstHeight → w.groupKey = v.groupKey

instance (v : ValidatorSet) (db : Db) : ∀ e, Decidable (LeavesSlot v db e)
  | .node _ => inferInstanceAs (Decidable True)
  | .addValidatorSet _ => inferInstanceAs (Decidable (_ → _))
  | .addValidatorSetEdgecase _ => inferInstanceAs (Decidable (_ → _))

theorem Known.stores (h : Known v db) (hs : Stores w db db')
    (hkey : w.notBefore = v.firstHeight → w.groupKey = v.groupKey) : Known v db' := by
  refine ⟨?_, hs.blocks _ h.block⟩
  rw [hs.stored]
  split
  next hn => rw [Option.map_some, hkey hn]
  next => exact h.stored

theorem Known.congr (h : Known v db) (hsets : db'.validatorSets = db.validatorSets)
    (hblocks : KeepsBlocks db db') : Known v db' := by
  refine ⟨?_, hblocks _ h.block⟩
  rw [Db.stored, hsets]
  exact h.stored

theorem slot_of_not_atBoundary (h : ¬v.AtBoundary) : slot db v = v.notBefore := by
  have hzero : v.notBefore ≠ 0 := by
    intro h0
    exact h (by rw [ValidatorSet.AtBoundary, h0]; rfl)
  rw [slot, if_neg hzero, if_neg h]

theorem Known.next {e : SetEvent} (h : Known v db) (he : LeavesSlot v db e) :
    Known v (ah.next ce db e) := by
  cases e with
  | node e =>
    obtain ⟨hsets, hblocks⟩ := node_ok ce db e
    exact h.congr hsets hblocks
  | addValidatorSet w =>
    simp only [Admin.next]
    cases hrun : ah.addValidatorSet ce.crypto w db with
    | error e => exact h
    | ok db' =>
      cases addValidatorSet_ok hrun with
      | known _ hdb => exact hdb ▸ h
      | waits _ hsets hblocks => exact h.congr hsets fun _ hh => hblocks ▸ hh
      | reset hb _ hdb =>
        refine h.stores (w := w) ⟨hdb ▸ rfl, hdb ▸ fun _ => id⟩ fun hn => he ?_
        rw [slot_of_not_atBoundary hb, hn]
      | boundary _ hs _ => exact h.stores hs he
      | edgecase hb hs _ =>
        refine h.stores hs fun hn => he ?_
        rw [slot_of_not_atBoundary hb, hn]
  | addValidatorSetEdgecase w =>
    simp only [Admin.next]
    cases hrun : ah.addValidatorSetEdgecase ce.crypto w db with
    | error e => exact h
    | ok db' =>
      rcases addValidatorSetEdgecase_ok hrun with ⟨hsets, hblocks, -⟩ | ⟨hs, -⟩
      · exact h.congr hsets fun _ hh => hblocks ▸ hh
      · exact h.stores hs he

theorem firstHeight_of_not_atBoundary (h : ¬v.AtBoundary) :
    v.firstHeight = v.notBefore ∧ v.blockHeight = v.notBefore - 1 := by
  have hzero : v.notBefore ≠ 0 := by
    intro h0
    exact h (by rw [ValidatorSet.AtBoundary, h0]; rfl)
  have hone : 1 ≤ v.notBefore := by
    rw [UInt32.le_iff_toNat_le]
    have : v.notBefore.toNat ≠ 0 := fun h => hzero (UInt32.toNat_inj.mp h)
    exact Nat.one_le_iff_ne_zero.mpr this
  simp [ValidatorSet.blockHeight, ValidatorSet.firstHeight, hzero, hone]

theorem known_of_stores (hb : ¬v.AtBoundary) (hs : Stores v db db')
    (hblock : (db.committedBlockHeaders (v.notBefore - 1)).isSome) : Known v db' := by
  obtain ⟨hfirst, hheight⟩ := firstHeight_of_not_atBoundary hb
  refine ⟨?_, hs.blocks _ (hheight ▸ hblock)⟩
  rw [hs.stored, hfirst, if_pos rfl]
  rfl

/-- A set that was stored, and not at a later epoch boundary, is found again unless it is a reset.
-/
theorem known_of_installed {e : SetEvent}
    (he : e = .addValidatorSet v ∨ e = .addValidatorSetEdgecase v)
    (hinst : (ah.next ce db e).validatorSets ≠ db.validatorSets)
    (hb : v.AtBoundary → v.notBefore = 0 ∧ e = .addValidatorSet v) :
    Known v (ah.next ce db e) ∨ ¬v.AtBoundary ∧ v.IsReset := by
  rcases he with rfl | rfl
  · simp only [Admin.next] at hinst ⊢
    cases hrun : ah.addValidatorSet ce.crypto v db with
    | error e => exact absurd (by rw [hrun]; rfl) hinst
    | ok db' =>
      rw [hrun] at hinst
      cases addValidatorSet_ok hrun with
      | known _ hdb => exact absurd (congrArg Db.validatorSets hdb) hinst
      | waits _ hsets _ => exact absurd hsets hinst
      | reset hnb hreset _ => exact .inr ⟨hnb, hreset⟩
      | boundary hbound hs hfirst =>
        have hzero := (hb hbound).1
        have hslot : slot db v = v.firstHeight := by simp [slot, ValidatorSet.firstHeight, hzero]
        refine .inl ⟨?_, ?_⟩
        · rw [Except.toOption, Option.getD_some, hs.stored, if_pos hslot]
          rfl
        · rw [ValidatorSet.blockHeight, if_pos hzero]
          exact hfirst hzero
      | edgecase hnb hs hblock => exact .inl (known_of_stores hnb hs hblock)
  · have hnb : ¬v.AtBoundary := fun h => nomatch (hb h).2
    simp only [Admin.next] at hinst ⊢
    cases hrun : ah.addValidatorSetEdgecase ce.crypto v db with
    | error e => exact absurd (by rw [hrun]; rfl) hinst
    | ok db' =>
      rw [hrun] at hinst
      rcases addValidatorSetEdgecase_ok hrun with ⟨hsets, -⟩ | ⟨hs, hblock⟩
      · exact absurd hsets hinst
      · exact .inl (known_of_stores hnb hs hblock)

theorem roundStates_of_reset (hnb : ¬v.AtBoundary) (hreset : v.IsReset) :
    (ah.next ce db (.addValidatorSet v)).roundStates = db.roundStates := by
  simp only [Admin.next]
  cases hrun : ah.addValidatorSet ce.crypto v db with
  | error e => rfl
  | ok db' =>
    obtain ⟨known, -, h⟩ := bind_ok hrun
    cases known with
    | true => exact congrArg Db.roundStates (Except.ok.inj h).symm
    | false =>
      dsimp only at h
      rw [if_neg hnb, if_pos hreset] at h
      cases h
      rfl

/-- What the event of a set that was there before must leave of a round state: its height and round,
its votes, and a group key that is not that of an older set. -/
structure Survives (v : ValidatorSet) (db : Db) (rs rs' : RoundState) : Prop where
  hr : rs.rCert.hr ≤ rs'.rCert.hr
  votes : rs'.rCert.hr = rs.rCert.hr → ∀ k w, rs.slot k = some w → rs'.slot k = some w
  groupKey : rs'.groupKey ≠ rs.groupKey →
    ∀ w ∈ db.validatorSets, w.groupKey = rs.groupKey → w.notBefore ≤ v.firstHeight

/-- A set that was stored comes again, after any messages, steps and other sets: the round states
survive, unless the set starts a later epoch or another set has taken its place. -/
theorem survives_of_delivered_again (ah : Admin) (ce : Engine) (db₀ : Db) (es₁ es₂ : List SetEvent)
    (e : SetEvent) (v : ValidatorSet)
    (he : e = .addValidatorSet v ∨ e = .addValidatorSetEdgecase v)
    (hinst : (Run.exec (ah.next ce) db₀ (es₁ ++ [e])).validatorSets ≠
      (Run.exec (ah.next ce) db₀ es₁).validatorSets)
    (hb : v.AtBoundary → v.notBefore = 0 ∧ e = .addValidatorSet v)
    (hslot : Run.Along (LeavesSlot v) (ah.next ce) (Run.exec (ah.next ce) db₀ (es₁ ++ [e])) es₂) :
    let db := Run.exec (ah.next ce) db₀ (es₁ ++ e :: es₂)
    ∀ a rs, db.roundStates.lookup a = some rs →
      ∃ rs', (ah.next ce db (.addValidatorSet v)).roundStates.lookup a = some rs' ∧
        Survives v db rs rs' := by
  intro db a rs hrs
  have hdb : db = Run.exec (ah.next ce) (Run.exec (ah.next ce) db₀ (es₁ ++ [e])) es₂ := by
    rw [← Run.exec_append, append_assoc]
    rfl
  have hsame : (ah.next ce db (.addValidatorSet v)).roundStates = db.roundStates := by
    rw [Run.exec_append] at hinst hslot hdb
    rcases known_of_installed he hinst hb with hknown | ⟨hnb, hreset⟩
    · have hend := Run.invariant (Known v) (fun _ _ h hl => h.next hl) hknown hslot
      rw [Run.exec_cons, Run.exec_nil] at hdb
      rw [← hdb] at hend
      exact congrArg Db.roundStates hend.addValidatorSet
    · exact roundStates_of_reset hnb hreset
  refine ⟨rs, by rw [hsame, hrs], Nat.le_refl _, fun _ _ _ => id, fun h => absurd rfl h⟩

def reelected (notBefore : UInt32) : ValidatorSet :=
  { ValidatorSet.four with groupKey := [21], notBefore }

open Four in
/-- A set for the height 2 comes again after the node has prevoted. -/
theorem survives_of_delivered_again_sample :
    let step := (admin 1).next (engine 1)
    let db := Run.exec step (genesis 1) [.addValidatorSet (reelected 2), .node (.step envPto)]
    ∀ a rs, db.roundStates.lookup a = some rs →
      ∃ rs', (step db (.addValidatorSet (reelected 2))).roundStates.lookup a = some rs' ∧
        Survives (reelected 2) db rs rs' :=
  survives_of_delivered_again (admin 1) (engine 1) (genesis 1) [] [.node (.step envPto)]
    _ (reelected 2)
    (.inl rfl) (by decide +kernel) (fun h => absurd h (by decide +kernel)) (by decide +kernel)

/-! ### The end of an epoch -/

namespace EpochEnd

open Four

/-- The last block of the first epoch, signed by the group of the first set. -/
def lastBlock : BlockHeader :=
  { bClaims := { chainID := 1, height := 1024, txCount := 0, prevBlock := (rCert 1).prevBlock,
                 txRoot := [], stateRoot := [],
                 headerRoot := ((genesis 1).headerTrieRoots 1).getD [] }
    sigGroup := [20]
    txHshLst := [] }

/-- The node of the account `a` when it has committed that block. Of the blocks before it, the
database holds only the first one. -/
def node (a : UInt8) : Db :=
  match Store.loadLocalState (genesis a) with
  | .error _ => genesis a
  | .ok rs =>
    let s := Txn.commit { db := genesis a, rs } (engine a) lastBlock
    Store.writeState .ideal s.rs s.db

/-- A proposal of the first block of the next epoch. -/
def proposal : Proposal :=
  { pClaims :=
      { bClaims :=
          { chainID := 1, height := 1025, txCount := 0, txRoot := [], stateRoot := [],
            prevBlock := (lastBlock.getRCert .ideal).prevBlock,
            headerRoot := ((node 1).headerTrieRoots 1024).getD [] }
        rCert := lastBlock.getRCert .ideal }
    signature := (ValidatorSet.four.proposer? 1025 1).getD []
    txHshLst := [] }

/-- The set of the next epoch comes, the node prevotes nil, and the set comes again: the vote is
gone from the round state of the node, and it prevotes a block in the same round. -/
theorem prevotes_twice_after_epochBoundary :
    let step := (admin 1).next (engine 1)
    let v := reelected 1024
    let nil : PreVoteNil := ⟨lastBlock.getRCert .ideal, [1]⟩
    let db := Run.exec step (node 1) [.addValidatorSet v, .node (.step envPto)]
    let db' := step db (.addValidatorSet v)
    (db.stored 1025).map (·.groupKey) = some v.groupKey ∧
      db.roundStates.lookup [1] = some db.own ∧ db'.roundStates.lookup [1] = some db'.own ∧
      ¬Survives v db db.own db'.own ∧
      .preVoteNil nil ∈ db.broadcasts ∧
      (arrives (.proposal proposal)).Accepted .ideal db' ∧
      .preVote ⟨proposal, [1]⟩ ∈ (Run.exec step db'
        [.node (arrives (.proposal proposal)), .node (.step envPto)]).broadcasts := by
  refine ⟨by decide +kernel, by decide +kernel, by decide +kernel, fun h => ?_, by decide +kernel,
    by decide +kernel, by decide +kernel⟩
  have hkept := h.votes (by decide +kernel) .preVoteNil
    (.preVoteNil ⟨lastBlock.getRCert .ideal, [1]⟩) (by decide +kernel)
  exact absurd hkept (by decide +kernel)

end EpochEnd

end Admin

end MadNet
