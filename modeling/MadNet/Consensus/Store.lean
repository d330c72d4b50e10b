import MadNet.Consensus.Encoding
import MadNet.Consensus.VoteSlots

/-!
# The database and the state store (`db.go`, `sstore.go`)

Writes to the database do not fail here: a failing write aborts the transaction, as if it had not
been started. A read decodes the value.
-/

namespace MadNet

open List Prog AList

/-- What the engine has handed to the gossip layer. `SetBroadcastNextHeight` is called in two
places, which are kept apart. -/
inductive Broadcast where
  | proposal (v : Proposal)
  | preVote (v : PreVote)
  | preVoteNil (v : PreVoteNil)
  | preCommit (v : PreCommit)
  | preCommitNil (v : PreCommitNil)
  | nextRound (v : NextRound)
  | rCert (v : RCert)
  | nextHeightFromPreCommits (v : NextHeight)
  | nextHeightFromNextHeight (v : NextHeight)
  | blockHeader (v : BlockHeader)
  deriving DecidableEq

/-- The database. Instead of the last object of each kind it keeps the whole history of
broadcasts, the latest first. -/
structure Db where
  ownState : OwnState
  ownValidatingState : OwnValidatingState
  /-- The current round state of each account. -/
  roundStates : AList fun _ : Bytes => RoundState
  validatorSets : List ValidatorSet
  /-- Validator sets that wait for a block, by the height from which they are to hold. -/
  validatorSetsPostApplication : UInt32 → Option ValidatorSet
  committedBlockHeaders : UInt32 → Option BlockHeader
  /-- The root of the header trie after the block of a height. -/
  headerTrieRoots : UInt32 → Option Bytes
  snapshotBlockHeaders : UInt32 → Option BlockHeader
  /-- Whether the blocks of the epoch that starts at a height may be made. -/
  safeToProceed : UInt32 → Bool
  broadcasts : List Broadcast
  deriving Inhabited

namespace Db

variable (db : Db)

def getOwnState : Except Err OwnState := decode db.ownState.unmarshalCapn db.ownState

def getOwnValidatingState : Except Err OwnValidatingState :=
  decode db.ownValidatingState.unmarshalCapn db.ownValidatingState

def getCurrentRoundState (vaddr : Bytes) : Except Err RoundState :=
  match db.roundStates.lookup vaddr with
  | none => .error .keyNotFound
  | some b => decode b.unmarshalCapn b

/-- `GetValidatorSet`: the set with the highest `NotBefore` that is not above the height; of sets
with one `NotBefore` the last one written counts, which stands first. -/
def getValidatorSet (height : UInt32) : Except Err ValidatorSet :=
  let known := db.validatorSets.filter (·.notBefore ≤ height)
  match known.find? fun vs => known.all (·.notBefore ≤ vs.notBefore) with
  | none => .error .keyNotFound
  | some vs => .ok vs

/-- `GetSafeToProceed`, which panics unless an epoch starts at the height. -/
def getSafeToProceed (height : UInt32) : Except Err Bool :=
  if height % Constants.epochLength = 1 then .ok (db.safeToProceed height)
  else .error (.other "The height must be mod 1 epoch length")

/-- `SetSafeToProceed`, which panics unless an epoch starts at the height. -/
def setSafeToProceed (height : UInt32) (isSafe : Bool) : Except Err Db :=
  if height % Constants.epochLength = 1 then
    .ok { db with safeToProceed := Function.update db.safeToProceed height isSafe }
  else .error (.other "The height must be mod 1 epoch length")

/-- `SetCurrentRoundState`, on the table of the round states. -/
def setCurrentRoundState (m : AList fun _ : Bytes => RoundState) (v : RoundState) :
    AList fun _ : Bytes => RoundState :=
  m.insert v.vAddr v

theorem setSafeToProceed_ok {db db' : Db} {height : UInt32} {isSafe : Bool} :
    db.setSafeToProceed height isSafe = .ok db' ↔ height % Constants.epochLength = 1 ∧
      db' = { db with safeToProceed := Function.update db.safeToProceed height isSafe } := by
  unfold setSafeToProceed
  split <;> simp_all [eq_comm]

theorem getCurrentRoundState_ok {db : Db} {a : Bytes} {b : RoundState} :
    db.getCurrentRoundState a = .ok b ↔
      db.roundStates.lookup a = some b ∧ b.unmarshalCapn = .ok () := by
  unfold getCurrentRoundState
  cases db.roundStates.lookup a with
  | none => simp
  | some b' =>
    simp only [decode_eq_ok, Option.some_inj]
    constructor
    · rintro ⟨h, rfl⟩
      exact ⟨rfl, h⟩
    · rintro ⟨rfl, h⟩
      exact ⟨h, rfl⟩

theorem getCurrentRoundState_keyNotFound {db : Db} {a : Bytes}
    (h : db.getCurrentRoundState a = .error .keyNotFound) : db.roundStates.lookup a = none := by
  unfold getCurrentRoundState at h
  cases hl : db.roundStates.lookup a with
  | none => rfl
  | some b => exact absurd (by simpa [hl] using h) decode_ne_keyNotFound

end Db

namespace Store

variable (c : Crypto)

/-- The round state of a validator as `LoadState` reads it; a validator that the database does not
know starts at `rcert`. -/
def loadRoundState (db : Db) (vs : ValidatorSet) (rcert : RCert) (val : Validator) (idx : Nat) :
    Except Err RoundState :=
  match db.getCurrentRoundState val.vAddr with
  | .ok rstate => .ok rstate
  | .error .keyNotFound =>
    decode rcert.unmarshalCapn
      { vAddr := val.vAddr, groupKey := vs.groupKey, groupShare := val.groupShare,
        groupIdx := UInt8.ofNat idx, rCert := rcert }
  | .error e => .error e

/-- The loop of `LoadState` over the validators. -/
def loadRoundStates (db : Db) (vs : ValidatorSet) (rcert : RCert) :
    List (Validator × Nat) → (AList fun _ : Bytes => RoundState) →
    Except Err (AList fun _ : Bytes => RoundState)
  | [], m => .ok m
  | (val, idx) :: l, m => do
    let rstate ← loadRoundState db vs rcert val idx
    loadRoundStates db vs rcert l (m.insert val.vAddr rstate)

/-- `LoadState`. A decoded certificate has no round zero, so the case that fills in the round from
the own state does not arise. -/
def loadState (db : Db) (rcert : RCert) : Except Err RoundStates := do
  let validatorSet ← db.getValidatorSet rcert.height
  let ownState ← db.getOwnState
  let rstate ← db.getCurrentRoundState ownState.vAddr
  let peerStateMap ← loadRoundStates db validatorSet rcert validatorSet.validators.zipIdx
    (AList.singleton ownState.vAddr rstate)
  let ownValidatingState ← db.getOwnValidatingState
  return { height := rcert.height, round := rcert.round, ownState, validatorSet,
           ownValidatingState, peerStateMap }

def loadLocalState (db : Db) : Except Err RoundStates := do
  let ownState ← db.getOwnState
  let rs ← db.getCurrentRoundState ownState.vAddr
  loadState db rs.rCert

/-- The value against which `WriteState` checks the votes of the validators. -/
def conflictCheckerValue (rs : RoundStates) : Option Proposal :=
  if rs.lockedValueCurrent then rs.lockedValue
  else if rs.validValueCurrent then rs.validValue
  else none

/-- `TrackExternalConflicts` as `WriteState` calls it; the error is dropped. -/
def trackExternalConflicts (value : Option Proposal) (s : RoundState) : RoundState :=
  match value with
  | none => s
  | some v => Prog.after (RoundState.trackExternalConflicts c v) s

def writeRoundStates (rs : RoundStates) (m : AList fun _ : Bytes => RoundState) :
    AList fun _ : Bytes => RoundState :=
  let states := rs.validatorSet.validators.filterMap fun valObj => rs.getRoundState valObj.vAddr
  let m := states.foldl Db.setCurrentRoundState m
  let m := Db.setCurrentRoundState m rs.ownRoundState
  let value := conflictCheckerValue rs
  states.foldl (fun m s => Db.setCurrentRoundState m (trackExternalConflicts c value s)) m

def writeState (rs : RoundStates) (db : Db) : Db :=
  { db with ownState := rs.ownState, ownValidatingState := rs.ownValidatingState,
            roundStates := writeRoundStates c rs db.roundStates }

/-! ## What loading gives -/

/-- Every state is stored under the account it belongs to. -/
def Keyed (m : AList fun _ : Bytes => RoundState) : Prop := ∀ a b, m.lookup a = some b → b.vAddr = a

/-- A state that was read, or made for a validator that the database does not know. -/
inductive LoadedState (db : Db) (rcert : RCert) (a : Bytes) (b : RoundState) : Prop where
  | stored : db.roundStates.lookup a = some b → b.WellFormed → LoadedState db rcert a b
  | fresh : db.roundStates.lookup a = none → b.vAddr = a → b.EmptyAt rcert.rClaims →
      b.rCert = rcert → rcert.rClaims.WellFormed → LoadedState db rcert a b

variable {db : Db} {rcert : RCert}

theorem LoadedState.wellFormed {a : Bytes} {b : RoundState}
    (h : LoadedState db rcert a b) : b.WellFormed := by
  cases h with
  | stored _ hwf => exact hwf
  | fresh _ _ hempty hrc hwf =>
    rw [hempty.1]
    refine ⟨?_, ?_, ?_, ?_, ?_, ?_⟩ <;> simp [RoundState.emptied]
    exact hrc ▸ hwf

variable {vs : ValidatorSet}

theorem loadRoundState_ok {val : Validator} {idx : Nat}
    {b : RoundState} (h : loadRoundState db vs rcert val idx = .ok b) :
    LoadedState db rcert val.vAddr b := by
  unfold loadRoundState at h
  split at h
  next rstate hget =>
    cases h
    obtain ⟨hl, hd⟩ := Db.getCurrentRoundState_ok.mp hget
    exact .stored hl (RoundState.wellFormed_of_unmarshalCapn hd)
  next hget =>
    obtain ⟨hd, rfl⟩ := decode_eq_ok.mp h
    exact .fresh (Db.getCurrentRoundState_keyNotFound hget) rfl ⟨rfl, rfl⟩ rfl
      (RClaims.unmarshalCapn_ok.mp hd)
  next => cases h

theorem loadRoundStates_ok {l : List (Validator × Nat)} {m m' : AList fun _ : Bytes => RoundState}
    (h : loadRoundStates db vs rcert l m = .ok m') :
    (∀ a b, m'.lookup a = some b → m.lookup a = some b ∨ LoadedState db rcert a b) ∧
      ∀ a, (m'.lookup a).isSome ↔ (m.lookup a).isSome ∨ a ∈ l.map (·.1.vAddr) := by
  induction l generalizing m with
  | nil =>
    cases h
    exact ⟨fun _ _ h => .inl h, by simp⟩
  | cons x l ih =>
    obtain ⟨val, idx⟩ := x
    obtain ⟨b, hb, h⟩ := bind_ok h
    obtain ⟨h1, h2⟩ := ih h
    refine ⟨fun a b' hb' => ?_, fun a => ?_⟩
    · rcases h1 a b' hb' with hins | hl
      · by_cases ha : a = val.vAddr
        · subst ha
          rw [lookup_insert, Option.some_inj] at hins
          exact .inr (hins ▸ loadRoundState_ok hb)
        · exact .inl (by rwa [lookup_insert_ne ha] at hins)
      · exact .inr hl
    · rw [h2 a]
      by_cases ha : a = val.vAddr
      · subst ha
        simp [lookup_insert]
      · simp [lookup_insert_ne ha, ha]

/-- What `LoadState` gives. -/
structure Loaded (db : Db) (rcert : RCert) (rs : RoundStates) : Prop where
  height : rs.height = rcert.height
  round : rs.round = rcert.round
  validatorSet : db.getValidatorSet rcert.height = .ok rs.validatorSet
  ownState : rs.ownState = db.ownState
  ownState_decoded : db.ownState.unmarshalCapn = .ok ()
  ownValidatingState : rs.ownValidatingState = db.ownValidatingState
  lockedValue : ∀ p ∈ rs.lockedValue, p.WellFormed
  validValue : ∀ p ∈ rs.validValue, p.WellFormed
  own : ∃ b, rs.getRoundState db.ownState.vAddr = some b ∧
    db.roundStates.lookup db.ownState.vAddr = some b
  peer : ∀ a b, rs.getRoundState a = some b → LoadedState db rcert a b
  known : ∀ a, (rs.getRoundState a).isSome ↔ a = db.ownState.vAddr ∨
    rs.validatorSet.isVAddrValidator a

theorem isVAddrValidator_iff {a : Bytes} : vs.isVAddrValidator a ↔
    a ∈ vs.validators.map (·.vAddr) := by
  simp only [ValidatorSet.isVAddrValidator, any_eq_true, beq_iff_eq, mem_map]

theorem lookup_singleton {β : Type} (a a' : Bytes) (b : β) :
    (singleton (β := fun _ => β) a b).lookup a' = if a' = a then some b else none := by
  rw [← insert_empty]
  split
  next h => rw [h, lookup_insert]
  next h => rw [lookup_insert_ne h, lookup_empty]

variable {rs : RoundStates}

theorem loadState_ok (h : loadState db rcert = .ok rs) : Loaded db rcert rs := by
  obtain ⟨vs, _, hvs, hown, h⟩ := bind₂_ok h
  obtain ⟨hos, rfl⟩ := decode_eq_ok.mp hown
  obtain ⟨b, m, hrs, hm, h⟩ := bind₂_ok h
  obtain ⟨ovs, hovs, h⟩ := bind_ok h
  cases h
  obtain ⟨hd, rfl⟩ := decode_eq_ok.mp hovs
  obtain ⟨hlock, hvalid⟩ := bind_ok_iff.mp hd
  obtain ⟨hl, hwf⟩ := Db.getCurrentRoundState_ok.mp hrs
  obtain ⟨hpeer, hknown⟩ := loadRoundStates_ok hm
  have hsingle (a) := lookup_singleton db.ownState.vAddr a b
  have hpeer' (a b') (hb' : m.lookup a = some b') : LoadedState db rcert a b' := by
    rcases hpeer a b' hb' with hs | hs
    · rw [hsingle, Option.ite_none_right_eq_some, Option.some_inj] at hs
      obtain ⟨rfl, rfl⟩ := hs
      exact .stored hl (RoundState.wellFormed_of_unmarshalCapn hwf)
    · exact hs
  have hknown' (a) : (m.lookup a).isSome ↔ a = db.ownState.vAddr ∨ vs.isVAddrValidator a := by
    have hzip : vs.validators.zipIdx.map (·.1.vAddr) = vs.validators.map (·.vAddr) := by
      conv_rhs => rw [← zipIdx_map_fst 0 vs.validators]
      rw [map_map]
      rfl
    rw [hknown, hsingle, hzip, isVAddrValidator_iff]
    simp
  refine ⟨rfl, rfl, hvs, rfl, hos, rfl, Vote.wellFormed_of_unmarshalCapn? hlock,
    Vote.wellFormed_of_unmarshalCapn? hvalid, ?_, hpeer', hknown'⟩
  obtain ⟨b', hb'⟩ := Option.isSome_iff_exists.mp ((hknown' db.ownState.vAddr).mpr (.inl rfl))
  refine ⟨b', hb', ?_⟩
  cases hpeer' _ _ hb' with
  | stored h => exact h
  | fresh h => rw [hl] at h; cases h

/-- The number of states on which the threshold depends: one for each validator, and the own. -/
theorem Loaded.threshold (h : Loaded db rcert rs) :
    rs.getCurrentThreshold = calcThreshold (if rs.isCurrentValidator then
      rs.validatorSet.validators.length else rs.validatorSet.validators.length + 1) + 1 := by
  have hmem (a) : a ∈ rs.peerStateMap.keys ↔
      a = db.ownState.vAddr ∨ a ∈ rs.validatorSet.validators.map (·.vAddr) := by
    rw [← isVAddrValidator_iff, ← h.known a, ← AList.mem_keys, ← AList.lookup_isSome]
    rfl
  have hlength : rs.peerStateMap.entries.length = rs.peerStateMap.keys.length := (length_map _).symm
  have hnodup := rs.validatorSet.vAddr_nodup
  unfold RoundStates.getCurrentThreshold
  rw [hlength]
  congr 2
  split
  next hv =>
    rw [RoundStates.isCurrentValidator, isVAddrValidator_iff, h.ownState] at hv
    rw [← length_map (f := Validator.vAddr)]
    refine List.Perm.length_eq ((perm_ext_iff_of_nodup rs.peerStateMap.keys_nodup hnodup).mpr ?_)
    intro a
    rw [hmem]
    exact ⟨fun h => h.elim (fun h => h ▸ hv) id, .inr⟩
  next hv =>
    rw [RoundStates.isCurrentValidator, isVAddrValidator_iff, h.ownState] at hv
    rw [← length_map (f := Validator.vAddr), ← length_cons (a := db.ownState.vAddr)]
    refine List.Perm.length_eq ((perm_ext_iff_of_nodup rs.peerStateMap.keys_nodup
      (nodup_cons.mpr ⟨hv, hnodup⟩)).mpr ?_)
    intro a
    rw [hmem, mem_cons]

theorem loadLocalState_ok (h : loadLocalState db = .ok rs) :
    ∃ b, db.roundStates.lookup db.ownState.vAddr = some b ∧ rs.ownRoundState = b ∧ Loaded db
      b.rCert rs := by
  obtain ⟨_, hown, h⟩ := bind_ok h
  obtain ⟨-, rfl⟩ := decode_eq_ok.mp hown
  obtain ⟨b, hrs, h⟩ := bind_ok h
  have hload := loadState_ok h
  obtain ⟨hl, -⟩ := Db.getCurrentRoundState_ok.mp hrs
  obtain ⟨b', hb', hl'⟩ := hload.own
  rw [hl, Option.some_inj] at hl'
  subst hl'
  refine ⟨b, hl, ?_, hload⟩
  rw [RoundStates.ownRoundState, hload.ownState, hb', Option.getD_some]

/-! ## What writing leaves -/

theorem trackExternalConflicts_vAddr (value : Option Proposal) (s : RoundState) :
    (trackExternalConflicts c value s).vAddr = s.vAddr := by
  cases value with
  | none => rfl
  | some v =>
    simp only [trackExternalConflicts, Prog.after, RoundState.trackExternalConflicts_apply]
    split <;> rfl

theorem lookup_foldl_setCurrentRoundState {f : RoundState → RoundState}
    (hf : ∀ s, (f s).vAddr = s.vAddr) {l : List RoundState} (hnodup : (l.map (·.vAddr)).Nodup)
    {m : AList fun _ : Bytes => RoundState} {a : Bytes} :
    (∀ s ∈ l, s.vAddr = a → (l.foldl (fun m s => Db.setCurrentRoundState m (f s)) m).lookup a =
      some (f s)) ∧
    ((∀ s ∈ l, s.vAddr ≠ a) →
      (l.foldl (fun m s => Db.setCurrentRoundState m (f s)) m).lookup a = m.lookup a) := by
  induction l generalizing m with
  | nil => simp
  | cons s l ih =>
    obtain ⟨hnot, hnodup⟩ := nodup_cons.mp hnodup
    have hins (a) : (Db.setCurrentRoundState m (f s)).lookup a =
        if a = s.vAddr then some (f s) else m.lookup a := by
      simp only [Db.setCurrentRoundState, hf]
      split
      next h => rw [h, lookup_insert]
      next h => rw [lookup_insert_ne h]
    obtain ⟨ih1, ih2⟩ := ih (m := Db.setCurrentRoundState m (f s)) hnodup
    simp only [foldl_cons, mem_cons, forall_eq_or_imp]
    refine ⟨⟨?_, ih1⟩, ?_⟩
    · rintro rfl
      rw [ih2 fun s' hs' heq => hnot (mem_map.mpr ⟨s', hs', heq⟩), hins, if_pos rfl]
    · rintro ⟨hne, hrest⟩
      rw [ih2 hrest, hins, if_neg hne.symm]

section Write

variable {rs : RoundStates} (hkeyed : Keyed rs.peerStateMap)
  (hall : ∀ a, rs.validatorSet.isVAddrValidator a → (rs.getRoundState a).isSome)

include hkeyed

theorem mem_states {a : Bytes} {s : RoundState} :
    (s ∈ rs.validatorSet.validators.filterMap fun valObj => rs.getRoundState valObj.vAddr) ∧
      s.vAddr = a ↔ rs.validatorSet.isVAddrValidator a ∧ rs.getRoundState a = some s := by
  rw [mem_filterMap, isVAddrValidator_iff, mem_map]
  constructor
  · rintro ⟨⟨val, hval, hs⟩, rfl⟩
    have := hkeyed _ _ hs
    exact ⟨⟨val, hval, this.symm⟩, this ▸ hs⟩
  · rintro ⟨⟨val, hval, rfl⟩, hs⟩
    exact ⟨⟨val, hval, hs⟩, hkeyed _ _ hs⟩

include hall

theorem map_vAddr_states :
    (rs.validatorSet.validators.filterMap fun valObj => rs.getRoundState valObj.vAddr).map
      (·.vAddr) = rs.validatorSet.validators.map (·.vAddr) := by
  have hval : ∀ val ∈ rs.validatorSet.validators, ∃ b, rs.getRoundState val.vAddr = some b := by
    intro val hval
    refine Option.isSome_iff_exists.mp (hall _ (isVAddrValidator_iff.mpr ?_))
    exact mem_map.mpr ⟨val, hval, rfl⟩
  generalize rs.validatorSet.validators = l at hval ⊢
  induction l with
  | nil => rfl
  | cons val l ih =>
    obtain ⟨b, hb⟩ := hval val (by simp)
    have hrest := ih fun val' h => hval val' (by simp [h])
    simp only [filterMap_cons, hb, map_cons, hrest]
    rw [hkeyed _ _ hb]

/-- The state of a validator is written with the conflicts it has with the locked or valid value,
the own state of a node that is not a validator as it is. -/
theorem lookup_writeState (hown : (rs.getRoundState rs.ownState.vAddr).isSome)
    (db : Db) (a : Bytes) :
    (writeState c rs db).roundStates.lookup a =
      if rs.validatorSet.isVAddrValidator a then
        (rs.getRoundState a).map (trackExternalConflicts c (conflictCheckerValue rs))
      else if a = rs.ownState.vAddr then rs.getRoundState a
      else db.roundStates.lookup a := by
  have hnodup : ((rs.validatorSet.validators.filterMap fun valObj =>
      rs.getRoundState valObj.vAddr).map (·.vAddr)).Nodup := by
    rw [map_vAddr_states hkeyed hall]
    exact rs.validatorSet.vAddr_nodup
  obtain ⟨own, hown⟩ := Option.isSome_iff_exists.mp hown
  have hown' : rs.ownRoundState = own := by rw [RoundStates.ownRoundState, hown, Option.getD_some]
  unfold writeState writeRoundStates
  split
  next hv =>
    obtain ⟨s, hs⟩ := Option.isSome_iff_exists.mp (hall a hv)
    obtain ⟨hmem, hvAddr⟩ := (mem_states hkeyed).mpr ⟨hv, hs⟩
    rw [(lookup_foldl_setCurrentRoundState (trackExternalConflicts_vAddr c _) hnodup).1 s hmem
      hvAddr, hs, Option.map_some]
  next hv =>
    have hnot : ∀ s ∈ rs.validatorSet.validators.filterMap fun valObj =>
        rs.getRoundState valObj.vAddr, s.vAddr ≠ a := fun s hs heq =>
      hv ((mem_states hkeyed).mp ⟨hs, heq⟩).1
    rw [(lookup_foldl_setCurrentRoundState (trackExternalConflicts_vAddr c _) hnodup).2 hnot]
    have hown_vAddr : own.vAddr = rs.ownState.vAddr := hkeyed _ _ hown
    simp only [Db.setCurrentRoundState, hown', hown_vAddr]
    split
    next ha => rw [ha, lookup_insert, hown]
    next ha =>
      rw [lookup_insert_ne ha]
      exact (lookup_foldl_setCurrentRoundState (f := id) (fun _ => rfl) hnodup).2 hnot

end Write

end Store

end MadNet
