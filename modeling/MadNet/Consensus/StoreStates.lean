import MadNet.Consensus.DeliveryOrder
import MadNet.Consensus.Handlers

/-!
# What storing a message does to the database

Storing a vote changes the round states only, and a property of round states holds after it if it
survives the votes the message carries and the marks of conflicts.
-/

namespace MadNet

open Prog

namespace RoundStates

variable {α β : Type}

/-- `r'` is `r` with other round states of the same accounts. -/
structure Same (r r' : RoundStates) : Prop where
  rest : r' = { r with peerStateMap := r'.peerStateMap }
  unknown : ∀ a, r.getRoundState a = none → r'.getRoundState a = none

theorem Same.refl (r : RoundStates) : r.Same r := ⟨rfl, fun _ h => h⟩

theorem Same.trans {r r' r'' : RoundStates} (h : r.Same r') (h' : r'.Same r'') : r.Same r'' := by
  refine ⟨?_, fun a ha => h'.unknown a (h.unknown a ha)⟩
  rw [h'.rest, h.rest]

/-- `x` changes round states only. -/
def OnlyStates (x : EStateM Err RoundStates α) : Prop :=
  ∀ r, wp x (fun _ => r.Same) (fun _ => r.Same) r

variable {x : EStateM Err RoundStates α}

theorem OnlyStates.bind {f : α → EStateM Err RoundStates β}
    (hx : OnlyStates x) (hf : ∀ a, OnlyStates (f a)) : OnlyStates (x >>= f) := by
  intro r
  rw [wp_bind]
  refine wp_mono (hx r) (fun a r' h => ?_) fun _ _ h => h
  exact wp_mono (hf a r') (fun _ _ h' => h.trans h') fun _ _ h' => h.trans h'

theorem OnlyStates.attempt (hx : OnlyStates x) : OnlyStates (attempt x) :=
  fun r => (wp_attempt x).mpr (hx r)

theorem onlyStates_pure (a : α) : OnlyStates (pure a) := Same.refl

theorem onlyStates_throw (e : Err) : OnlyStates (throw e : EStateM Err RoundStates α) := Same.refl

theorem onlyStates_onRoundState (a : Bytes) (t : String) (x : EStateM Err RoundState α) :
    OnlyStates (onRoundState a t x) := by
  intro r
  cases hb : r.getRoundState a with
  | none =>
    simp only [wp, onRoundState, hb]
    exact .refl r
  | some b =>
    have hset (b' : RoundState) : r.Same (r.setRoundState a b') := by
      refine ⟨rfl, fun a' ha' => ?_⟩
      rw [getRoundState_setRoundState_ne r (by rintro rfl; simp [hb] at ha'), ha']
    rw [RoundStates.wp_onRoundState r hb]
    unfold wp
    cases x b <;> exact hset _

theorem onlyStates_ignoreStale {x : EStateM Err RoundStates Unit} (hx : OnlyStates x) :
    OnlyStates (ignoreStale x) := by
  refine hx.attempt.bind fun res => ?_
  cases res with
  | ok => exact onlyStates_pure _
  | error e =>
    dsimp only
    split
    · exact onlyStates_pure _
    · exact onlyStates_throw _

theorem onlyStates_setImplPreVotes (c : Crypto) (voter : Bytes) (pvl : List (Validated PreVote)) :
    OnlyStates (setImplPreVotes c voter pvl) := by
  induction pvl with
  | nil => exact onlyStates_pure _
  | cons pv pvl ih =>
    refine OnlyStates.bind (fun r => .refl r) fun r => ?_
    split
    · exact onlyStates_throw _
    refine (onlyStates_onRoundState _ _ _).attempt.bind fun res => ?_
    cases res with
    | ok => exact ih
    | error e =>
      dsimp only
      split
      · exact ih
      · exact (onlyStates_onRoundState _ _ _).bind fun _ => onlyStates_pure _

theorem onlyStates_apply (c : Crypto) (m : VoteMsg) : OnlyStates (m.apply c) := by
  have hset (a t) {x : EStateM Err RoundState Bool} : OnlyStates (do let _ ← onRoundState a t x) :=
    (onlyStates_onRoundState a t x).bind fun _ => onlyStates_pure _
  have hprop (p : Validated Proposal) : OnlyStates (setProposal c p) := hset _ _
  cases m with
  | proposal v => exact hprop v
  | preVote v =>
    unfold VoteMsg.apply setPreVote
    exact (onlyStates_ignoreStale (hprop _)).bind fun _ => hset _ _
  | preVoteNil v =>
    unfold VoteMsg.apply setPreVoteNil
    exact hset _ _
  | preCommit v =>
    unfold VoteMsg.apply setPreCommit
    refine (onlyStates_ignoreStale (hprop _)).bind fun _ => ?_
    refine (onlyStates_setImplPreVotes c _ _).bind fun ok => ?_
    cases ok with
    | true => exact hset _ _
    | false => exact onlyStates_pure _
  | preCommitNil v =>
    unfold VoteMsg.apply setPreCommitNil
    exact hset _ _
  | nextRound v =>
    unfold VoteMsg.apply setNextRound
    exact hset _ _
  | nextHeight v =>
    unfold VoteMsg.apply setNextHeight
    exact (OnlyStates.attempt (hprop _)).bind fun _ => hset _ _

end RoundStates

/-- The votes that storing a message writes, with their validators. -/
def Msg.carried : Msg → List (Bytes × Vote)
  | .vote v => v.carried
  | .blockHeader _ => []

namespace Store

variable {c : Crypto} {db db' : Db} {P : Bytes → RoundState → Prop}

/-- Marking conflicts changes the two flags only. -/
theorem trackExternalConflicts_eq (value : Option Proposal) (b : RoundState) :
    ∃ pvn pcn, trackExternalConflicts c value b =
      { b with implicitPVN := pvn, implicitPCN := pcn } := by
  cases value with
  | none => exact ⟨_, _, rfl⟩
  | some v =>
    simp only [trackExternalConflicts, after, RoundState.trackExternalConflicts_apply]
    split
    · exact ⟨true, true, rfl⟩
    · exact ⟨_, _, rfl⟩

/-- Every stored state has the property `P` of its account. -/
def All (P : Bytes → RoundState → Prop) (m : AList fun _ : Bytes => RoundState) : Prop :=
  ∀ a b, m.lookup a = some b → P a b

section Write

variable {rs : RoundStates} (hkeyed : Keyed rs.peerStateMap)
  (hall : ∀ a, rs.validatorSet.isVAddrValidator a → (rs.getRoundState a).isSome)
  (hown : (rs.getRoundState rs.ownState.vAddr).isSome)

include hkeyed hall hown

theorem All.writeState
    (hflags : ∀ a b pvn pcn, P a b → P a { b with implicitPVN := pvn, implicitPCN := pcn })
    (hrs : All P rs.peerStateMap) (hdb : All P db.roundStates) :
    All P (Store.writeState c rs db).roundStates := by
  intro a b hb
  rw [lookup_writeState c hkeyed hall hown] at hb
  split at hb
  · obtain ⟨b', hb', rfl⟩ := Option.map_eq_some_iff.mp hb
    obtain ⟨pvn, pcn, heq⟩ := trackExternalConflicts_eq (c := c) (conflictCheckerValue rs) b'
    rw [heq]
    exact hflags a b' pvn pcn (hrs a b' hb')
  · split at hb
    · exact hrs a b hb
    · exact hdb a b hb

/-- The states that were loaded, and those in the database, are there after writing. -/
theorem isSome_writeState {a : Bytes} (h : (db.roundStates.lookup a).isSome) :
    ((Store.writeState c rs db).roundStates.lookup a).isSome := by
  rw [lookup_writeState c hkeyed hall hown]
  split
  next hv => simpa using hall a hv
  next =>
    split
    next ha => exact ha ▸ hown
    next => exact h

end Write

/-- What survives the votes that `m` carries and the marks of conflicts, and holds of the states
that are made for unknown validators. -/
structure Closed (c : Crypto) (db : Db) (m : Msg) (P : Bytes → RoundState → Prop) : Prop where
  fresh : ∀ b, db.roundStates.lookup b.vAddr = none → b.EmptyAt (m.rCert c).rClaims →
    b.rCert = m.rCert c → P b.vAddr b
  set : ∀ a v, (a, v) ∈ m.carried → ∀ b, P a b → P a (after (RoundState.set c v) b)
  flags : ∀ a b pvn pcn, P a b → P a { b with implicitPVN := pvn, implicitPCN := pcn }

theorem closed_vAddr (m : Msg) : Closed c db m fun a b => b.vAddr = a where
  fresh _ _ _ _ := rfl
  set _ v _ b h := (RoundState.after_set_vAddr c v b).trans h
  flags _ _ _ _ h := h

variable {rcert : RCert} {rs : RoundStates}

/-- Loaded states have a property that the stored states and those made for unknown validators have.
-/
theorem Loaded.all (h : Loaded db rcert rs) (hdb : All P db.roundStates)
    (hfresh : ∀ b, db.roundStates.lookup b.vAddr = none → b.EmptyAt rcert.rClaims →
      b.rCert = rcert → P b.vAddr b) :
    All P rs.peerStateMap := by
  intro a b hb
  cases h.peer a b hb with
  | stored hl _ => exact hdb a b hl
  | fresh hnone hvAddr hempty hrc _ =>
    subst hvAddr
    exact hfresh b hnone hempty hrc

theorem Loaded.keyed (h : Loaded db rcert rs) (hdb : Keyed db.roundStates) :
    Keyed rs.peerStateMap :=
  h.all (P := fun a b => b.vAddr = a) hdb fun _ _ _ _ => rfl

theorem Loaded.hall (h : Loaded db rcert rs) (a : Bytes)
    (ha : rs.validatorSet.isVAddrValidator a) : (rs.getRoundState a).isSome :=
  (h.known a).mpr (.inr ha)

theorem Loaded.hown (h : Loaded db rcert rs) : (rs.getRoundState rs.ownState.vAddr).isSome :=
  (h.known _).mpr (.inl (by rw [h.ownState]))

end Store

namespace Handlers

variable {c : Crypto} {db db' : Db} {P : Bytes → RoundState → Prop}

/-- A database before and after a message has been stored. -/
structure Stored (c : Crypto) (db : Db) (m : Msg) (db' : Db) : Prop where
  ownState : db'.ownState = db.ownState ∨ ∃ bh, m = .blockHeader bh ∧
    db'.ownState = { db.ownState with maxBHSeen := bh } ∧
    db.ownState.maxBHSeen.bClaims.height < bh.bClaims.height
  rest : db' = { db with ownState := db'.ownState, roundStates := db'.roundStates }
  known : ∀ a, (db.roundStates.lookup a).isSome → (db'.roundStates.lookup a).isSome
  all : ∀ P, Store.Closed c db m P → Store.All P db.roundStates → Store.All P db'.roundStates

theorem store_vote {m : VoteMsg} (h : store c db (.vote m) = .ok db')
    (hkeyed : Store.Keyed db.roundStates) : Stored c db (.vote m) db' := by
  obtain ⟨rs, hload, h⟩ := bind_ok h
  have hload := Store.loadState_ok hload
  cases happly : m.apply c rs with
  | error e rs' => simp [happly] at h
  | ok u rs' =>
    have hsame : rs.Same rs' := by simpa [wp, happly] using RoundStates.onlyStates_apply c m rs
    have hdeliver : m.deliver c rs = rs' := by simp [VoteMsg.deliver, after, happly]
    obtain rfl : Store.writeState c rs' db = db' := by simpa [happly, pure, Except.pure] using h
    -- a state after the message comes from one before it
    have hall (P) (hP : Store.Closed c db (.vote m) P) (hrs : Store.All P rs.peerStateMap) :
        Store.All P rs'.peerStateMap := by
      intro a b hb
      cases ha : rs.getRoundState a with
      | none =>
        rw [show rs'.peerStateMap.lookup a = none from hsame.unknown a ha] at hb
        cases hb
      | some b₀ =>
        obtain ⟨b', hb', hPb'⟩ := RoundStates.Has.deliver (c := c) (m := m) (P := P a)
          (fun v hv b => hP.set a v hv b) (fun b => hP.flags a b _ true) ⟨b₀, ha, hrs a b₀ ha⟩
        rw [hdeliver] at hb'
        obtain rfl := Option.some_inj.mp (hb'.symm.trans hb)
        exact hPb'
    have hknown (a) (ha : (rs.getRoundState a).isSome) : (rs'.getRoundState a).isSome := by
      obtain ⟨b₀, hb₀⟩ := Option.isSome_iff_exists.mp ha
      obtain ⟨b', hb', -⟩ := RoundStates.Has.deliver (c := c) (m := m) (P := fun _ => True)
        (fun _ _ _ _ => trivial) (fun _ _ => trivial) ⟨b₀, hb₀, trivial⟩
      rw [← hdeliver, hb', Option.isSome_some]
    have hkeyed' : Store.Keyed rs'.peerStateMap :=
      hall _ (Store.closed_vAddr _) (hload.keyed hkeyed)
    have hown : rs'.ownState = rs.ownState := by rw [hsame.rest]
    have hvs : rs'.validatorSet = rs.validatorSet := by rw [hsame.rest]
    have hall' (a) (ha : rs'.validatorSet.isVAddrValidator a) := hknown a (hload.hall a (hvs ▸ ha))
    have hown' := hknown rs'.ownState.vAddr (hown ▸ hload.hown)
    refine ⟨.inl ?_, ?_, fun a => Store.isSome_writeState hkeyed' hall' hown', fun P hP hdb => ?_⟩
    · exact hown.trans hload.ownState
    · have hovs : rs'.ownValidatingState = rs.ownValidatingState := by rw [hsame.rest]
      simp only [Store.writeState, hovs, hload.ownValidatingState]
    · exact Store.All.writeState hkeyed' hall' hown' hP.flags (hall P hP (hload.all hdb hP.fresh))
        hdb

theorem store_blockHeader {bh : BlockHeader} (h : store c db (.blockHeader bh) = .ok db')
    (hkeyed : Store.Keyed db.roundStates) : Stored c db (.blockHeader bh) db' := by
  obtain ⟨rs, hload, h⟩ := bind_ok h
  have hload := Store.loadState_ok hload
  dsimp only at h
  split at h
  · cases h
  next hmax =>
    split at h
    · cases h
    cases h
    have hkeyed' := hload.keyed hkeyed
    have hown' : (rs.getRoundState { rs.ownState with maxBHSeen := bh }.vAddr).isSome := hload.hown
    refine ⟨.inr ⟨bh, rfl, ?_, ?_⟩, ?_, fun a => Store.isSome_writeState hkeyed' hload.hall hown',
      fun P hP hdb => ?_⟩
    · rw [← hload.ownState]
      rfl
    · rw [← hload.ownState]
      exact UInt32.not_le.mp hmax
    · simp only [Store.writeState, hload.ownValidatingState]
    · exact Store.All.writeState hkeyed' hload.hall hown' hP.flags (hload.all hdb hP.fresh) hdb

theorem store_ok {m : Msg} (h : store c db m = .ok db') (hkeyed : Store.Keyed db.roundStates) :
    Stored c db m db' := by
  cases m with
  | vote m => exact store_vote h hkeyed
  | blockHeader bh => exact store_blockHeader h hkeyed

end Handlers

end MadNet
