import MadNet.Consensus.StoreStates
import MadNet.Engine.StepRefinement

/-!
# A node

What happens at one node is a sequence of events: a message is stored, or the engine takes a step.
Both run in a database transaction, which is rolled back when it fails.
-/

namespace MadNet

open Prog

/-- An event at one node. -/
inductive Event where
  | store (m : Msg)
  | step (env : Env)

def Db.own (db : Db) : RoundState := (db.roundStates.lookup db.ownState.vAddr).getD default

namespace Engine

variable (ce : Engine)

/-- Whether `UpdateLocalState` lets the engine take a step: at the end of an epoch it waits for the
snapshot, and a node that has seen a higher block is synchronised first. -/
def updatesLocalState (db : Db) : Except Err Bool := do
  let bHeight := db.ownState.syncToBH.bClaims.height
  let safe ←
    if bHeight % Constants.epochLength = 0 then db.getSafeToProceed (bHeight + 1) else pure true
  return safe && !decide (bHeight + 1 ≤ db.ownState.maxBHSeen.bClaims.height)

/-- The transaction in which `UpdateLocalState` runs `updateLocalStateInternal`. -/
def runStep (env : Env) (db : Db) : Except Err Db := do
  let updateLocalState ← updatesLocalState db
  let rs ← Store.loadLocalState db
  if updateLocalState then
    match updateLocalStateInternal ce env { db, rs } with
    | .error e _ => .error e
    | .ok _ s => .ok (Store.writeState ce.crypto s.rs s.db)
  else return db

/-- The database after an event. -/
def next (db : Db) : Event → Db
  | .store m =>
    match Handlers.store ce.crypto db m with
    | .error _ => db
    | .ok db' => db'
  | .step env =>
    match ce.runStep env db with
    | .error _ => db
    | .ok db' => db'

variable {ce} {env : Env} {db db' : Db} {s₀ s : Txn}

/-! ## What an outcome keeps -/

/-- A step changes the own round state only, and not who the node is. -/
structure Framed (s₀ s : Txn) : Prop where
  vAddr : s.rs.ownState.vAddr = s₀.rs.ownState.vAddr
  validatorSet : s.rs.validatorSet = s₀.rs.validatorSet
  hasOwn : s.HasOwn
  peers : ∀ a ≠ s₀.rs.ownState.vAddr, s.rs.getRoundState a = s₀.rs.getRoundState a

theorem Framed.setOwn (h : Framed s₀ s) (b : RoundState) : Framed s₀ (s.setOwn b) where
  vAddr := h.vAddr
  validatorSet := h.validatorSet
  hasOwn := Txn.hasOwn_setOwn
  peers a ha := by
    rw [Txn.getRoundState_setOwn (by rwa [h.vAddr]), h.peers a ha]

theorem framed_of_prep (h0 : s₀.HasOwn) (h : Prep ce s₀ s) : Framed s₀ s :=
  ⟨h.kept.ownState_vAddr, h.kept.validatorSet, h.kept.hasOwn h0, h.kept.peers⟩

theorem Framed.commit (h : Framed s₀ s) (bh : BlockHeader) : Framed s₀ (s.commit ce bh) := by
  have h' := h.setOwn (s.own.setReset (.rCert (bh.getRCert ce.crypto)))
  have hv : (s.commit ce bh).rs.ownState.vAddr = _ := Txn.vAddr_commit bh
  refine ⟨hv.trans h.vAddr, h.validatorSet, ?_, h'.peers⟩
  rw [Txn.HasOwn, hv]
  exact h'.hasOwn

theorem framed_of_outcome (h0 : s₀.HasOwn) (h : Outcome ce env s₀ s) : Framed s₀ s := by
  cases h with
  | idle hP => exact framed_of_prep h0 hP
  | @cast s b v own hP _ _ _ _ =>
    have hK := (framed_of_prep h0 hP).setOwn own
    cases v <;> exact ⟨hK.vAddr, hK.validatorSet, hK.hasOwn, hK.peers⟩
  | roundJump hP _ => exact (framed_of_prep h0 hP).setOwn _
  | @nextRoundRCert s rc hP _ =>
    have hK := (framed_of_prep h0 hP).setOwn (s.own.setReset (.rCert rc))
    exact ⟨hK.vAddr, hK.validatorSet, hK.hasOwn, hK.peers⟩
  | commit hP _ => exact (framed_of_prep h0 hP).commit _
  | @commitAndClear s bh hP _ =>
    have hK : Framed s₀ (s.commit ce bh) := (framed_of_prep h0 hP).commit bh
    exact ⟨hK.vAddr, hK.validatorSet, hK.hasOwn, hK.peers⟩

/-! ## Transactions -/

theorem ready_of_loaded {rcert : RCert} {rs : RoundStates} (h : Store.Loaded db rcert rs) :
    Txn.Ready { db, rs } where
  hasOwn := h.hown
  states a b hb := (h.peer a b hb).wellFormed
  validValue := h.validValue

/-- A step that returns: the states `rs` are loaded, the engine ends in `s`, and `db'` is written.
-/
structure Stepped (ce : Engine) (env : Env) (db db' : Db) (rs : RoundStates) (s : Txn) : Prop where
  loaded : Store.loadLocalState db = .ok rs
  outcome : Outcome ce env { db, rs } s
  written : db' = Store.writeState ce.crypto s.rs s.db

theorem runStep_ok (h : runStep ce env db = .ok db') :
    db' = db ∨ ∃ rs s, Stepped ce env db db' rs s := by
  obtain ⟨updates, rs, -, hload, h⟩ := bind₂_ok h
  cases updates with
  | false => exact .inl (Except.ok.inj h).symm
  | true =>
  right
  rw [if_pos rfl] at h
  obtain ⟨b, -, -, hloaded⟩ := Store.loadLocalState_ok hload
  have hout : wp (updateLocalStateInternal ce env) _ _ _ :=
    updateLocalStateInternal_outcome (ready_of_loaded hloaded)
  unfold wp at hout
  cases hrun : updateLocalStateInternal ce env { db, rs } with
  | error e s => simp [hrun] at h
  | ok ok s =>
    simp only [hrun] at hout h
    exact ⟨rs, s, hload, hout, (Except.ok.inj h).symm⟩

section Stepped

variable {rs : RoundStates} (h : Stepped ce env db db' rs s)

include h

theorem Stepped.load : ∃ b, db.roundStates.lookup db.ownState.vAddr = some b ∧
    Txn.own { db, rs } = b ∧ Store.Loaded db b.rCert rs := Store.loadLocalState_ok h.loaded

theorem Stepped.ready : Txn.Ready { db, rs } := by
  obtain ⟨_, -, -, hload⟩ := h.load
  exact ready_of_loaded hload

theorem Stepped.framed : Framed { db, rs } s := framed_of_outcome h.ready.hasOwn h.outcome

theorem Stepped.ownState₀ : rs.ownState = db.ownState := by
  obtain ⟨_, -, -, hload⟩ := h.load
  exact hload.ownState

theorem Stepped.own₀ : Txn.own { db, rs } = db.own := by
  obtain ⟨b, hb, hown, -⟩ := h.load
  rw [hown, Db.own, hb, Option.getD_some]

theorem Stepped.vAddr : db'.ownState.vAddr = db.ownState.vAddr := by
  rw [h.written, ← h.ownState₀]
  exact h.framed.vAddr

variable {P : Bytes → RoundState → Prop}

theorem Stepped.peers (hdb : Store.All P db.roundStates)
    (hfresh : ∀ b, db.roundStates.lookup b.vAddr = none → b.EmptyAt db.own.rCert.rClaims →
      b.rCert = db.own.rCert → P b.vAddr b) :
    ∀ a ≠ db.ownState.vAddr, ∀ b, s.rs.getRoundState a = some b → P a b := by
  intro a ha b hb
  obtain ⟨b0, hb0, -, hload⟩ := h.load
  rw [h.framed.peers a (by rwa [← h.ownState₀] at ha)] at hb
  refine hload.all hdb ?_ a b hb
  rwa [Db.own, hb0] at hfresh

variable (hkeyed : Store.Keyed db.roundStates)

include hkeyed

theorem Stepped.own_vAddr : s.own.vAddr = db.ownState.vAddr := by
  obtain ⟨b, hb, -, -⟩ := h.load
  have hown : db.own = b := by rw [Db.own, hb, Option.getD_some]
  rw [h.outcome.own_vAddr, h.own₀, hown]
  exact hkeyed _ _ hb

theorem Stepped.keyed_states : Store.Keyed s.rs.peerStateMap := by
  intro a b hb
  by_cases ha : a = db.ownState.vAddr
  · have hget := h.framed.hasOwn.getRoundState
    rw [h.framed.vAddr, h.ownState₀, ← ha] at hget
    obtain rfl := Option.some_inj.mp (hget.symm.trans hb)
    exact (h.own_vAddr hkeyed).trans ha.symm
  · exact h.peers (P := fun a b => b.vAddr = a) hkeyed (fun _ _ _ _ => rfl) a ha b hb

theorem Stepped.lookup (a : Bytes) : db'.roundStates.lookup a =
    if rs.validatorSet.isVAddrValidator a then
      (s.rs.getRoundState a).map
        (Store.trackExternalConflicts ce.crypto (Store.conflictCheckerValue s.rs))
    else if a = db.ownState.vAddr then s.rs.getRoundState a
    else s.db.roundStates.lookup a := by
  obtain ⟨b0, hb0, -, hload⟩ := h.load
  have hall (a) (ha : s.rs.validatorSet.isVAddrValidator a) : (s.rs.getRoundState a).isSome := by
    rw [h.framed.validatorSet] at ha
    by_cases hown : a = rs.ownState.vAddr
    · have := h.framed.hasOwn
      rwa [Txn.HasOwn, h.framed.vAddr, ← hown] at this
    · rw [h.framed.peers a hown]
      exact hload.hall a ha
  rw [h.written, Store.lookup_writeState _ (h.keyed_states hkeyed) hall h.framed.hasOwn,
    h.framed.validatorSet, h.framed.vAddr, h.ownState₀]

/-- The own state is written as the step left it, but for the marks of conflicts. -/
theorem Stepped.own : (∃ pvn pcn, db'.own = { s.own with implicitPVN := pvn, implicitPCN := pcn }) ∧
    (db'.roundStates.lookup db'.ownState.vAddr).isSome := by
  have hget := h.framed.hasOwn.getRoundState
  rw [h.framed.vAddr, h.ownState₀] at hget
  have hlookup := h.lookup hkeyed db.ownState.vAddr
  rw [hget] at hlookup
  rw [Db.own, h.vAddr, hlookup]
  split
  · obtain ⟨pvn, pcn, heq⟩ := Store.trackExternalConflicts_eq (c := ce.crypto)
      (Store.conflictCheckerValue s.rs) s.own
    exact ⟨⟨pvn, pcn, heq⟩, rfl⟩
  · rw [if_pos rfl]
    exact ⟨⟨_, _, rfl⟩, rfl⟩

/-- A property of the states of the other validators survives a step. -/
theorem Stepped.all (hdb : Store.All P db.roundStates)
    (hfresh : ∀ b, db.roundStates.lookup b.vAddr = none → b.EmptyAt db.own.rCert.rClaims →
      b.rCert = db.own.rCert → P b.vAddr b)
    (hflags : ∀ a b pvn pcn, P a b → P a { b with implicitPVN := pvn, implicitPCN := pcn })
    (hown : P db.ownState.vAddr s.own) : Store.All P db'.roundStates := by
  have hget := h.framed.hasOwn.getRoundState
  rw [h.framed.vAddr, h.ownState₀] at hget
  have hs (a b) (hb : s.rs.getRoundState a = some b) : P a b := by
    by_cases ha : a = db.ownState.vAddr
    · subst ha
      obtain rfl := Option.some_inj.mp (hget.symm.trans hb)
      exact hown
    · exact h.peers hdb hfresh a ha b hb
  intro a b hb
  rw [h.lookup hkeyed] at hb
  split at hb
  · obtain ⟨b', hb', rfl⟩ := Option.map_eq_some_iff.mp hb
    obtain ⟨pvn, pcn, heq⟩ := Store.trackExternalConflicts_eq (c := ce.crypto)
      (Store.conflictCheckerValue s.rs) b'
    rw [heq]
    exact hflags a b' pvn pcn (hs a b' hb')
  · split at hb
    · exact hs a b hb
    · rw [h.outcome.roundStates] at hb
      exact hdb a b hb

end Stepped

end Engine

end MadNet
