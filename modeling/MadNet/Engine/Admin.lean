import MadNet.Engine.NodeInvariant

/-!
# Validator sets from the contract (`admin/handlers.go`)

The first validator set starts the chain: it makes the first block, which nobody signs, and a round
state without votes for each validator. A set that comes later outside of an epoch boundary starts
the round states again once the block before it is there.
-/

namespace MadNet

open List Prog

/-- The administrative handlers of a node. -/
structure Admin where
  chainID : UInt32
  ethAcct : Bytes
  hasher : Bytes → Bytes
  /-- `Application.ApplyState` of the first block, which has no transactions. -/
  applyState : Except ExtErr Bytes

namespace Admin

variable (ah : Admin) (c : Crypto)

/-- `GetCurrentRoundState`, where a missing state is no error. -/
def findRoundState (db : Db) (a : Bytes) : Except Err (Option RoundState) :=
  match db.getCurrentRoundState a with
  | .ok rs => .ok (some rs)
  | .error .keyNotFound => .ok none
  | .error e => .error e

/-- The loop body of `initValidatorsRoundState`. -/
def initValidatorRoundState (v : ValidatorSet) (rcert : RCert) (db : Db) (val : Validator × Nat) :
    Except Err Db := do
  let rs ← findRoundState db val.1.vAddr
  let rcertTemp := ((rs.map (·.rCert)).filter fun rc => rcert.height < rc.height).getD rcert
  let rs : RoundState :=
    { vAddr := val.1.vAddr, groupKey := v.groupKey, groupShare := val.1.groupShare,
      groupIdx := UInt8.ofNat val.2, rCert := rcertTemp }
  return { db with roundStates := Db.setCurrentRoundState db.roundStates rs }

def initOwnRoundState (v : ValidatorSet) (rcert : RCert) (db : Db) : Except Err Db := do
  let fresh : RoundState :=
    { vAddr := ah.ethAcct, groupKey := v.groupKey, groupShare := List.replicate 128 0,
      groupIdx := 0, rCert := rcert }
  let rs := match ← findRoundState db ah.ethAcct with
    | none => fresh
    | some rs => if rs.groupKey ≠ v.groupKey ∧ rcert.height ≤ v.notBefore then fresh else rs
  return { db with roundStates := Db.setCurrentRoundState db.roundStates rs }

/-- `initValidatorsRoundState`, and `initOwnRoundState` on a node that is not a validator. -/
def initRoundStates (v : ValidatorSet) (rcert : RCert) (db : Db) : Except Err Db := do
  let db ← v.validators.zipIdx.foldlM (initValidatorRoundState v rcert) db
  if v.isVAddrValidator ah.ethAcct then return db
  else ah.initOwnRoundState v rcert db

def addValidatorSetEdgecase (v : ValidatorSet) (db : Db) : Except Err Db := do
  match db.committedBlockHeaders (v.notBefore - 1) with
  | none =>
    return { db with validatorSetsPostApplication :=
               Function.update db.validatorSetsPostApplication v.notBefore (some v) }
  | some bh =>
    let bh ← decode bh.unmarshalCapn bh
    let db ← ah.initRoundStates v (bh.getRCert c) db
    return { db with validatorSets := v :: db.validatorSets }

/-- `initDB`, on an empty database. -/
def initDB (v : ValidatorSet) : Except Err (BlockHeader × Db) := do
  let stateRoot ← Crypto.ext ah.applyState
  let txRoot ← Crypto.ext (c.makeTxRoot [])
  let prevBlock ← Crypto.ext (c.makeTxRoot (v.validators.map fun val => ah.hasher val.vAddr))
  let bh : BlockHeader :=
    { bClaims := { chainID := ah.chainID, height := 1, txCount := 0, prevBlock, txRoot, stateRoot,
                   headerRoot := Engine.zeroHash }
      sigGroup := List.replicate 192 0
      txHshLst := [] }
  let db : Db :=
    { ownState := { vAddr := ah.ethAcct, groupKey := [], syncToBH := bh, maxBHSeen := bh,
                    canonicalSnapShot := bh, pendingSnapShot := bh }
      ownValidatingState := {}
      roundStates := ∅
      validatorSets := []
      validatorSetsPostApplication := fun _ => none
      committedBlockHeaders := fun _ => none
      headerTrieRoots := fun _ => none
      snapshotBlockHeaders := fun _ => none
      safeToProceed := fun _ => false
      broadcasts := [] }
  return (bh, db.addCommitted c bh)

/-- `AddValidatorSet` of the first set, whose `NotBefore` is zero, on an empty database. -/
def addFirstValidatorSet (v : ValidatorSet) : Except Err Db := do
  let (bh, db) ← ah.initDB c v
  let db ← ah.initRoundStates v (bh.getRCert c) db
  return { db with validatorSets := [{ v with notBefore := 1 }]
                   safeToProceed := Function.update db.safeToProceed 1 true }

/-! ## The first state of a node -/

variable {ah c} {v : ValidatorSet} {rcert : RCert} {db db' : Db}

def AllEmpty (rcert : RCert) (m : AList fun _ : Bytes => RoundState) : Prop :=
  Store.All (fun a b => b.vAddr = a ∧ b = b.emptied rcert none none) m

variable {m : AList fun _ : Bytes => RoundState}

theorem allEmpty_insert (h : AllEmpty rcert m) {b : RoundState}
    (hb : b = b.emptied rcert none none) :
    AllEmpty rcert (Db.setCurrentRoundState m b) := by
  intro a b' hb'
  unfold Db.setCurrentRoundState at hb'
  by_cases ha : a = b.vAddr
  · subst ha
    rw [AList.lookup_insert] at hb'
    cases hb'
    exact ⟨rfl, hb⟩
  · rw [AList.lookup_insert_ne ha] at hb'
    exact h a b' hb'

theorem findRoundState_ok {a : Bytes} {rs : Option RoundState}
    (h : findRoundState db a = .ok rs) : db.roundStates.lookup a = rs := by
  unfold findRoundState at h
  cases hget : db.getCurrentRoundState a with
  | ok rs' =>
    rw [hget] at h
    cases h
    exact (Db.getCurrentRoundState_ok.mp hget).1
  | error e =>
    rw [hget] at h
    cases e with
    | keyNotFound =>
      cases h
      exact Db.getCurrentRoundState_keyNotFound hget
    | _ => cases h

theorem isSome_insert {b : RoundState} {a : Bytes}
    (h : a = b.vAddr ∨ (m.lookup a).isSome) : ((Db.setCurrentRoundState m b).lookup a).isSome := by
  unfold Db.setCurrentRoundState
  by_cases ha : a = b.vAddr
  · rw [ha, AList.lookup_insert]
    rfl
  · rw [AList.lookup_insert_ne ha]
    exact h.resolve_left ha

/-- `db'` is `db` with empty round states at `rcert`, among them those of the accounts `l`. -/
structure Started (rcert : RCert) (l : List Bytes) (db db' : Db) : Prop where
  rest : db' = { db with roundStates := db'.roundStates }
  empty : AllEmpty rcert db'.roundStates
  known : ∀ a ∈ l, (db'.roundStates.lookup a).isSome

theorem initValidatorRoundState_ok {db0 : Db} {l : List Bytes} {val : Validator × Nat}
    (h : initValidatorRoundState v rcert db val = .ok db') (hdb : Started rcert l db0 db) :
    Started rcert (val.1.vAddr :: l) db0 db' := by
  obtain ⟨rs, hrs, h⟩ := bind_ok h
  cases h
  have hrc : ((rs.map (·.rCert)).filter fun rc => rcert.height < rc.height).getD rcert = rcert := by
    cases rs with
    | none => rfl
    | some b =>
      have hb := (hdb.empty _ b (findRoundState_ok hrs)).2
      have : b.rCert = rcert := by rw [hb]; rfl
      simp [Option.filter, this]
  refine ⟨?_, ?_, fun a ha => isSome_insert ?_⟩
  · rw [hdb.rest]
  · rw [hrc]
    exact allEmpty_insert hdb.empty rfl
  · exact (mem_cons.mp ha).imp id (hdb.known a)

theorem initValidatorsRoundState_ok {db0 : Db} {l : List Bytes} (vals : List (Validator × Nat))
    (h : vals.foldlM (initValidatorRoundState v rcert) db = .ok db')
    (hdb : Started rcert l db0 db) :
    ∃ l', (∀ val ∈ vals, val.1.vAddr ∈ l') ∧ l ⊆ l' ∧ Started rcert l' db0 db' := by
  induction vals generalizing db l with
  | nil =>
    cases h
    exact ⟨l, by simp, List.Subset.refl _, hdb⟩
  | cons val vals ih =>
    rw [foldlM_cons] at h
    obtain ⟨db1, h1, h⟩ := bind_ok h
    obtain ⟨l', hvals, hsub, hl'⟩ := ih h (initValidatorRoundState_ok h1 hdb)
    refine ⟨l', ?_, fun a ha => hsub (mem_cons_of_mem _ ha), hl'⟩
    intro val' hval'
    rcases mem_cons.mp hval' with rfl | hval'
    · exact hsub mem_cons_self
    · exact hvals val' hval'

theorem initRoundStates_ok (h : ah.initRoundStates v rcert db = .ok db')
    (hdb : AllEmpty rcert db.roundStates) : Started rcert [ah.ethAcct] db db' := by
  obtain ⟨db1, h1, h⟩ := bind_ok h
  obtain ⟨l, hl, -, hdb1⟩ := initValidatorsRoundState_ok (l := []) _ h1 ⟨rfl, hdb, by simp⟩
  split at h
  next hval =>
    cases h
    refine ⟨hdb1.rest, hdb1.empty, fun a ha => hdb1.known a ?_⟩
    obtain rfl := mem_singleton.mp ha
    obtain ⟨val, hval, haddr⟩ := mem_map.mp (Store.isVAddrValidator_iff.mp hval)
    rw [← zipIdx_map_fst 0 v.validators] at hval
    obtain ⟨val', hval', rfl⟩ := mem_map.mp hval
    exact haddr ▸ hl val' hval'
  next =>
    obtain ⟨rs, hrs, h⟩ := bind_ok h
    cases h
    have hlookup := findRoundState_ok hrs
    cases rs with
    | none =>
      refine ⟨by rw [hdb1.rest], allEmpty_insert hdb1.empty rfl, fun a ha => isSome_insert ?_⟩
      exact .inl (mem_singleton.mp ha)
    | some b =>
      obtain ⟨haddr, hb⟩ := hdb1.empty _ b hlookup
      refine ⟨by rw [hdb1.rest], allEmpty_insert hdb1.empty ?_, fun a ha => isSome_insert (.inl ?_)⟩
      · dsimp only
        split
        · rfl
        · exact hb
      · obtain rfl := mem_singleton.mp ha
        dsimp only
        split
        · rfl
        · exact haddr.symm

/-- The first validator set leaves a node that has not voted yet. -/
theorem fresh_of_addFirstValidatorSet (h : ah.addFirstValidatorSet c v = .ok db) : db.Fresh := by
  obtain ⟨⟨bh, db0⟩, db1, hinit, hdb1, h⟩ := bind₂_ok h
  cases h
  obtain ⟨stateRoot, txRoot, -, -, hinit⟩ := bind₂_ok hinit
  obtain ⟨prevBlock, -, hinit⟩ := bind_ok hinit
  cases hinit
  have hst := initRoundStates_ok hdb1 fun a b hb => by
    rw [show (Db.addCommitted _ _ _).roundStates = ∅ from rfl, AList.lookup_empty] at hb
    cases hb
  obtain ⟨b, hb⟩ := Option.isSome_iff_exists.mp (hst.known _ (mem_singleton.mpr rfl))
  have hown : db1.ownState.vAddr = ah.ethAcct := by
    rw [hst.rest]
    rfl
  refine ⟨fun a b hb => (hst.empty a b hb).1, ?_, fun a b hb => ?_, ?_, ?_, ?_⟩
  · rw [hown, hb]
    rfl
  · have := (hst.empty a b hb).2
    rw [this]
    rfl
  · have hrc : b.rCert = _ := congrArg RoundState.rCert (hst.empty _ b hb).2
    rw [Db.own, hown, hb, Option.getD_some, hrc, hst.rest]
    rfl
  · rw [hst.rest]
    rfl
  · rw [hst.rest]
    rfl

end Admin

/-! ## Concrete runs

The nodes of four validators on chain 1, with the ideal scheme: a signature is the name of its
signer, and a group signature is the group key. -/

/-- The message was accepted by `PreValidate` in this state. -/
def Event.Accepted (c : Crypto) (db : Db) : Event → Prop
  | .store (.vote m) => Handlers.preValidate c db m.toVote = .ok m
  | .store (.blockHeader bh) => Handlers.preValidateBlockHeader c db bh = .ok ()
  | .step _ => True

instance (c : Crypto) (db : Db) : ∀ e, Decidable (Event.Accepted c db e)
  | .store (.vote m) => inferInstanceAs (Decidable (Handlers.preValidate c db m.toVote = .ok m))
  | .store (.blockHeader bh) =>
    inferInstanceAs (Decidable (Handlers.preValidateBlockHeader c db bh = .ok ()))
  | .step _ => inferInstanceAs (Decidable True)

namespace Four

def admin (a : UInt8) : Admin :=
  { chainID := 1, ethAcct := [a], hasher := id, applyState := .ok [] }

/-- The node of the account `a` after the first validator set. -/
def genesis (a : UInt8) : Db :=
  (((admin a).addFirstValidatorSet .ideal .four).toOption).getD default

theorem fresh_genesis {a : UInt8}
    (h : (((admin a).addFirstValidatorSet .ideal .four).toOption).isSome) : (genesis a).Fresh := by
  unfold genesis
  cases hdb : (admin a).addFirstValidatorSet .ideal .four with
  | error e =>
    rw [hdb] at h
    cases h
  | ok db => exact Admin.fresh_of_addFirstValidatorSet hdb

def engine (a : UInt8) : Engine :=
  { crypto := .ideal, secpSign := fun _ => .ok [a], bnSign := fun _ => .ok [a + 10] }

/-- Everything is available and valid, and no timeout has expired. -/
def env : Env :=
  { aggregate := fun _ _ => .ok [20]
    getTxs := fun _ _ _ => .ok ([], [])
    addTxs := fun _ _ => .ok ()
    isValid := fun _ _ _ _ => .ok true
    applyState := fun _ _ _ => .ok ()
    getValidProposal := fun _ _ => .ok ([], none)
    txHash := .ok
    ptoExpired := false
    pvtoExpired := false
    pctoExpired := false
    dbrnrExpired := false }

/-- `env` after the time to wait for a proposal. -/
def envPto : Env := { env with ptoExpired := true }

/-- `env` after the time to wait for precommits. -/
def envPcto : Env := { env with pctoExpired := true }

/-- The certificate of a round of the height after the first block. -/
def rCert (round : UInt32) : RCert :=
  { rClaims := { (genesis 1).own.rCert.rClaims with round }, sigGroup := [20] }

/-- A block on top of the first one. -/
def block (stateRoot : Bytes) : BClaims :=
  { chainID := 1, height := 2, txCount := 0, prevBlock := (rCert 1).prevBlock,
    txRoot := [], stateRoot,
    headerRoot := ((genesis 1).headerTrieRoots 1).getD [] }

def proposal (stateRoot : Bytes) (round : UInt32) : Proposal :=
  { pClaims := { bClaims := block stateRoot, rCert := rCert round }
    signature := (ValidatorSet.four.proposer? 2 round).getD []
    txHshLst := [] }

def preVote (stateRoot : Bytes) (round : UInt32) (a : UInt8) : PreVote :=
  { proposal := proposal stateRoot round, signature := [a] }

def preCommit (stateRoot : Bytes) (round : UInt32) (a : UInt8) (preVotes : List Bytes) :
    PreCommit :=
  { proposal := proposal stateRoot round, signature := [a], preVotes }

def arrives (v : Vote) : Event :=
  .store (.vote (((v.validateSignatures .ideal).toOption).getD (.proposal { obj := default })))

end Four

end MadNet
