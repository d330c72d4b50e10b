import MadNet.Monitor.Events

/-!
# Members of a validator set (`monevents/validators.go`)

The members are collected by the epoch of their logs. When a set is completed, the list of the log's
epoch is taken for its members if it has the length that the validator pool had when the node
processed the `RegistrationOpened` log.

The participants of the node's own DKG state are left out: the log of a member comes after the one
by which it registered. The check of the own GPKj is kept.
-/

namespace MadNet.Monitor

open List

/-- `objects.Validator`. -/
structure Member where
  account : Address
  index : Nat
  sharedKey : G2Big
  deriving DecidableEq

/-- The part of the monitor's state that the processors below use. -/
structure Roster where
  /-- `Validators`, where `none` is an entry that was not written. -/
  validators : Nat → List (Option Member)
  numberOfValidators : Nat

def Roster.empty : Roster where
  validators _ := []
  numberOfValidators := 0

/-- The set of a call of `AddValidatorSet`: addresses and group shares. -/
structure SetCall where
  groupKey : G2Big
  validators : List (Address × G2Big)
  notBefore : Nat
  deriving DecidableEq

/-- How a processor fails. -/
inductive Failure where
  | error (msg : String)
  | panic
  deriving DecidableEq

/-- What a processor receives from outside. -/
structure Answers where
  /-- The number of addresses that the validator pool has. -/
  poolCount : Nat
  /-- The own GPKj, if the log is about the own account and the GPKj is known. -/
  ownGPKj : Option G2Big

/-- `bn256.MarshalG2Big`; all coordinates fit into 32 bytes. -/
def marshalG2Big (p : G2Big) : G2Big := if p.1 = 0 then (0, 0, 0, 0) else p

/-- The log has no part in the reconstruction of a set. -/
def Log.silent : Log → Bool
  | .registrationOpened .. => false
  | .validatorMemberAdded .. => false
  | .validatorSetCompleted .. => false
  | _ => true

namespace Roster

variable (r : Roster)

def processRegistrationOpened (poolCount : Nat) : Roster :=
  { r with numberOfValidators := poolCount }

def makeRoom (validators : List (Option Member)) (participantIndex : Nat) : List (Option Member) :=
  if validators.length < participantIndex then
    validators ++ List.replicate (participantIndex - validators.length) none
  else validators

def processValidatorMemberAdded (account : Address) (index epoch : Nat) (share : G2Big)
    (ownGPKj : Option G2Big) : Except Failure Roster :=
  let epoch := epoch % 2 ^ 32
  let participantIndex := index % 2 ^ 32
  -- `participantIndex - 1` of a `uint32`
  let arrayIndex := (participantIndex + (2 ^ 32 - 1)) % 2 ^ 32
  if ∃ own ∈ ownGPKj, own ≠ share then .error (.error "my own GPKj doesn't match event!")
  else
    let validators := makeRoom (r.validators epoch) participantIndex
    if arrayIndex < validators.length then
      let v : Member := { account, index := participantIndex % 2 ^ 8, sharedKey := share }
      .ok { r with
        validators := Function.update r.validators epoch (validators.set arrayIndex (some v)) }
    else .error .panic

/-- One round of the loop of `checkValidatorSet` over the members. -/
def setMember (slots : List (Option (Address × G2Big))) :
    Option Member → Except Failure (List (Option (Address × G2Big)))
  -- The coordinates of an entry that was not written are nil.
  | none => .error (.error "invalid state")
  | some v =>
    -- `validator.Index-1` of a `uint8`
    let i := (v.index + (2 ^ 8 - 1)) % 2 ^ 8
    if i < slots.length then .ok (slots.set i (some (v.account, marshalG2Big v.sharedKey)))
    else .error .panic

/-- The addresses are read for the log. -/
def readSlot : Option (Address × G2Big) → Except Failure (Address × G2Big)
  | some v => .ok v
  | none => .error .panic

/-- `checkValidatorSet`: the call of `AddValidatorSet` that it makes, if any. -/
def checkValidatorSet (epoch validatorCount notBefore : Nat) (groupKey : G2Big) :
    Except Failure (Option SetCall) := do
  let validators := r.validators epoch
  let receivedCount := validators.length
  let expectedCount := r.numberOfValidators
  if receivedCount = expectedCount ∨ receivedCount = 0 then do
    let slots ← validators.foldlM setMember (List.replicate validatorCount none)
    let members ← slots.mapM readSlot
    return some { groupKey := marshalG2Big groupKey, validators := members, notBefore }
  else return none

def processValidatorSetCompleted (validatorCount epoch aliceNetHeight : Nat) (groupKey : G2Big) :
    Except Failure (Option SetCall) :=
  r.checkValidatorSet (epoch % 2 ^ 32) (validatorCount % 2 ^ 8) (aliceNetHeight % 2 ^ 32) groupKey

/-- The processors of the logs, with the calls of `AddValidatorSet` that they make. -/
def process (answers : Answers) : Log → Except Failure (Roster × Option SetCall)
  | .registrationOpened .. => .ok (r.processRegistrationOpened answers.poolCount, none)
  | .validatorMemberAdded account index _ epoch share =>
    (r.processValidatorMemberAdded account index epoch share answers.ownGPKj).map (·, none)
  | .validatorSetCompleted validatorCount _ epoch _ aliceNetHeight groupKey =>
    (r.processValidatorSetCompleted validatorCount epoch aliceNetHeight groupKey).map (r, ·)
  | _ => .ok (r, none)

variable {r}

theorem process_of_silent {answers : Answers} {log : Log} (h : log.silent = true) :
    r.process answers log = .ok (r, none) := by
  cases log <;> first | rfl | cases h

/-! ## Building a set -/

def entry : Option Member → Option (Address × G2Big)
  | some v => some (v.account, marshalG2Big v.sharedKey)
  | none => none

/-- Every position holds a member with its index. -/
def Full (validators : List (Option Member)) : Prop :=
  ∀ i < validators.length, ∃ v : Member, validators[i]? = some (some v) ∧ v.index = i + 1

variable {validators : List (Option Member)}

theorem foldlM_setMember {rest : List (Option Member)} (done : List (Option Member))
    (hfull : Full validators) (hlength : validators.length < 2 ^ 8)
    (hsplit : validators = done ++ rest) :
    rest.foldlM setMember (done.map entry ++ replicate rest.length none) =
      .ok (validators.map entry) := by
  induction rest generalizing done with
  | nil => simp [hsplit, pure, Except.pure]
  | cons x rest ih =>
    obtain ⟨v, hv, hindex⟩ := hfull done.length (by simp [hsplit])
    have hx : x = some v := by simpa [hsplit] using hv
    subst hx
    have hlt : done.length < 2 ^ 8 := by
      rw [hsplit, length_append] at hlength
      omega
    have hi : (v.index + (2 ^ 8 - 1)) % 2 ^ 8 = done.length := by omega
    have hstep : setMember (done.map entry ++ replicate (rest.length + 1) none) (some v) =
        .ok ((done ++ [some v]).map entry ++ replicate rest.length none) := by
      simp only [setMember, hi]
      rw [if_pos (by simp)]
      simp [replicate_succ, entry]
    rw [length_cons, foldlM_cons, hstep]
    exact ih (done ++ [some v]) (by simp [hsplit])

theorem mapM_readSlot (members : List (Address × G2Big)) :
    (members.map some).mapM readSlot = .ok members := by
  induction members with
  | nil => rfl
  | cons v members ih => simp [mapM_cons, readSlot, ih, bind, Except.bind, pure, Except.pure]

theorem Full.map_entry (hfull : Full validators) :
    validators.map entry = (validators.filterMap entry).map some := by
  have hsome : ∀ x ∈ validators, ∃ v, x = some v := by
    intro x hx
    obtain ⟨i, hi, hget⟩ := getElem_of_mem hx
    obtain ⟨v, hv, -⟩ := hfull i hi
    rw [getElem?_eq_getElem hi, hget] at hv
    exact ⟨v, Option.some_inj.mp hv⟩
  clear hfull
  induction validators with
  | nil => rfl
  | cons x validators ih =>
    obtain ⟨v, rfl⟩ := hsome x (by simp)
    have ih := ih fun y hy => hsome y (by simp [hy])
    simp [entry, ih]

/-- `AddValidatorSet` is called with the members of a list, at their positions. -/
def Adds (call : Except Failure (Option SetCall)) (validators : List (Option Member))
    (groupKey : G2Big) (notBefore : Nat) : Prop :=
  ∃ set, call = .ok (some set) ∧ set.groupKey = groupKey ∧ set.notBefore = notBefore ∧
    set.validators.length = validators.length ∧
    ∀ (i : Nat) (v : Member), validators[i]? = some (some v) →
      set.validators[i]? = some (v.account, marshalG2Big v.sharedKey)

theorem checkValidatorSet_full {epoch : Nat} (notBefore : Nat) (groupKey : G2Big)
    (hfull : Full (r.validators epoch)) (hlength : (r.validators epoch).length < 2 ^ 8)
    (hexpected : (r.validators epoch).length = r.numberOfValidators ∨
      (r.validators epoch).length = 0) :
    Adds (r.checkValidatorSet epoch (r.validators epoch).length notBefore groupKey)
      (r.validators epoch) (marshalG2Big groupKey) notBefore := by
  have hfold := foldlM_setMember [] hfull hlength (nil_append _).symm
  rw [map_nil, nil_append] at hfold
  refine ⟨.mk (marshalG2Big groupKey) ((r.validators epoch).filterMap entry) notBefore, ?_,
    rfl, rfl, ?_, ?_⟩
  · unfold checkValidatorSet
    rw [if_pos hexpected]
    refine Prog.bind_eq_ok.mpr ⟨_, hfold, Prog.bind_eq_ok.mpr ⟨_, ?_, rfl⟩⟩
    rw [hfull.map_entry, mapM_readSlot]
  · have := congrArg length hfull.map_entry
    rw [length_map, length_map] at this
    exact this.symm
  · intro i v hv
    have := congrArg (·[i]?) hfull.map_entry
    simp only [getElem?_map, hv, Option.map_some, entry] at this
    cases hget : ((r.validators epoch).filterMap entry)[i]? with
    | none =>
      rw [hget] at this
      cases this
    | some e =>
      rw [hget] at this
      exact congrArg some (Option.some_inj.mp (Option.some_inj.mp this)).symm

/-! ## Collecting members -/

theorem getElem?_makeRoom_of_some {n i : Nat} {v : Member}
    (h : validators[i]? = some (some v)) : (makeRoom validators n)[i]? = some (some v) := by
  unfold makeRoom
  split
  · rw [List.getElem?_append_left (List.getElem?_eq_some_iff.mp h).1, h]
  · exact h

theorem length_makeRoom (validators : List (Option Member)) (n : Nat) :
    (makeRoom validators n).length = max validators.length n := by
  unfold makeRoom
  split
  · rw [length_append, length_replicate]
    omega
  · omega

section Added

variable {account : Address} {index epoch : Nat} {share : G2Big} {ownGPKj : Option G2Big}
  {r' : Roster} (hindex : 1 ≤ index) (hindex' : index < 2 ^ 8)
  (h : r.processValidatorMemberAdded account index epoch share ownGPKj = .ok r')
include hindex hindex' h

/-- The lists after the log of a member with a proper index. -/
theorem processValidatorMemberAdded_ok :
    r' = { r with
      validators := Function.update r.validators (epoch % 2 ^ 32)
        ((makeRoom (r.validators (epoch % 2 ^ 32)) index).set (index - 1)
          (some { account, index, sharedKey := share })) } := by
  have h₁ : index % 2 ^ 32 = index := by omega
  have h₂ : (index + (2 ^ 32 - 1)) % 2 ^ 32 = index - 1 := by omega
  have h₃ : index % 2 ^ 8 = index := by omega
  unfold processValidatorMemberAdded at h
  split at h
  · cases h
  · simp only [h₁, h₂, h₃] at h
    rw [if_pos (by rw [length_makeRoom]; omega)] at h
    exact (Except.ok.inj h).symm

theorem getElem?_added : (r'.validators (epoch % 2 ^ 32))[index - 1]? =
    some (some { account, index, sharedKey := share }) := by
  rw [processValidatorMemberAdded_ok hindex hindex' h]
  simp only [Function.update_self]
  rw [getElem?_set_self (by rw [length_makeRoom]; omega)]

theorem getElem?_added_of_ne {i epoch' : Nat} {v : Member}
    (hv : (r.validators epoch')[i]? = some (some v)) (hi : i ≠ index - 1) :
    (r'.validators epoch')[i]? = some (some v) := by
  rw [processValidatorMemberAdded_ok hindex hindex' h]
  by_cases hepoch : epoch' = epoch % 2 ^ 32
  · subst hepoch
    simp only [Function.update_self]
    rw [getElem?_set_ne (Ne.symm hi)]
    exact getElem?_makeRoom_of_some hv
  · simp only [Function.update_of_ne hepoch]
    exact hv

theorem length_added : (r'.validators (epoch % 2 ^ 32)).length =
    max (r.validators (epoch % 2 ^ 32)).length index := by
  rw [processValidatorMemberAdded_ok hindex hindex' h]
  simp only [Function.update_self, length_set, length_makeRoom]

theorem numberOfValidators_added : r'.numberOfValidators = r.numberOfValidators := by
  rw [processValidatorMemberAdded_ok hindex hindex' h]

end Added

end Roster

end MadNet.Monitor
