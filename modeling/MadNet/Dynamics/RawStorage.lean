import Mathlib

/-!
# Dynamic parameters (`dynamics/rawstorage.go`, `dynamics/update.go`)

The parameters that governance may change, and the updates that change one of them. The value of an
update is a string; which numbers are accepted depends on the field. Copies go through JSON, which
loses nothing here, so that copies are not mentioned.
-/

namespace MadNet.Dynamics

/-- The errors of the package. The three of `strconv` and `big.Int` for a bad string are one here.
-/
inductive Err where
  /-- "invalid epoch: no zero epoch". -/
  | zeroEpoch
  /-- `badger.ErrKeyNotFound`. -/
  | keyNotPresent
  /-- "invalid update value for storage". -/
  | invalidUpdateValue
  /-- "invalid value". -/
  | invalid
  /-- "invalid Node". -/
  | invalidNode
  /-- The string is not a number in the range of the field. -/
  | badNumber
  /-- A loop over the nodes has not come to an end. -/
  | unfinished
  deriving DecidableEq

/-- The field that an update changes. -/
inductive UpdateType where
  | maxBytes
  | proposalStepTimeout
  | preVoteStepTimeout
  | preCommitStepTimeout
  | msgTimeout
  | minTxFee
  | txValidVersion
  | valueStoreFee
  | valueStoreValidVersion
  | atomicSwapFee
  | atomicSwapValidStopEpoch
  | dataStoreEpochFee
  | dataStoreValidVersion
  deriving DecidableEq

structure Update where
  key : UpdateType
  value : String
  epoch : UInt32

/-! ## Values -/

/-- A number in base ten without a sign. -/
def parseDigits (s : List Char) : Option Nat :=
  if s.isEmpty || !s.all (·.isDigit) then none
  else some (s.foldl (fun n c => 10 * n + (c.toNat - '0'.toNat)) 0)

/-- A number in base ten that may have a sign. -/
def parseSigned (s : List Char) : Option Int :=
  match s with
  | '-' :: s => (parseDigits s).map fun n => -(n : Int)
  | '+' :: s => (parseDigits s).map (↑·)
  | s => (parseDigits s).map (↑·)

def stringToUint32 (value : String) : Except Err UInt32 :=
  match parseDigits value.toList with
  | some v => if v < 2 ^ 32 then .ok (UInt32.ofNat v) else .error .badNumber
  | none => .error .badNumber

/-- A `time.Duration` counts nanoseconds in 64 bits; negative ones are refused. -/
def stringToTimeDuration (value : String) : Except Err Int64 :=
  match parseSigned value.toList with
  | some v =>
    if -2 ^ 63 ≤ v ∧ v < 2 ^ 63 then
      if v < 0 then .error .invalid else .ok (Int64.ofInt v)
    else .error .badNumber
  | none => .error .badNumber

/-- Negative numbers are refused, so that the result is a natural number. -/
def stringToBigInt (value : String) : Except Err Nat :=
  match parseSigned value.toList with
  | some v => if v < 0 then .error .invalid else .ok v.toNat
  | none => .error .invalid

/-- The value of a field. -/
inductive Value where
  | uint32 (v : UInt32)
  | duration (v : Int64)
  | bigInt (v : Nat)
  deriving DecidableEq

/-! ## The parameters -/

structure RawStorage where
  maxBytes : UInt32
  maxProposalSize : UInt32
  proposalStepTimeout : Int64
  preVoteStepTimeout : Int64
  preCommitStepTimeout : Int64
  deadBlockRoundNextRoundTimeout : Int64
  downloadTimeout : Int64
  srvrMsgTimeout : Int64
  msgTimeout : Int64
  minTxFee : Nat
  txValidVersion : UInt32
  valueStoreFee : Nat
  valueStoreValidVersion : UInt32
  atomicSwapFee : Nat
  atomicSwapValidStopEpoch : UInt32
  dataStoreEpochFee : Nat
  dataStoreValidVersion : UInt32
  deriving DecidableEq, Inhabited

namespace RawStorage

variable (rs : RawStorage)

def setMaxBytes (value : UInt32) : RawStorage :=
  { rs with maxBytes := value, maxProposalSize := value }

def setMsgTimeout (value : Int64) : RawStorage :=
  { rs with msgTimeout := value, srvrMsgTimeout := (3 * value) / 4 }

/-- What the setters of the three step timeouts do after they have set theirs. -/
def setDerivedTimeouts : RawStorage :=
  let sum := rs.proposalStepTimeout + rs.preVoteStepTimeout + rs.preCommitStepTimeout
  { rs with downloadTimeout := sum, deadBlockRoundNextRoundTimeout := (5 * sum) / 2 }

def setProposalStepTimeout (value : Int64) : RawStorage :=
  { rs with proposalStepTimeout := value }.setDerivedTimeouts

def setPreVoteStepTimeout (value : Int64) : RawStorage :=
  { rs with preVoteStepTimeout := value }.setDerivedTimeouts

def setPreCommitStepTimeout (value : Int64) : RawStorage :=
  { rs with preCommitStepTimeout := value }.setDerivedTimeouts

def updateValue (update : Update) : Except Err RawStorage :=
  match update.key with
  | .maxBytes => rs.setMaxBytes <$> stringToUint32 update.value
  | .proposalStepTimeout => rs.setProposalStepTimeout <$> stringToTimeDuration update.value
  | .preVoteStepTimeout => rs.setPreVoteStepTimeout <$> stringToTimeDuration update.value
  | .preCommitStepTimeout => rs.setPreCommitStepTimeout <$> stringToTimeDuration update.value
  | .msgTimeout => rs.setMsgTimeout <$> stringToTimeDuration update.value
  | .minTxFee => ({ rs with minTxFee := · }) <$> stringToBigInt update.value
  | .txValidVersion => ({ rs with txValidVersion := · }) <$> stringToUint32 update.value
  | .valueStoreFee => ({ rs with valueStoreFee := · }) <$> stringToBigInt update.value
  | .valueStoreValidVersion =>
    ({ rs with valueStoreValidVersion := · }) <$> stringToUint32 update.value
  | .atomicSwapFee => ({ rs with atomicSwapFee := · }) <$> stringToBigInt update.value
  | .atomicSwapValidStopEpoch =>
    ({ rs with atomicSwapValidStopEpoch := · }) <$> stringToUint32 update.value
  | .dataStoreEpochFee => ({ rs with dataStoreEpochFee := · }) <$> stringToBigInt update.value
  | .dataStoreValidVersion =>
    ({ rs with dataStoreValidVersion := · }) <$> stringToUint32 update.value

def second : Int64 := 1000000000

/-- `standardParameters`, on a zero `RawStorage`. -/
def standardParameters : RawStorage where
  maxBytes := 3000000
  maxProposalSize := 3000000
  proposalStepTimeout := 4 * second
  preVoteStepTimeout := 3 * second
  preCommitStepTimeout := 3 * second
  deadBlockRoundNextRoundTimeout := (5 * (4 * second + 3 * second + 3 * second)) / 2
  downloadTimeout := 4 * second + 3 * second + 3 * second
  srvrMsgTimeout := (3 * (4 * second)) / 4
  msgTimeout := 4 * second
  minTxFee := 0
  txValidVersion := 0
  valueStoreFee := 0
  valueStoreValidVersion := 0
  atomicSwapFee := 0
  atomicSwapValidStopEpoch := 0
  dataStoreEpochFee := 0
  dataStoreValidVersion := 0

/-- The value of an updatable field. -/
def get : UpdateType → Value
  | .maxBytes => .uint32 rs.maxBytes
  | .proposalStepTimeout => .duration rs.proposalStepTimeout
  | .preVoteStepTimeout => .duration rs.preVoteStepTimeout
  | .preCommitStepTimeout => .duration rs.preCommitStepTimeout
  | .msgTimeout => .duration rs.msgTimeout
  | .minTxFee => .bigInt rs.minTxFee
  | .txValidVersion => .uint32 rs.txValidVersion
  | .valueStoreFee => .bigInt rs.valueStoreFee
  | .valueStoreValidVersion => .uint32 rs.valueStoreValidVersion
  | .atomicSwapFee => .bigInt rs.atomicSwapFee
  | .atomicSwapValidStopEpoch => .uint32 rs.atomicSwapValidStopEpoch
  | .dataStoreEpochFee => .bigInt rs.dataStoreEpochFee
  | .dataStoreValidVersion => .uint32 rs.dataStoreValidVersion

end RawStorage

/-- The value that an update gives to its field. -/
def Update.parse (update : Update) : Except Err Value :=
  match update.key with
  | .maxBytes | .txValidVersion | .valueStoreValidVersion | .atomicSwapValidStopEpoch
  | .dataStoreValidVersion => .uint32 <$> stringToUint32 update.value
  | .proposalStepTimeout | .preVoteStepTimeout | .preCommitStepTimeout | .msgTimeout =>
    .duration <$> stringToTimeDuration update.value
  | .minTxFee | .valueStoreFee | .atomicSwapFee | .dataStoreEpochFee =>
    .bigInt <$> stringToBigInt update.value

/-- An update sets its own field and no other updatable one, whatever it is applied to. -/
theorem RawStorage.updateValue_cases (rs : RawStorage) (u : Update) :
    (∃ e, u.parse = .error e ∧ rs.updateValue u = .error e) ∨
      ∃ v rs', u.parse = .ok v ∧ rs.updateValue u = .ok rs' ∧
        ∀ t, rs'.get t = if t = u.key then v else rs.get t := by
  obtain ⟨key, value, epoch⟩ := u
  have hset {α : Type} (x : Except Err α) (make : α → Value) (f : α → RawStorage)
      (hf : ∀ a t, (f a).get t = if t = key then make a else rs.get t) :
      (∃ e, make <$> x = .error e ∧ f <$> x = .error e) ∨ ∃ v rs', make <$> x = .ok v ∧
      f <$> x = .ok rs' ∧
          ∀ t, rs'.get t = if t = key then v else rs.get t := by
    cases x with
    | error e => exact .inl ⟨e, rfl, rfl⟩
    | ok a => exact .inr ⟨make a, f a, rfl, rfl, hf a⟩
  cases key <;> exact hset _ _ _ fun a t => by cases t <;> rfl

end MadNet.Dynamics
