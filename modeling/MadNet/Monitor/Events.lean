import MadNet.Monitor.Tick

/-!
# Events of the contracts (`monitor/event_setup.go`)

The logs that have a processor, and the contracts whose logs a tick fetches.
-/

namespace MadNet.Monitor

open Run

inductive Contract where
  | ethdkg
  | snapshots
  | bToken
  | governance
  | validatorPool
  deriving DecidableEq

abbrev Address := Nat

/-- `[4]*big.Int`. -/
abbrev G2Big := Nat × Nat × Nat × Nat

/-- The events of `ETHDKG` that only move the phase of the node's own DKG state. -/
inductive PhaseEvent where
  | addressRegistered
  | registrationComplete
  | sharesDistributed
  | shareDistributionComplete
  | keyShareSubmitted
  | keyShareSubmissionComplete
  | mpkSet
  | gpkjSubmissionComplete
  deriving DecidableEq

inductive Log where
  | registrationOpened (startBlock numberValidators nonce phaseLength confirmationLength : Nat)
  | validatorMemberAdded (account : Address) (index nonce epoch : Nat) (share : G2Big)
  | validatorSetCompleted (validatorCount nonce epoch ethHeight aliceNetHeight : Nat)
    (groupKey : G2Big)
  | phase (event : PhaseEvent)
  | depositReceived (depositID accountType : Nat) (depositor : Address) (amount : Nat)
  | snapshotTaken (epoch : Nat) (isSafeToProceedConsensus : Bool)
  | valueUpdated (epoch key value : Nat)
  | validatorMinorSlashed (account : Address) (publicStakingTokenID : Nat)
  | validatorMajorSlashed (account : Address)
  /-- An event without a processor. -/
  | other (contract : Contract) (id : Nat)
  deriving DecidableEq

namespace Log

def contract : Log → Contract
  | registrationOpened .. => .ethdkg
  | validatorMemberAdded .. => .ethdkg
  | validatorSetCompleted .. => .ethdkg
  | phase _ => .ethdkg
  | depositReceived .. => .bToken
  | snapshotTaken .. => .snapshots
  | valueUpdated .. => .governance
  | validatorMinorSlashed .. => .validatorPool
  | validatorMajorSlashed _ => .validatorPool
  | other contract _ => contract

/-- `SetupEventMap` registers a processor for the event. -/
def registered : Log → Bool
  | other .. => false
  | _ => true

end Log

/-- `addresses` in `MonitorTick`. -/
def addresses : List Contract := [.ethdkg, .snapshots, .bToken]

/-- The monitor with the processors of `SetupEventMap`. -/
def setup {φ σ : Type} (process : Processor Log φ σ) (logs : Nat → List Log)
    (retryCount endpointMinimumPeers : UInt32) (batchSize : Nat) : Setup Log φ σ where
  eventMap log := if log.registered then some process else none
  watched log := log.contract ∈ addresses
  logs := logs
  retryCount := retryCount
  endpointMinimumPeers := endpointMinimumPeers
  batchSize := batchSize

namespace Setup

/-- Block 1 has these logs; their processors return nil. -/
def inBlockOne (logs : List Log) : Setup Log Unit Unit :=
  setup (fun _ _ => pure ()) (fun block => if block = 1 then logs else []) 5 1 10

/-- A tick of which nothing fails, with a finalized height. -/
def fine (finalized : Nat) : Env Unit where
  endpoint := (true, 1, false)
  finalized := some finalized
  fetched := fun _ => true
  input := fun _ _ => ()
  started := fun _ => true

/-- A validator is slashed in block 1. The event has a processor, but the logs of its contract are
not fetched: the block is processed and the log was not handed over. -/
theorem slashing_skipped :
    let cfg := inBlockOne [.validatorMinorSlashed 7 1]
    let r := exec (Trace.step cfg) (.start 0 ()) [.tick (fine 1)]
    (cfg.eventMap (.validatorMinorSlashed 7 1)).isSome = true ∧
      .validatorMinorSlashed 7 1 ∈ cfg.logs 1 ∧ r.state.highestBlockProcessed = 1 ∧
      r.calls = [] := by
  decide +kernel

/-- Two deposits are made in block 1, and the heights 1 and 2 become final. -/
theorem deposits_handed :
    let cfg := inBlockOne [.depositReceived 1 1 7 100, .depositReceived 2 1 8 200]
    let ticks : List (Event Unit Unit) := [.tick (fine 1), .tick (fine 2)]
    let r := exec (Trace.step cfg) (.start 0 ()) ticks
    r.state.highestBlockProcessed = 2 ∧ r.calls.length = 2 ∧ Trace.NoGaps cfg 0 r ∧
      Along (fun r e => Trace.Advances cfg r (r.step cfg e)) (Trace.step cfg)
      (.start 0 ()) ticks := by
  intro cfg ticks r
  refine ⟨by decide +kernel, by decide +kernel,
    Trace.noGaps 0 () ticks fun b _ _ log hlog _ => ?_⟩
  simp only [cfg, inBlockOne, setup] at hlog ⊢
  split at hlog
  · rcases List.mem_pair.mp hlog with rfl | rfl <;> decide
  · cases hlog

end Setup

end MadNet.Monitor
