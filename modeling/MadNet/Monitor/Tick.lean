import MadNet.Lib.Prog
import MadNet.Lib.Run

/-!
# The monitor of Ethereum (`blockchain/monitor/monitor.go`)

Each tick fetches the logs of the next finalized blocks and hands them to the processors that are
registered for their events. `Λ` is the type of logs, `σ` the part of the monitor's state, and of
what is behind its handlers, that processors read and write, and `φ` what a processor receives from
outside while it runs.

The chain is the finalized one: the logs of each block do not change. A fetch that fails ends the
list of blocks of the tick. (After ten failures the worker keeps the lock of the results; if another
worker waits for it, the tick does not return and changes nothing.) The schedule of tasks counts
here by whether it makes the tick fail.
-/

namespace MadNet.Monitor

open Run List

variable {Λ φ σ : Type}

/-- The error of a processor, as the tick tells them apart. -/
inductive Fault where
  /-- `context.DeadlineExceeded`. -/
  | deadline
  | other (msg : String)
  deriving DecidableEq

abbrev Processor (Λ φ σ : Type) := φ → Λ → EStateM Fault σ Unit

/-- `EventMap.Lookup` of the event of a log. -/
abbrev EventMap (Λ φ σ : Type) := Λ → Option (Processor Λ φ σ)

structure MonitorState (σ : Type) where
  communicationFailures : UInt32
  ethereumInSync : Bool
  highestBlockProcessed : Nat
  highestBlockFinalized : Nat
  endpointInSync : Bool
  peerCount : UInt32
  data : σ

/-- A log is handed to its processor, which returns nil or not. -/
structure Call (Λ : Type) where
  block : Nat
  log : Λ
  ok : Bool
  deriving DecidableEq

/-- What does not change from tick to tick. -/
structure Setup (Λ φ σ : Type) where
  eventMap : EventMap Λ φ σ
  /-- The log is of one of the contracts whose logs are fetched. -/
  watched : Λ → Bool
  logs : Nat → List Λ
  retryCount : UInt32
  endpointMinimumPeers : UInt32
  batchSize : Nat

/-- What a tick meets. -/
structure Env (φ : Type) where
  /-- `EndpointInSync`: whether it is in sync, the number of peers, and whether it fails. -/
  endpoint : Bool × UInt32 × Bool
  /-- `GetFinalizedHeight`, if it does not fail. -/
  finalized : Option Nat
  /-- `GetEvents` of a block succeeds. -/
  fetched : Nat → Bool
  /-- What the processor of the log with this index in its block receives. -/
  input : Nat → Nat → φ
  /-- The task that is scheduled for a block, if any, is started. -/
  started : Nat → Bool

/-! ## Processing logs -/

section Process

variable (em : EventMap Λ φ σ) (input : Nat → Nat → φ) (currentBlock : Nat)

/-- `ProcessEvents`, from the log with index `i` on: the error of a processor, the state, and the
calls that were made. -/
def processEvents : Nat → List Λ → σ → Option Fault × σ × List (Call Λ)
  | _, [], s => (none, s, [])
  | i, log :: logs, s =>
    match em log with
    | none => processEvents (i + 1) logs s
    | some processor =>
      match processor (input currentBlock i) log s with
      | .ok _ s' =>
        let (err, s'', calls) := processEvents (i + 1) logs s'
        (err, s'', { block := currentBlock, log, ok := true } :: calls)
      | .error err s' => (some err, s', [{ block := currentBlock, log, ok := false }])

end Process

/-- The loop of `MonitorTick` over the logs of the blocks after `currentBlock`: the block to which
it got, if it does not fail. At the deadline it ends before the block in which it is. -/
def processBlocks (em : EventMap Λ φ σ) (env : Env φ) :
    Nat → List (List Λ) → σ → Option Nat × σ × List (Call Λ)
  | processed, [], s => (some processed, s, [])
  | processed, logs :: logsList, s =>
    match processEvents em env.input (processed + 1) 0 logs s with
    | (none, s', calls) =>
      if env.started (processed + 1) then
        let (res, s'', calls') := processBlocks em env (processed + 1) logsList s'
        (res, s'', calls ++ calls')
      else (none, s', calls)
    | (some .deadline, s', calls) =>
      (if env.started processed then some processed else none, s', calls)
    | (some (.other _), s', calls) => (none, s', calls)

/-- `getLogsConcurrentWithSort`. -/
def getLogs (cfg : Setup Λ φ σ) (env : Env φ) (processed lastBlock : Nat) : List (List Λ) :=
  ((List.range' (processed + 1) (lastBlock - processed)).takeWhile env.fetched).map fun block =>
    (cfg.logs block).filter cfg.watched

/-! ## A tick -/

/-- The part of `MonitorTick` after the finalized height is known. -/
def processNext (cfg : Setup Λ φ σ) (env : Env φ) (finalized : Nat) (s : MonitorState σ) :
    MonitorState σ × List (Call Λ) :=
  let processed := s.highestBlockProcessed
  if processed ≥ finalized then (s, [])
  else
    let remaining := finalized - processed
    let lastBlock := if remaining ≤ cfg.batchSize then processed + remaining
      else processed + cfg.batchSize
    let (res, data, calls) := processBlocks cfg.eventMap env processed
      (getLogs cfg env processed lastBlock) s.data
    ({ s with data, highestBlockProcessed := res.getD processed }, calls)

/-- `MonitorTick`, with the calls of processors that it makes. -/
def monitorTick (cfg : Setup Λ φ σ) (env : Env φ) (s : MonitorState σ) :
    MonitorState σ × List (Call Λ) :=
  let (inSync, peerCount, failed) := env.endpoint
  let bmax := max s.highestBlockFinalized s.highestBlockProcessed
  let bmin := min s.highestBlockFinalized s.highestBlockProcessed
  let s := { s with
    endpointInSync := inSync
    ethereumInSync := decide (bmax - bmin < 2) && inSync }
  if failed then
    let failures := s.communicationFailures + 1
    ({ s with
      communicationFailures := failures
      endpointInSync := if failures ≥ cfg.retryCount then false else inSync }, [])
  else if peerCount < cfg.endpointMinimumPeers then (s, [])
  else
    match env.finalized with
    | none => (s, [])
    | some finalized =>
      processNext cfg env finalized { s with
        communicationFailures := 0
        peerCount := peerCount
        endpointInSync := inSync
        highestBlockFinalized := finalized }

/-! ## Runs -/

inductive Event (φ σ : Type) where
  | tick (env : Env φ)
  /-- What processors read and write is changed by others. -/
  | change (f : σ → σ)

/-- The state of the monitor, the largest finalized height that was reported, and the calls that
were made. -/
structure Trace (Λ σ : Type) where
  state : MonitorState σ
  reported : Nat
  calls : List (Call Λ)

namespace Trace

/-- The height that the tick has got from the endpoint. -/
def seen (cfg : Setup Λ φ σ) (env : Env φ) : Nat :=
  if env.endpoint.2.2 ∨ env.endpoint.2.1 < cfg.endpointMinimumPeers then 0 else env.finalized.getD 0

def step (cfg : Setup Λ φ σ) (r : Trace Λ σ) : Event φ σ → Trace Λ σ
  | .tick env =>
    let (state, calls) := monitorTick cfg env r.state
    { state, reported := max r.reported (seen cfg env), calls := r.calls ++ calls }
  | .change f => { r with state := { r.state with data := f r.state.data } }

/-- A monitor that has processed the blocks up to `block`. -/
def start (block : Nat) (data : σ) : Trace Λ σ where
  state :=
    { communicationFailures := 0, ethereumInSync := false, highestBlockProcessed := block,
      highestBlockFinalized := block, endpointInSync := false, peerCount := 0, data }
  reported := block
  calls := []

end Trace

/-! ## No gaps -/

variable {cfg : Setup Λ φ σ}

/-- The logs of a block that have a processor. -/
def due (cfg : Setup Λ φ σ) (block : Nat) : List (Nat × Λ) :=
  ((cfg.logs block).filter fun log => (cfg.eventMap log).isSome).map (block, ·)

/-- The log that a call is about. -/
def Call.handed (c : Call Λ) : Nat × Λ := (c.block, c.log)

theorem processEvents_spec (em : EventMap Λ φ σ) (input : Nat → Nat → φ) (block i : Nat)
    (logs : List Λ) (s : σ) :
    (processEvents em input block i logs s).2.2.map Call.handed <+:
        (logs.filter fun log => (em log).isSome).map (block, ·) ∧
      ((processEvents em input block i logs s).1 = none →
        (processEvents em input block i logs s).2.2 =
          (logs.filter fun log => (em log).isSome).map fun log => { block, log, ok := true }) := by
  induction logs generalizing i s with
  | nil => exact ⟨prefix_refl _, fun _ => rfl⟩
  | cons log logs ih =>
    cases hlog : em log with
    | none =>
      simp only [processEvents, hlog]
      rw [filter_cons_of_neg (by simp [hlog])]
      exact ih (i + 1) s
    | some processor =>
      rw [filter_cons_of_pos (by simp [hlog])]
      cases hp : processor (input block i) log s with
      | ok u s' =>
        obtain ⟨hpre, hall⟩ := ih (i + 1) s'
        simp only [processEvents, hlog, hp]
        refine ⟨cons_prefix_cons.mpr ⟨rfl, hpre⟩, fun hnone => ?_⟩
        exact congrArg _ (hall hnone)
      | error e s' =>
        simp only [processEvents, hlog, hp]
        refine ⟨cons_prefix_cons.mpr ⟨rfl, List.nil_prefix⟩, fun hnone => ?_⟩
        cases hnone

/-- What a loop over the blocks after `p` has done when it is at block `q` or has failed. -/
structure Processed (cfg : Setup Λ φ σ) (p n : Nat) (res : Option Nat) (calls : List (Call Λ)) :
    Prop where
  handed : calls.map Call.handed <+: (List.range' (p + 1) n).flatMap (due cfg)
  le : ∀ q ∈ res, p ≤ q ∧ q ≤ p + n
  done : ∀ q ∈ res, ∀ b, p < b → b ≤ q → ∀ log ∈ cfg.logs b, (cfg.eventMap log).isSome = true →
    { block := b, log, ok := true } ∈ calls

/-- The logs with a processor of the blocks after `first` up to `last` are of contracts whose logs
are fetched. -/
def Setup.Watches (cfg : Setup Λ φ σ) (first last : Nat) : Prop :=
  ∀ b, first < b → b ≤ last → ∀ log ∈ cfg.logs b, (cfg.eventMap log).isSome = true →
    cfg.watched log = true

theorem Setup.Watches.mono {p q first last : Nat} (h : cfg.Watches first last) (hfirst : first ≤ p)
    (hlast : q ≤ last) : cfg.Watches p q :=
  fun b hp hq => h b (Nat.lt_of_le_of_lt hfirst hp) (Nat.le_trans hq hlast)

theorem filter_watched {p n : Nat} (hwatched : cfg.Watches p (p + (n + 1))) :
    (((cfg.logs (p + 1)).filter cfg.watched).filter fun log => (cfg.eventMap log).isSome) =
      (cfg.logs (p + 1)).filter fun log => (cfg.eventMap log).isSome := by
  rw [filter_filter]
  refine filter_congr fun log hlog => ?_
  cases hem : (cfg.eventMap log).isSome with
  | false => rfl
  | true => rw [hwatched (p + 1) (by omega) (by omega) log hlog hem, Bool.and_self]

theorem processBlocks_spec (env : Env φ) {p n : Nat} (hwatched : cfg.Watches p (p + n)) (s : σ) :
    Processed cfg p n
      (processBlocks cfg.eventMap env p
        ((range' (p + 1) n).map fun b => (cfg.logs b).filter cfg.watched) s).1
      (processBlocks cfg.eventMap env p
        ((range' (p + 1) n).map fun b => (cfg.logs b).filter cfg.watched) s).2.2 := by
  induction n generalizing p s with
  | zero =>
    refine ⟨prefix_refl _, fun q hq => ?_, fun q hq b h₁ h₂ => ?_⟩
    · cases hq
      exact ⟨Nat.le_refl _, Nat.le_refl _⟩
    · cases hq
      omega
  | succ n ih =>
    rw [range'_succ, map_cons, processBlocks]
    obtain ⟨hpre, hall⟩ := processEvents_spec cfg.eventMap env.input (p + 1) 0
      ((cfg.logs (p + 1)).filter cfg.watched) s
    rw [filter_watched hwatched] at hpre hall
    have hfirst {calls : List (Call Λ)} (h : calls.map Call.handed <+: due cfg (p + 1)) :
        calls.map Call.handed <+: (range' (p + 1) (n + 1)).flatMap (due cfg) := by
      rw [range'_succ, flatMap_cons]
      exact h.trans (prefix_append _ _)
    generalize processEvents cfg.eventMap env.input (p + 1) 0
      ((cfg.logs (p + 1)).filter cfg.watched) s = x at hpre hall ⊢
    obtain ⟨err, s', calls⟩ := x
    cases err with
    | none =>
      dsimp only
      split
      next hstarted =>
        have hrest := ih (hwatched.mono (Nat.le_succ p) (by omega)) s'
        have hcalls := hall rfl
        dsimp only at hcalls ⊢
        refine ⟨?_, fun q hq => ?_, fun q hq b h₁ h₂ log hlog hem => ?_⟩
        · rw [map_append, range'_succ, flatMap_cons, hcalls, map_map]
          exact (prefix_append_right_inj _).mpr hrest.handed
        · have := hrest.le q hq
          omega
        · rcases Nat.eq_or_lt_of_le h₁ with heq | h₁
          · subst heq
            refine mem_append_left _ ?_
            rw [hcalls]
            exact mem_map.mpr ⟨log, mem_filter.mpr ⟨hlog, hem⟩, rfl⟩
          · exact mem_append_right _ (hrest.done q hq b h₁ h₂ log hlog hem)
      next => exact ⟨hfirst hpre, nofun, nofun⟩
    | some e =>
      cases e with
      | deadline =>
        dsimp only
        refine ⟨hfirst hpre, fun q hq => ?_, fun q hq b h₁ h₂ => ?_⟩
        all_goals
          split at hq
          · cases hq
            omega
          · cases hq
      | other msg => exact ⟨hfirst hpre, nofun, nofun⟩

theorem takeWhile_range' (f : Nat → Bool) (a n : Nat) :
    ∃ m ≤ n, (range' a n).takeWhile f = range' a m := by
  induction n generalizing a with
  | zero => exact ⟨0, Nat.le_refl 0, rfl⟩
  | succ n ih =>
    rw [range'_succ, takeWhile_cons]
    split
    · obtain ⟨m, hm, heq⟩ := ih (a + 1)
      refine ⟨m + 1, by omega, ?_⟩
      rw [heq, range'_succ]
    · exact ⟨0, Nat.zero_le _, rfl⟩

/-- A tick changes nothing about the progress, or processes blocks up to the height that it has
seen. -/
theorem monitorTick_cases (cfg : Setup Λ φ σ) (env : Env φ) (s : MonitorState σ) :
    ((monitorTick cfg env s).1.highestBlockProcessed = s.highestBlockProcessed ∧
      (monitorTick cfg env s).2 = []) ∨
    ∃ n, s.highestBlockProcessed + n ≤ Trace.seen cfg env ∧
      let x := processBlocks cfg.eventMap env s.highestBlockProcessed
        ((range' (s.highestBlockProcessed + 1) n).map fun b => (cfg.logs b).filter cfg.watched)
        s.data
      (monitorTick cfg env s).1.highestBlockProcessed = x.1.getD s.highestBlockProcessed ∧
        (monitorTick cfg env s).1.data = x.2.1 ∧ (monitorTick cfg env s).2 = x.2.2 := by
  simp only [monitorTick, processNext, Trace.seen]
  split
  · exact .inl ⟨rfl, rfl⟩
  next hfailed =>
    split
    · exact .inl ⟨rfl, rfl⟩
    next hpeers =>
      split
      · exact .inl ⟨rfl, rfl⟩
      next finalized hfinalized =>
        split
        · exact .inl ⟨rfl, rfl⟩
        next hlt =>
          obtain ⟨n, hn, heq⟩ := takeWhile_range' env.fetched (s.highestBlockProcessed + 1)
            ((if finalized - s.highestBlockProcessed ≤ cfg.batchSize
              then s.highestBlockProcessed + (finalized - s.highestBlockProcessed)
              else s.highestBlockProcessed + cfg.batchSize) - s.highestBlockProcessed)
          refine .inr ⟨n, ?_, ?_⟩
          · rw [if_neg (by tauto), hfinalized, Option.getD_some]
            split at hn <;> omega
          · simp only [getLogs, heq, and_self]

/-- What a tick does to the progress. -/
structure Ticked (cfg : Setup Λ φ σ) (p q bound : Nat) (calls : List (Call Λ)) : Prop where
  handed : calls.map Call.handed <+: (List.range' (p + 1) (bound - p)).flatMap (due cfg)
  le : p ≤ q
  bounded : q ≤ max p bound
  done : ∀ b, p < b → b ≤ q → ∀ log ∈ cfg.logs b, (cfg.eventMap log).isSome = true →
    { block := b, log, ok := true } ∈ calls

theorem flatMap_range'_mono {α : Type} (f : Nat → List α) {a m n : Nat} (h : m ≤ n) :
    (range' a m).flatMap f <+: (range' a n).flatMap f := by
  obtain ⟨k, rfl⟩ := Nat.exists_eq_add_of_le h
  rw [← range'_append_1, flatMap_append]
  exact prefix_append _ _

theorem monitorTick_spec (env : Env φ) (s : MonitorState σ) {bound : Nat}
    (hwatched : cfg.Watches s.highestBlockProcessed bound) (hbound : Trace.seen cfg env ≤ bound) :
    Ticked cfg s.highestBlockProcessed (monitorTick cfg env s).1.highestBlockProcessed bound
      (monitorTick cfg env s).2 := by
  rcases monitorTick_cases cfg env s with ⟨hp, hcalls⟩ | ⟨n, hn, hp, -, hcalls⟩
  · rw [hp, hcalls]
    exact ⟨⟨_, rfl⟩, Nat.le_refl _, Nat.le_max_left _ _, fun b h₁ h₂ => by omega⟩
  · rw [hp, hcalls]
    have hspec := processBlocks_spec env (n := n) (hwatched.mono (Nat.le_refl _) (by omega)) s.data
    generalize processBlocks cfg.eventMap env s.highestBlockProcessed
      ((range' (s.highestBlockProcessed + 1) n).map fun b => (cfg.logs b).filter cfg.watched)
      s.data = x at hspec ⊢
    obtain ⟨res, s', calls⟩ := x
    have hle : n ≤ bound - s.highestBlockProcessed := by omega
    have hpre := hspec.handed.trans (flatMap_range'_mono (due cfg) hle)
    cases res with
    | none => exact ⟨hpre, Nat.le_refl _, Nat.le_max_left _ _, fun b h₁ h₂ => by
        simp only [Option.getD_none] at h₂
        omega⟩
    | some q =>
      obtain ⟨hle, hle'⟩ := hspec.le q rfl
      exact ⟨hpre, hle, by rw [Option.getD_some]; omega, hspec.done q rfl⟩

namespace Trace

/-- Every log of the blocks after `first` that are processed was handed to its processor, which
returned nil. -/
structure NoGaps (cfg : Setup Λ φ σ) (first : Nat) (r : Trace Λ σ) : Prop where
  first_le : first ≤ r.state.highestBlockProcessed
  le_reported : r.state.highestBlockProcessed ≤ r.reported
  done : ∀ b, first < b → b ≤ r.state.highestBlockProcessed → ∀ log ∈ cfg.logs b,
    (cfg.eventMap log).isSome = true → { block := b, log, ok := true } ∈ r.calls

/-- The progress does not decrease, and the logs of the next blocks are handed over in order. -/
structure Advances (cfg : Setup Λ φ σ) (r r' : Trace Λ σ) : Prop where
  le : r.state.highestBlockProcessed ≤ r'.state.highestBlockProcessed
  handed : ∃ calls, r'.calls = r.calls ++ calls ∧ calls.map Call.handed <+:
    (List.range' (r.state.highestBlockProcessed + 1)
      (r'.reported - r.state.highestBlockProcessed)).flatMap (due cfg)

variable {first : Nat} {r : Trace Λ σ}

theorem reported_le_step (r : Trace Λ σ) (e : Event φ σ) :
    r.reported ≤ (r.step cfg e).reported := by
  cases e with
  | tick env => exact Nat.le_max_left _ _
  | change f => exact Nat.le_refl _

theorem reported_le_exec (r : Trace Λ σ) (es : List (Event φ σ)) :
    r.reported ≤ (exec (step cfg) r es).reported := by
  induction es generalizing r with
  | nil => exact Nat.le_refl _
  | cons e es ih => exact Nat.le_trans (reported_le_step r e) (ih _)

/-- No step of a run reports a height above the last one. -/
theorem along_reported_le (cfg : Setup Λ φ σ) (r : Trace Λ σ) (es : List (Event φ σ)) :
    Along (fun r' e => (r'.step cfg e).reported ≤ (exec (step cfg) r es).reported)
      (step cfg) r es := by
  induction es generalizing r with
  | nil => trivial
  | cons e es ih => exact ⟨reported_le_exec _ es, ih _⟩

theorem advances_step {e : Event φ σ}
    (hwatched : cfg.Watches r.state.highestBlockProcessed (r.step cfg e).reported) :
    Advances cfg r (r.step cfg e) := by
  cases e with
  | tick env =>
    have ht := monitorTick_spec env r.state hwatched (Nat.le_max_right r.reported (seen cfg env))
    exact ⟨ht.le, _, rfl, ht.handed⟩
  | change f => exact ⟨Nat.le_refl _, [], (append_nil _).symm, nil_prefix⟩

theorem NoGaps.step {e : Event φ σ} (h : NoGaps cfg first r)
    (hwatched : cfg.Watches r.state.highestBlockProcessed (r.step cfg e).reported) :
    NoGaps cfg first (r.step cfg e) := by
  cases e with
  | tick env =>
    have ht := monitorTick_spec env r.state hwatched (Nat.le_max_right r.reported (seen cfg env))
    have hbounded := Nat.le_trans h.le_reported (Nat.le_max_left _ (seen cfg env))
    refine ⟨Nat.le_trans h.first_le ht.le,
      Nat.le_trans ht.bounded (Nat.max_le.mpr ⟨hbounded, Nat.le_refl _⟩),
      fun b h₁ h₂ log hlog hem => ?_⟩
    rcases Nat.lt_or_ge r.state.highestBlockProcessed b with hb | hb
    · exact mem_append_right _ (ht.done b hb h₂ log hlog hem)
    · exact mem_append_left _ (h.done b h₁ hb log hlog hem)
  | change f => exact ⟨h.first_le, h.le_reported, h.done⟩

/-- If each log with a processor, of the blocks after the first one up to the largest height
reported, is of a contract whose logs are fetched, then over any sequence of ticks no block and no
log is skipped. -/
theorem noGaps (first : Nat) (data : σ) (es : List (Event φ σ))
    (hwatched : cfg.Watches first (exec (step cfg) (start first data) es).reported) :
    NoGaps cfg first (exec (step cfg) (start first data) es) ∧
      Along (fun r e => Advances cfg r (r.step cfg e)) (step cfg) (start first data) es := by
  have hreported := along_reported_le cfg (start first data) es
  generalize (exec (step cfg) (start first data) es).reported = last at hwatched hreported
  have hnext (r : Trace Λ σ) (e : Event φ σ) (h : NoGaps cfg first r)
      (hle : (r.step cfg e).reported ≤ last) :
      cfg.Watches r.state.highestBlockProcessed (r.step cfg e).reported :=
    hwatched.mono h.first_le hle
  have hstart : NoGaps cfg first (start (Λ := Λ) first data) :=
    ⟨Nat.le_refl _, Nat.le_refl _, fun b h₁ h₂ => by
      simp only [start] at h₂
      omega⟩
  exact ⟨Run.invariant _ (fun r e h hle => h.step (hnext r e h hle)) hstart hreported,
    along_of_invariant _ (fun r e h hle => h.step (hnext r e h hle))
      (fun r e h hle => advances_step (hnext r e h hle)) hstart hreported⟩

end Trace

/-! ## What processors keep -/

section Handed

variable (P : σ → Λ → Bool)

/-- Every log that `processEvents` hands to its processor meets `P` in the state in which it does.
-/
def handedEvents (em : EventMap Λ φ σ) (input : Nat → Nat → φ) (currentBlock : Nat) :
    Nat → List Λ → σ → Bool
  | _, [], _ => true
  | i, log :: logs, s =>
    match em log with
    | none => handedEvents em input currentBlock (i + 1) logs s
    | some processor =>
      P s log && match processor (input currentBlock i) log s with
        | .ok _ s' => handedEvents em input currentBlock (i + 1) logs s'
        | .error _ _ => true

def handedBlocks (em : EventMap Λ φ σ) (env : Env φ) : Nat → List (List Λ) → σ → Bool
  | _, [], _ => true
  | processed, logs :: logsList, s =>
    handedEvents P em env.input (processed + 1) 0 logs s &&
      match processEvents em env.input (processed + 1) 0 logs s with
      | (none, s', _) =>
        !env.started (processed + 1) || handedBlocks em env (processed + 1) logsList s'
      | _ => true

/-- The logs that a tick goes through. -/
def toProcess (cfg : Setup Λ φ σ) (env : Env φ) (processed : Nat) : List (List Λ) :=
  let finalized := Trace.seen cfg env
  if processed ≥ finalized then []
  else getLogs cfg env processed
    (if finalized - processed ≤ cfg.batchSize then processed + (finalized - processed)
      else processed + cfg.batchSize)

/-- A tick hands over only logs that meet `P`, and what others change is related by `Q`. -/
def Event.Hands (Q : σ → σ → Prop) (cfg : Setup Λ φ σ) (r : Trace Λ σ) : Event φ σ → Prop
  | .tick env => handedBlocks P cfg.eventMap env r.state.highestBlockProcessed
      (toProcess cfg env r.state.highestBlockProcessed) r.state.data = true
  | .change f => Q r.state.data (f r.state.data)

/-- The logs of the blocks after `first` up to `processed` that are fetched. -/
def seenLogs (cfg : Setup Λ φ σ) (first processed : Nat) : List Λ :=
  (List.range' (first + 1) (processed - first)).flatMap fun block =>
    (cfg.logs block).filter cfg.watched

/-- The logs are the first ones of the blocks after `first`. -/
def Initial (cfg : Setup Λ φ σ) (first : Nat) (l : List Λ) : Prop := ∃ n, l <+: seenLogs cfg first n

theorem Initial.of_append {first : Nat} {l l' : List Λ}
    (h : Initial cfg first (l ++ l')) : Initial cfg first l :=
  h.imp fun _ hn => (prefix_append l l').trans hn

/-- The processors keep `I done s`, which relates the state to the logs that have been processed: a
log that is processed again is in `done` no longer. -/
structure Keeps (cfg : Setup Λ φ σ) (first : Nat) (Q : σ → σ → Prop) (I : List Λ → σ → Prop) :
    Prop where
  mono : ∀ {done l s}, I (done ++ l) s → I done s
  skip : ∀ {done log s}, cfg.eventMap log = none → I done s → I (done ++ [log]) s
  ok : ∀ {done log s p inp u s'}, Initial cfg first (done ++ [log]) → cfg.eventMap log = some p →
    P s log = true → I done s → p inp log s = .ok u s' → I (done ++ [log]) s'
  error : ∀ {done log s p inp e s'}, cfg.eventMap log = some p → P s log = true → I done s →
    p inp log s = .error e s' → I done s'
  change : ∀ {done s s'}, Q s s' → I done s → I done s'

variable {P} {cfg : Setup Λ φ σ} {first : Nat} {Q : σ → σ → Prop} {I : List Λ → σ → Prop}
  {done : List Λ}

theorem Keeps.processEvents (hK : Keeps P cfg first Q I) {input : Nat → Nat → φ} {block i : Nat}
    {logs : List Λ} {s : σ} (hlogs : Initial cfg first (done ++ logs)) (hI : I done s)
    (hP : handedEvents P cfg.eventMap input block i logs s = true) :
    I done (processEvents cfg.eventMap input block i logs s).2.1 ∧
      ((processEvents cfg.eventMap input block i logs s).1 = none →
        I (done ++ logs) (processEvents cfg.eventMap input block i logs s).2.1) := by
  induction logs generalizing done i s with
  | nil => exact ⟨hI, fun _ => by rwa [append_nil]⟩
  | cons log logs ih =>
    rw [append_cons] at hlogs ⊢
    cases hlog : cfg.eventMap log with
    | none =>
      simp only [handedEvents, hlog] at hP
      simp only [Monitor.processEvents, hlog]
      obtain ⟨hrest, hall⟩ := ih hlogs (hK.skip hlog hI) hP
      exact ⟨hK.mono hrest, hall⟩
    | some processor =>
      simp only [handedEvents, hlog, Bool.and_eq_true] at hP
      obtain ⟨hlogP, hP⟩ := hP
      cases hrun : processor (input block i) log s with
      | ok u s' =>
        simp only [hrun] at hP
        simp only [Monitor.processEvents, hlog, hrun]
        obtain ⟨hrest, hall⟩ := ih hlogs (hK.ok hlogs.of_append hlog hlogP hI hrun) hP
        exact ⟨hK.mono hrest, hall⟩
      | error e s' =>
        simp only [Monitor.processEvents, hlog, hrun]
        exact ⟨hK.error hlog hlogP hI hrun, nofun⟩

theorem Keeps.processBlocks (hK : Keeps P cfg first Q I) {env : Env φ} {p : Nat}
    {logsList : List (List Λ)} {s : σ} (hlogs : Initial cfg first (done ++ logsList.flatten))
    (hI : I done s) (hP : handedBlocks P cfg.eventMap env p logsList s = true) :
    I done (processBlocks cfg.eventMap env p logsList s).2.1 ∧
      ∀ q ∈ (processBlocks cfg.eventMap env p logsList s).1, p ≤ q ∧ q ≤ p + logsList.length ∧
        I (done ++ (logsList.take (q - p)).flatten)
          (processBlocks cfg.eventMap env p logsList s).2.1 := by
  induction logsList generalizing done p s with
  | nil =>
    refine ⟨hI, fun q hq => ?_⟩
    cases hq
    exact ⟨Nat.le_refl _, Nat.le_add_right _ _, by simpa [Monitor.processBlocks] using hI⟩
  | cons logs logsList ih =>
    simp only [handedBlocks, Bool.and_eq_true] at hP
    obtain ⟨hblock, hP⟩ := hP
    rw [flatten_cons, ← append_assoc] at hlogs
    obtain ⟨hfail, hall⟩ := hK.processEvents hlogs.of_append hI hblock
    simp only [Monitor.processBlocks]
    generalize Monitor.processEvents cfg.eventMap env.input (p + 1) 0 logs s = x at hfail hall hP ⊢
    obtain ⟨err, s', calls⟩ := x
    cases err with
    | none =>
      dsimp only at hfail hall hP ⊢
      split
      next hstarted =>
        rw [hstarted, Bool.not_true, Bool.false_or] at hP
        obtain ⟨hrest, hdone⟩ := ih hlogs (hall rfl) hP
        refine ⟨hK.mono hrest, fun q hq => ?_⟩
        obtain ⟨hle, hle', hI'⟩ := hdone q hq
        obtain ⟨k, rfl⟩ := Nat.exists_eq_add_of_le hle
        refine ⟨by omega, by rw [length_cons]; omega, ?_⟩
        rw [show p + 1 + k - p = k + 1 by omega, take_succ_cons, flatten_cons, ← append_assoc]
        rwa [Nat.add_sub_cancel_left] at hI'
      next => exact ⟨hfail, nofun⟩
    | some e =>
      cases e with
      | deadline =>
        dsimp only at hfail ⊢
        refine ⟨hfail, fun q hq => ?_⟩
        split at hq
        · cases hq
          exact ⟨Nat.le_refl _, Nat.le_add_right _ _, by simpa using hfail⟩
        · cases hq
      | other msg => exact ⟨hfail, nofun⟩

theorem monitorTick_eq (cfg : Setup Λ φ σ) (env : Env φ) (s : MonitorState σ) :
    let x := processBlocks cfg.eventMap env s.highestBlockProcessed
      (toProcess cfg env s.highestBlockProcessed) s.data
    (monitorTick cfg env s).1.highestBlockProcessed = x.1.getD s.highestBlockProcessed ∧
      (monitorTick cfg env s).1.data = x.2.1 := by
  intro x
  have hnil (h : toProcess cfg env s.highestBlockProcessed = []) :
      x = (some s.highestBlockProcessed, s.data, []) := by
    simp only [x, h, processBlocks]
  simp only [monitorTick, processNext]
  split
  next hfailed =>
    rw [hnil (by simp [toProcess, Trace.seen, hfailed])]
    exact ⟨rfl, rfl⟩
  next hfailed =>
    split
    next hpeers =>
      rw [hnil (by simp [toProcess, Trace.seen, hpeers])]
      exact ⟨rfl, rfl⟩
    next hpeers =>
      split
      next hnone =>
        rw [hnil (by simp [toProcess, Trace.seen, hnone])]
        exact ⟨rfl, rfl⟩
      next finalized hfinalized =>
        have hseen : Trace.seen cfg env = finalized := by
          rw [Trace.seen, if_neg (by tauto), hfinalized, Option.getD_some]
        split
        next hge =>
          rw [hnil (by rw [toProcess, hseen]; exact if_pos hge)]
          exact ⟨rfl, rfl⟩
        next hlt =>
          simp only [x, toProcess, hseen, if_neg hlt, and_self]

theorem seenLogs_append {p n : Nat} (h : first ≤ p) :
    seenLogs cfg first p ++ (range' (p + 1) n).flatMap (fun block =>
      (cfg.logs block).filter cfg.watched) = seenLogs cfg first (p + n) := by
  rw [seenLogs, seenLogs, ← flatMap_append, show p + n - first = p - first + n by omega,
    ← range'_append_1, show first + 1 + (p - first) = p + 1 by omega]

theorem seenLogs_mono (cfg : Setup Λ φ σ) (first : Nat) {m n : Nat} (h : m ≤ n) :
    seenLogs cfg first m <+: seenLogs cfg first n :=
  flatMap_range'_mono _ (Nat.sub_le_sub_right h first)

theorem Initial.comparable {l l' : List Λ}
    (h : Initial cfg first l) (h' : Initial cfg first l') : l <+: l' ∨ l' <+: l := by
  obtain ⟨m, hm⟩ := h
  obtain ⟨n, hn⟩ := h'
  exact prefix_or_prefix_of_prefix
    (hm.trans (seenLogs_mono cfg first (Nat.le_max_left m n)))
    (hn.trans (seenLogs_mono cfg first (Nat.le_max_right m n)))

theorem toProcess_eq (cfg : Setup Λ φ σ) (env : Env φ) (p : Nat) : ∃ n, toProcess cfg env p =
      (range' (p + 1) n).map fun block => (cfg.logs block).filter cfg.watched := by
  unfold toProcess
  dsimp only
  split
  · exact ⟨0, rfl⟩
  · obtain ⟨n, -, heq⟩ := takeWhile_range' env.fetched (p + 1) _
    exact ⟨n, by rw [getLogs, heq]⟩

theorem Keeps.step (hK : Keeps P cfg first Q I) {r : Trace Λ σ}
    (hfirst : first ≤ r.state.highestBlockProcessed)
    (hI : I (seenLogs cfg first r.state.highestBlockProcessed) r.state.data) {e : Event φ σ}
    (he : e.Hands P Q cfg r) :
    first ≤ (r.step cfg e).state.highestBlockProcessed ∧
      I (seenLogs cfg first (r.step cfg e).state.highestBlockProcessed)
      (r.step cfg e).state.data := by
  cases e with
  | change f => exact ⟨hfirst, hK.change he hI⟩
  | tick env =>
    obtain ⟨hp, hdata⟩ := monitorTick_eq cfg env r.state
    obtain ⟨n, hn⟩ := toProcess_eq cfg env r.state.highestBlockProcessed
    have hlogs : Initial cfg first (seenLogs cfg first r.state.highestBlockProcessed ++
        (toProcess cfg env r.state.highestBlockProcessed).flatten) := by
      refine ⟨r.state.highestBlockProcessed + n, ?_⟩
      rewrite [hn, ← flatMap_def, seenLogs_append hfirst]
      exact prefix_refl _
    obtain ⟨hfail, hdone⟩ := hK.processBlocks hlogs hI he
    simp only [Trace.step]
    rw [hp, hdata]
    cases hres : (Monitor.processBlocks cfg.eventMap env r.state.highestBlockProcessed
        (toProcess cfg env r.state.highestBlockProcessed) r.state.data).1 with
    | none => exact ⟨hfirst, hfail⟩
    | some q =>
      obtain ⟨hle, hle', hI'⟩ := hdone q hres
      rw [hn, length_map, length_range'] at hle'
      obtain ⟨k, rfl⟩ := Nat.exists_eq_add_of_le hle
      obtain ⟨m, rfl⟩ := Nat.exists_eq_add_of_le (Nat.le_of_add_le_add_left hle')
      rw [Nat.add_sub_cancel_left, hn, ← map_take, ← range'_append_1,
        take_left' length_range', ← flatMap_def, seenLogs_append hfirst] at hI'
      rw [hn, Option.getD_some, ← range'_append_1]
      exact ⟨by omega, hI'⟩

/-- What the processors keep holds after every run. -/
theorem Keeps.run (hK : Keeps P cfg first Q I) {data : σ} (hI : I [] data) {es : List (Event φ σ)}
    (hes : Along (fun r e => e.Hands P Q cfg r) (Trace.step cfg) (.start first data) es) :
    let r := exec (Trace.step cfg) (.start first data) es
    first ≤ r.state.highestBlockProcessed ∧
      I (seenLogs cfg first r.state.highestBlockProcessed) r.state.data := by
  refine Run.invariant (fun r : Trace Λ σ => first ≤ r.state.highestBlockProcessed ∧
    I (seenLogs cfg first r.state.highestBlockProcessed) r.state.data)
    (fun r e h he => hK.step h.1 h.2 he) ⟨Nat.le_refl _, ?_⟩ hes
  simpa [Trace.start, seenLogs] using hI

end Handed

end MadNet.Monitor
