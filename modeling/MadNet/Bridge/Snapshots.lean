import MadNet.Codec.Parsers
import MadNet.Lib.Ring

/-!
# `Snapshots.sol` and its ring buffer

A snapshot is stored at its epoch modulo six, after a check that it is newer than what was there.
The internal getter checks that what it reads is of the epoch that was asked for, the public one
does not. The other contracts and the precompiles answer through the context of a call.
-/

namespace MadNet.Snapshots

open Prog (bind_ok bind₂_ok)
open Bytes Codec List Nat
open Staking (Revert require checked require_eq_ok checked_eq_ok)

structure Snapshot where
  committedAt : Nat
  blockClaims : Codec.BClaims
  deriving DecidableEq

/-- What a slot is before anything is stored in it. -/
def Snapshot.empty : Snapshot where
  committedAt := 0
  blockClaims :=
    { chainID := 0
      height := 0
      txCount := 0
      prevBlock := List.replicate 32 0
      txRoot := List.replicate 32 0
      stateRoot := List.replicate 32 0
      headerRoot := List.replicate 32 0 }

structure Contract where
  epochLength : Nat
  chainId : Nat
  minimumIntervalBetweenSnapshots : Nat
  epoch : Nat
  snapshots : Fin 6 → Snapshot

/-- A contract without snapshots. -/
def Contract.fresh (epochLength chainId minimumIntervalBetweenSnapshots : Nat) : Contract :=
  { epochLength, chainId, minimumIntervalBetweenSnapshots, epoch := 0,
    snapshots := fun _ => .empty }

/-- What a call of `snapshot` finds around it. -/
structure Ctx where
  blockNumber : Nat
  /-- The sender is a validator. -/
  isValidator : Bool
  isConsensusRunning : Bool
  isMaintenanceScheduled : Bool
  pauseConsensus : Except Revert Unit
  /-- `ETHDKG.getMasterPublicKeyHash`. -/
  masterPublicKeyHash : Bytes
  keccak256 : Bytes → Bytes
  verifySignatureASM : Bytes → List Nat → List Nat → Except Revert Bool

/-! ## Epochs -/

def getEpochFromHeight (epochLength height : Nat) : Except Revert Nat :=
  if height ≤ epochLength then .ok 1
  -- a division by zero
  else if epochLength = 0 then .error (.code "")
  else if height % epochLength = 0 then .ok (height / epochLength)
  else .ok (height / epochLength + 1)

/-- `_getEpochFromHeight`, with a result of 32 bits. -/
def epochFor (epochLength height : Nat) : Except Revert Nat := do
  return (← getEpochFromHeight epochLength height) % 2 ^ 32

def indexFor (epoch : Nat) : Except Revert (Fin 6) := do
  require (0 < epoch) ""
  return Ring.index 6 epoch

namespace Contract

variable (s : Contract)

/-! ## The ring buffer -/

/-- `_getSnapshot`, which says whether there is one. -/
def getSnapshotOf (epoch : Nat) : Except Revert (Bool × Snapshot) := do
  let temp := s.snapshots (← indexFor epoch)
  let found ← epochFor s.epochLength temp.blockClaims.height.toNat
  return if found = epoch then (true, temp) else (false, .empty)

/-- `_getLastSnapshot`; the first epoch is `1`. -/
def getLastSnapshot : Except Revert (Bool × Snapshot) := s.getSnapshotOf (max 1 s.epoch)

def setSnapshot (new : Snapshot) : Except Revert Contract := do
  let epoch ← epochFor s.epochLength new.blockClaims.height.toNat
  let index ← indexFor epoch
  require ((s.snapshots index).blockClaims.height < new.blockClaims.height)
    "invalid new blockheight"
  return { s with epoch, snapshots := Function.update s.snapshots index new }

/-! ## Public functions -/

/-- `snapshot`, which says whether consensus may go on. -/
def snapshot (ctx : Ctx) (groupSignature bClaims : Bytes) : Except Revert (Bool × Contract) := do
  require ctx.isValidator "400"
  require ctx.isConsensusRunning "401"
  let (_, lastSnapshot) ← s.getLastSnapshot
  let earliest ← checked 256 (lastSnapshot.committedAt + s.minimumIntervalBetweenSnapshots)
  require (earliest ≤ ctx.blockNumber) "402"
  let epoch ← checked 32 (s.epoch + 1)
  let (masterPublicKey, signature) ← extractSigGroup groupSignature 0
  require (ctx.keccak256 (masterPublicKey.flatMap (ofNatBE 32)) = ctx.masterPublicKeyHash) "404"
  let verified ← ctx.verifySignatureASM (ctx.keccak256 bClaims) signature masterPublicKey
  require verified "405"
  let blockClaims ← extractBClaims bClaims
  let height ← checked 256 (epoch * s.epochLength)
  require (height = blockClaims.height.toNat) "406"
  require (blockClaims.chainID.toNat = s.chainId) "407"
  if ctx.isMaintenanceScheduled then
    ctx.pauseConsensus
    return (false, ← s.setSnapshot ⟨ctx.blockNumber, blockClaims⟩)
  else
    return (true, ← s.setSnapshot ⟨ctx.blockNumber, blockClaims⟩)

def getEpoch : Nat := s.epoch

def getSnapshot (epoch : Nat) : Snapshot := s.snapshots (Ring.index 6 epoch)

def getBlockClaimsFromSnapshot (epoch : Nat) : Codec.BClaims := (s.getSnapshot epoch).blockClaims

def getCommittedHeightFromSnapshot (epoch : Nat) : Nat := (s.getSnapshot epoch).committedAt

/-- Calls of `snapshot` that all succeed. -/
def takeSnapshots (s : Contract) : List (Ctx × Bytes × Bytes) → Except Revert Contract
  | [] => .ok s
  | (ctx, groupSignature, bClaims) :: calls => do
    let (_, s) ← s.snapshot ctx groupSignature bClaims
    takeSnapshots s calls

end Contract

/-! ## Snapshots that have been taken -/

/-- The height of a snapshot says its epoch. -/
theorem epochFor_mul {epochLength n : Nat} (hL : 0 < epochLength) (hn : 0 < n)
    (hlt : n * epochLength < 2 ^ 32) :
    epochFor epochLength (n * epochLength) = .ok n := by
  have hle : n ≤ n * epochLength := Nat.le_mul_of_pos_right n hL
  unfold epochFor getEpochFromHeight
  by_cases hfirst : n * epochLength ≤ epochLength
  · have hone : n = 1 := by
      by_contra hne
      have : 2 * epochLength ≤ n * epochLength := mul_le_mul_right _ (by omega)
      omega
    rw [if_pos hfirst, hone]
    rfl
  · rw [if_neg hfirst, if_neg (by omega), if_pos (Nat.mul_mod_left n epochLength),
      Nat.mul_div_cancel n hL]
    change Except.ok (n % 2 ^ 32) = Except.ok n
    rw [Nat.mod_eq_of_lt (by omega)]

theorem indexFor_of_pos {epoch : Nat} (h : 0 < epoch) :
    indexFor epoch = .ok (Ring.index 6 epoch) := by
  unfold indexFor
  rw [decide_eq_true h]
  rfl

theorem getSnapshotOf_eq {s : Contract} {epoch : Nat} (hpos : 0 < epoch)
    (hfound : epochFor s.epochLength (s.getSnapshot epoch).blockClaims.height.toNat = .ok epoch) :
    s.getSnapshotOf epoch = .ok (true, s.getSnapshot epoch) := by
  unfold Contract.getSnapshotOf
  rw [indexFor_of_pos hpos, Prog.ok_bind]
  refine Prog.bind_eq_ok.mpr ⟨epoch, hfound, ?_⟩
  rw [if_pos rfl]
  rfl

/-- The blocks of Ethereum in which the epochs from `0` on were committed. -/
def commits (taken : List Snapshot) : List Nat := 0 :: taken.map (·.committedAt)

structure Took (c : Contract) (taken : List Snapshot) (s : Contract) : Prop where
  epochLength : s.epochLength = c.epochLength
  minimumInterval : s.minimumIntervalBetweenSnapshots = c.minimumIntervalBetweenSnapshots
  epoch : s.epoch = taken.length
  buffer : Ring.Holds .empty taken s.snapshots
  height : ∀ i (hi : i < taken.length), taken[i].blockClaims.height.toNat = (i + 1) * c.epochLength
  pos : ∀ i (hi : i < taken.length), 0 < taken[i].blockClaims.height.toNat
  spaced : ∀ i (hi : i < taken.length),
    (commits taken).getD i 0 + c.minimumIntervalBetweenSnapshots ≤ taken[i].committedAt

namespace Took

variable {c s s' : Contract} {taken : List Snapshot}

theorem epochLength_pos (h : Took c taken s) {i : Nat} (hi : i < taken.length) :
    0 < c.epochLength := by
  have hpos := h.pos i hi
  rw [h.height i hi] at hpos
  exact Nat.pos_of_mul_pos_left hpos

theorem mul_lt (h : Took c taken s) {i : Nat} (hi : i < taken.length) :
    (i + 1) * c.epochLength < 2 ^ 32 := by
  rw [← h.height i hi]
  exact taken[i].blockClaims.height.toNat_lt

theorem getSnapshot (h : Took c taken s) {i : Nat} (hi : i < taken.length)
    (hrecent : taken.length ≤ i + 6) :
    s.getSnapshot (i + 1) = taken[i] := h.buffer.recent i hi hrecent

/-- The last snapshot is found, and before the first one the empty slot. -/
theorem getLastSnapshot (h : Took c taken s) :
    ∃ last, s.getLastSnapshot = .ok (true, last) ∧ last.committedAt = (commits taken).getD
      taken.length 0 := by
  unfold Contract.getLastSnapshot
  rw [h.epoch]
  cases hlen : taken.length with
  | zero =>
    have hblank : s.getSnapshot 1 = .empty := h.buffer.blank 1 fun i hi => by omega
    have hfound : epochFor s.epochLength (s.getSnapshot 1).blockClaims.height.toNat = .ok 1 := by
      rw [hblank]
      rfl
    refine ⟨.empty, ?_, rfl⟩
    rw [← hblank]
    exact getSnapshotOf_eq one_pos hfound
  | succ n =>
    have hn : n < taken.length := by omega
    have hlast := h.getSnapshot hn (by omega)
    have hfound : epochFor s.epochLength (s.getSnapshot (n + 1)).blockClaims.height.toNat =
      .ok (n + 1) := by
      rw [hlast, h.epochLength, h.height n hn]
      exact epochFor_mul (h.epochLength_pos hn) (succ_pos n) (h.mul_lt hn)
    refine ⟨taken[n], ?_, ?_⟩
    · rw [← hlast, max_eq_right (succ_pos n)]
      exact getSnapshotOf_eq (succ_pos n) hfound
    · rw [commits, getD_cons_succ, getD_eq_getElem?_getD, getElem?_map, getElem?_eq_getElem hn]
      rfl

theorem fresh (c : Contract) (hepoch : c.epoch = 0) (hempty : c.snapshots = fun _ => .empty) :
    Took c [] c where
  epochLength := rfl
  minimumInterval := rfl
  epoch := hepoch
  buffer := by
    rw [hempty]
    exact Ring.holds_nil
  height i hi := absurd hi (not_lt_zero i)
  pos i hi := absurd hi (not_lt_zero i)
  spaced i hi := absurd hi (not_lt_zero i)

/-- A snapshot of the next epoch is stored. -/
theorem setSnapshot (h : Took c taken s) {new : Snapshot}
    (hheight : new.blockClaims.height.toNat = (taken.length + 1) * c.epochLength)
    (hspaced : (commits taken).getD taken.length 0 + c.minimumIntervalBetweenSnapshots ≤
      new.committedAt)
    (hset : s.setSnapshot new = .ok s') : Took c (taken ++ [new]) s' := by
  obtain ⟨epoch, index, hepoch, hindex, h2⟩ := bind₂_ok hset
  obtain ⟨_, hnewer, h3⟩ := bind_ok h2
  have hpos : 0 < new.blockClaims.height.toNat :=
    lt_of_le_of_lt (zero_le _) (of_decide_eq_true (require_eq_ok.mp hnewer))
  have hL : 0 < c.epochLength := by
    rw [hheight] at hpos
    exact Nat.pos_of_mul_pos_left hpos
  have hlt : (taken.length + 1) * c.epochLength < 2 ^ 32 := by
    rw [← hheight]
    exact new.blockClaims.height.toNat_lt
  rw [h.epochLength, hheight, epochFor_mul hL (succ_pos _) hlt] at hepoch
  cases hepoch
  rw [indexFor_of_pos (succ_pos _)] at hindex
  cases hindex
  cases h3
  have hall {P : Nat → Snapshot → Prop} (hold : ∀ i (hi : i < taken.length), P i taken[i])
      (hnew : P taken.length new) (i : Nat) (hi : i < (taken ++ [new]).length) : P i
      (taken ++ [new])[i] := by
    rw [length_append, length_singleton] at hi
    rcases lt_or_eq_of_le (le_of_lt_succ hi) with hlt | rfl
    · rw [getElem_append_left hlt]
      exact hold i hlt
    · rw [getElem_concat_length rfl]
      exact hnew
  have hcommits (i : Nat) (hi : i ≤ taken.length) : (commits (taken ++ [new])).getD i 0 =
    (commits taken).getD i 0 := by
    have happend : commits (taken ++ [new]) = commits taken ++
      [new.committedAt] := by simp [commits]
    have hlt : i < (commits taken).length := by simpa [commits] using lt_succ_of_le hi
    rw [happend, getD_eq_getElem?_getD, getD_eq_getElem?_getD, getElem?_append_left hlt]
  exact
    { epochLength := h.epochLength
      minimumInterval := h.minimumInterval
      epoch := by simp
      buffer := h.buffer.push new
      height :=
        hall (P := fun i t => t.blockClaims.height.toNat = (i + 1) * c.epochLength) h.height hheight
      pos := hall (P := fun _ t => 0 < t.blockClaims.height.toNat) h.pos hpos
      spaced := by
        refine hall (P :=
          fun i t => (commits (taken ++ [new])).getD i 0 + c.minimumIntervalBetweenSnapshots ≤
          t.committedAt) (fun i hi => ?_) ?_
        · rw [hcommits i (le_of_lt hi)]
          exact h.spaced i hi
        · rw [hcommits _ (le_refl _)]
          exact hspaced }

/-- One call. -/
theorem snapshot (h : Took c taken s) {ctx : Ctx} {groupSignature bClaims : Bytes} {safe : Bool}
    (hcall : s.snapshot ctx groupSignature bClaims = .ok (safe, s')) :
    ∃ claims, extractBClaims bClaims = .ok claims ∧ Took c (taken ++ [⟨ctx.blockNumber, claims⟩])
      s' := by
  obtain ⟨_, _, -, -, h2⟩ := bind₂_ok hcall
  obtain ⟨⟨_, last⟩, earliest, hlast, hearliest, h4⟩ := bind₂_ok h2
  obtain ⟨_, epoch, hinterval, hepoch, h6⟩ := bind₂_ok h4
  obtain ⟨⟨masterPublicKey, signature⟩, _, -, -, h8⟩ := bind₂_ok h6
  obtain ⟨verified, _, -, -, h10⟩ := bind₂_ok h8
  obtain ⟨claims, height, hclaims, hheight, h12⟩ := bind₂_ok h10
  obtain ⟨_, _, hequal, -, h14⟩ := bind₂_ok h12
  have hset : s.setSnapshot ⟨ctx.blockNumber, claims⟩ = .ok s' := by
    split at h14
    next =>
      obtain ⟨_, s1, -, hs1, h16⟩ := bind₂_ok h14
      cases h16
      exact hs1
    next =>
      obtain ⟨s1, hs1, h15⟩ := bind_ok h14
      cases h15
      exact hs1
  obtain ⟨last', hlast', hcommitted⟩ := h.getLastSnapshot
  obtain ⟨-, rfl⟩ := Prod.mk.inj (Except.ok.inj (hlast'.symm.trans hlast))
  obtain ⟨-, rfl⟩ := checked_eq_ok.mp hearliest
  obtain ⟨-, rfl⟩ := checked_eq_ok.mp hepoch
  obtain ⟨-, rfl⟩ := checked_eq_ok.mp hheight
  refine ⟨claims, hclaims, h.setSnapshot ?_ ?_ hset⟩
  · rw [← of_decide_eq_true (require_eq_ok.mp hequal), h.epoch, h.epochLength]
  · rw [← hcommitted, ← h.minimumInterval]
    exact of_decide_eq_true (require_eq_ok.mp hinterval)

theorem takeSnapshots (h : Took c taken s) {calls : List (Ctx × Bytes × Bytes)}
    (hcalls : s.takeSnapshots calls = .ok s') : ∃ more, List.Forall₂ (fun call t =>
      t.committedAt = call.1.blockNumber ∧ extractBClaims call.2.2 = .ok t.blockClaims) calls more ∧
      Took c (taken ++ more) s' := by
  induction calls generalizing s taken with
  | nil =>
    cases hcalls
    exact ⟨[], .nil, by rwa [append_nil]⟩
  | cons call calls ih =>
    obtain ⟨⟨_, s1⟩, hcall, hrest⟩ := bind_ok hcalls
    obtain ⟨claims, hclaims, htook⟩ := h.snapshot hcall
    obtain ⟨more, hmore, htook'⟩ := ih htook hrest
    exact ⟨_ :: more, .cons ⟨rfl, hclaims⟩ hmore, by rwa [append_assoc] at htook'⟩

/-- What the public getters show for an epoch that is not one of the last six. -/
theorem getSnapshot_other_iff (h : Took c taken s) {e : Nat}
    (he : ¬(0 < e ∧ e ≤ taken.length ∧ taken.length < e + 6)) :
    (∀ i t, taken[i]? = some t → i + 1 ≠ e → s.getSnapshot e ≠ t ∧
        s.getBlockClaimsFromSnapshot e ≠ t.blockClaims ∧
        (0 < t.committedAt → s.getCommittedHeightFromSnapshot e ≠ t.committedAt)) ↔
      ∀ i < taken.length, (i + 1) % 6 ≠ e % 6 := by
  constructor
  · intro hother i hi heq
    obtain ⟨m, hm, hrecent, -, hread⟩ := h.buffer.exists_recent hi heq
    exact (hother m taken[m] (getElem?_eq_getElem hm) (by omega)).1 hread
  · intro hfree i t ht _
    have hblank : s.getSnapshot e = .empty := h.buffer.blank e hfree
    obtain ⟨hi, rfl⟩ := List.getElem?_eq_some_iff.mp ht
    have hpos := h.pos i hi
    have hclaims : Snapshot.empty.blockClaims ≠ taken[i].blockClaims := by
      intro heq
      rw [← heq] at hpos
      cases hpos
    unfold Contract.getBlockClaimsFromSnapshot Contract.getCommittedHeightFromSnapshot
    rw [hblank]
    exact ⟨fun heq => hclaims (congrArg Snapshot.blockClaims heq), hclaims,
      fun hcommitted => Nat.ne_of_lt hcommitted⟩

end Took

/-- The epoch counts the snapshots, and the last six are read as they were taken. For any other
epoch the public getters show no other snapshot exactly if no snapshot has been stored in its slot.
-/
theorem getSnapshot_takeSnapshots {epochLength chainId minimumInterval : Nat}
    {calls : List (Ctx × Bytes × Bytes)}
    {s : Contract}
    (h : (Contract.fresh epochLength chainId minimumInterval).takeSnapshots calls = .ok s) :
    ∃ taken, List.Forall₂ (fun call t =>
        t.committedAt = call.1.blockNumber ∧ extractBClaims
        call.2.2 = .ok t.blockClaims) calls taken ∧
      s.getEpoch = calls.length ∧
      (∀ e, 0 < e ∧ e ≤ calls.length ∧ calls.length < e + 6 → ∃ t, taken[e - 1]? = some t ∧
        s.getSnapshot e = t ∧
        t.blockClaims.height.toNat = e * epochLength ∧
        (commits taken).getD (e - 1) 0 + minimumInterval ≤ t.committedAt) ∧
      ∀ e, ¬(0 < e ∧ e ≤ calls.length ∧ calls.length < e + 6) →
        ((∀ i t, taken[i]? = some t → i + 1 ≠ e → s.getSnapshot e ≠ t ∧
            s.getBlockClaimsFromSnapshot e ≠ t.blockClaims ∧
            (0 < t.committedAt → s.getCommittedHeightFromSnapshot e ≠ t.committedAt)) ↔
          ∀ i < calls.length, (i + 1) % 6 ≠ e % 6) := by
  obtain ⟨taken, hcalls, htook⟩ :=
    (Took.fresh (Contract.fresh epochLength chainId minimumInterval) rfl
    rfl).takeSnapshots h
  rw [nil_append] at htook
  rw [hcalls.length_eq]
  refine ⟨taken, hcalls, htook.epoch, fun e he => ?_, fun e he => htook.getSnapshot_other_iff he⟩
  obtain ⟨hpos, hle, hrecent⟩ := he
  obtain ⟨i, rfl⟩ : ∃ i, e = i + 1 := ⟨e - 1, by omega⟩
  have hi : i < taken.length := hle
  exact ⟨taken[i], getElem?_eq_getElem hi, htook.getSnapshot hi (by omega), htook.height i hi,
    htook.spaced i hi⟩

/-! ## Snapshots of every fourth block -/

/-- The snapshot of an epoch, ten blocks after the one before; the context accepts every
signature. -/
def epochCall (epoch : Nat) : Ctx × Bytes × Bytes :=
  ({ blockNumber := 10 * epoch
     isValidator := true
     isConsensusRunning := true
     isMaintenanceScheduled := false
     pauseConsensus := .ok ()
     masterPublicKeyHash := []
     keccak256 := fun _ => []
     verifySignatureASM := fun _ _ _ => .ok true },
    List.replicate 192 0,
    [0, 0, 0, 0, 2, 0, 4, 0, 1, 0, 0, 0, UInt8.ofNat (4 * epoch), 0, 0, 0] ++ List.replicate 168 0)

def firstSnapshot : Snapshot := ⟨10, { Snapshot.empty.blockClaims with chainID := 1, height := 4 }⟩

/-- Epoch `7` is not there yet, and the getter shows the snapshot of epoch `1`. -/
theorem getSnapshot_future : ∃ s, (Contract.fresh 4 1 1).takeSnapshots [epochCall 1] = .ok s ∧
    s.getSnapshot 1 = firstSnapshot ∧ s.getSnapshot 7 = firstSnapshot ∧
    s.getBlockClaimsFromSnapshot 7 = firstSnapshot.blockClaims ∧
    s.getCommittedHeightFromSnapshot 7 = 10 := by
  have hread : ((Contract.fresh 4 1 1).takeSnapshots [epochCall 1]).map
      (fun s => (s.getSnapshot 1, s.getSnapshot 7)) = .ok (firstSnapshot, firstSnapshot) := by
    decide +kernel
  obtain ⟨s, hs, heq⟩ := Prog.except_map_eq_ok.mp hread
  have hseventh : s.getSnapshot 7 = firstSnapshot := congrArg Prod.snd heq
  refine ⟨s, hs, congrArg Prod.fst heq, hseventh, ?_, ?_⟩
  · rw [Contract.getBlockClaimsFromSnapshot, hseventh]
  · rw [Contract.getCommittedHeightFromSnapshot, hseventh]
    rfl

/-- The ring has six places: the seventh snapshot takes that of the first one, and the second is
still there. -/
theorem getSnapshot_takeSnapshots_seven : ∃ s,
    (Contract.fresh 4 1 1).takeSnapshots ((range' 1 7).map epochCall) = .ok s ∧ s.getEpoch = 7 ∧
    (s.getSnapshot 2).blockClaims.height.toNat = 8 ∧
    (s.getSnapshot 7).blockClaims.height.toNat = 28 ∧
    ∃ taken : List Snapshot, taken.length = 7 ∧
      ¬∀ i t, taken[i]? = some t → i + 1 ≠ 1 → s.getSnapshot 1 ≠ t ∧
        s.getBlockClaimsFromSnapshot 1 ≠ t.blockClaims ∧
        (0 < t.committedAt → s.getCommittedHeightFromSnapshot 1 ≠ t.committedAt) := by
  obtain ⟨s, hs⟩ := Prog.exists_ok_of_isOk
    (x := (Contract.fresh 4 1 1).takeSnapshots ((range' 1 7).map epochCall)) (by decide +kernel)
  obtain ⟨taken, hcalls, hepoch, hrecent, hother⟩ := getSnapshot_takeSnapshots hs
  obtain ⟨t₂, -, hread₂, hheight₂, -⟩ := hrecent 2 (by decide)
  obtain ⟨t₇, -, hread₇, hheight₇, -⟩ := hrecent 7 (by decide)
  refine ⟨s, hs, hepoch, by rw [hread₂, hheight₂], by rw [hread₇, hheight₇], taken,
    hcalls.length_eq.symm, fun hall => ?_⟩
  have hplaces := (hother 1 (by decide)).mp hall
  exact hplaces 6 (by decide) rfl

end MadNet.Snapshots
