import MadNet.Bridge.Accusations
import MadNet.Monitor.Members

/-!
# Rounds of `ETHDKG`

A round is carried by one counter that starts again in each phase. The counter is compared with the
number of validators, which the pool may change while no round is running. In a round that is
running and has no bad participants every validator has come equally far (`Round`), and the counter
says how many are one step ahead.
-/

namespace MadNet.Bridge

open Prog (bind_ok bind₂_ok)
open Monitor (Address G2Big Log PhaseEvent)
open Run List

/-- If one more member of a list is marked, it joins those that were. -/
theorem filter_perm_cons {α : Type} [DecidableEq α] {l : List α} {p q : α → Bool} {a : α}
    (hl : l.Nodup) (ha : a ∈ l) (hpa : p a = false) (hqa : q a = true)
    (h : ∀ x, x ≠ a → q x = p x) : (l.filter q).Perm (a :: l.filter p) := by
  have hnot : a ∉ l.filter p := by simp [hpa]
  refine (perm_ext_iff_of_nodup (hl.filter q) (nodup_cons.mpr ⟨hnot, hl.filter p⟩)).mpr fun x => ?_
  by_cases hx : x = a
  · simp [hx, ha, hqa]
  · simp [hx, h x hx]

/-! ## How far the validators have come -/

def Participant.level (p : Participant) (nonce : Nat) : Nat :=
  if p.nonce = nonce then
    match p.phase with
    | .registrationOpen => 1
    | .shareDistribution => 2
    | .keyShareSubmission => 3
    | .gpkjSubmission => 4
    | _ => 0
  else 0

theorem Participant.level_le (p : Participant) (nonce : Nat) : p.level nonce ≤ 4 := by
  unfold level
  split
  · split <;> decide
  · decide

theorem Participant.level_eq_four {p : Participant} {nonce : Nat} :
    p.level nonce = 4 ↔ p.nonce = nonce ∧ p.phase = .gpkjSubmission := by
  unfold level
  by_cases hnonce : p.nonce = nonce
  · cases hphase : p.phase <;> simp [hnonce]
  · simp [hnonce]

/-- How far everyone had come when the phase began. -/
def Phase.base : Phase → Nat
  | .registrationOpen => 0
  | .shareDistribution => 1
  | .disputeShareDistribution => 2
  | .keyShareSubmission => 2
  | .mpkSubmission => 3
  | .gpkjSubmission => 3
  | .disputeGPKJSubmission => 4
  | .completion => 4

/-- The sum of the points in the order in which they come. -/
def Precompiles.sum (L : Precompiles) (points : List Point) : Option Point :=
  points.foldlM L.add (0, 0)

namespace Ethdkg

variable {L : Precompiles} {s : Ethdkg} {vs : List Address} {a b : Address}

/-- How far the address has come in the current round. -/
def level (s : Ethdkg) (a : Address) : Nat := (s.participants a).level s.nonce

/-- Those that have come at least as far as `k`. -/
def reached (s : Ethdkg) (vs : List Address) (k : Nat) : List Address :=
  vs.filter fun a => k ≤ s.level a

/-- A round with the validators `vs`, of which `n` have taken part in the current phase. -/
structure Round (L : Precompiles) (s : Ethdkg) (vs : List Address) (n : Nat) : Prop where
  members : ∀ a, (s.participants a).nonce = s.nonce → a ∈ vs
  levels : ∀ a ∈ vs, s.level a = s.phase.base ∨ s.level a = s.phase.base + 1
  count : (s.reached vs (s.phase.base + 1)).length = n
  indices : ((s.reached vs 1).map fun a => (s.participants a).index).Perm
    (range' 1 (s.reached vs 1).length)
  mpkG1 : s.reached vs 3 ≠ [] → ∃ l : List Address, l.Perm (s.reached vs 3) ∧
    L.sum (l.map fun a => (s.participants a).keyShares) = some s.mpkG1

variable {k n block : Nat}

theorem mem_reached : a ∈ s.reached vs k ↔ a ∈ vs ∧ k ≤ s.level a := by
  rw [reached, mem_filter, decide_eq_true_eq]

theorem level_setParticipant (s : Ethdkg) (a b : Address) (p : Participant) :
    (s.setParticipant a p).level b = if b = a then p.level s.nonce else s.level b := by
  by_cases h : b = a
  · subst h
    simp [level, setParticipant]
  · simp [level, setParticipant, h]

@[simp] theorem phase_setParticipant (s : Ethdkg) (a : Address) (p : Participant) :
    (s.setParticipant a p).phase = s.phase := rfl

variable {p : Participant}

theorem participants_setParticipant_of_ne (h : b ≠ a) :
    (s.setParticipant a p).participants b = s.participants b := by
  simp [setParticipant, h]

theorem reached_setParticipant (h : k ≤ s.level a ↔ k ≤ p.level s.nonce) :
    (s.setParticipant a p).reached vs k = s.reached vs k := by
  refine filter_congr fun b _ => ?_
  rw [level_setParticipant]
  by_cases hb : b = a
  · subst hb
    simp [h]
  · simp [hb]

theorem reached_setParticipant_perm (hvs : vs.Nodup) (ha : a ∈ vs)
    (hs : s.level a < k) (hp : k ≤ p.level s.nonce) :
    ((s.setParticipant a p).reached vs k).Perm (a :: s.reached vs k) := by
  refine filter_perm_cons hvs ha (by simpa using hs) ?_ fun b hb => ?_
  · simpa [level_setParticipant] using hp
  · simp [level_setParticipant, hb]

namespace Round

variable {n : Nat}

/-- Everyone has come as far as the phase requires. -/
theorem reached_eq (h : s.Round L vs n) {k : Nat} (hk : k ≤ s.phase.base) :
    s.reached vs k = vs := by
  refine filter_eq_self.mpr fun a ha => ?_
  have := h.levels a ha
  simp only [decide_eq_true_eq]
  omega

theorem level_eq_of_full (h : s.Round L vs vs.length) (ha : a ∈ vs) :
    s.level a = s.phase.base + 1 := by
  have hall := length_filter_eq_length_iff.mp h.count a ha
  have := h.levels a ha
  simp only [decide_eq_true_eq] at hall
  omega

/-- The next phase starts with a new count. -/
theorem setPhase (h : s.Round L vs n) (block : Nat) (phase : Phase)
    (hall : ∀ a ∈ vs, s.level a = phase.base) : (s.setPhase block phase).Round L vs 0 where
  members := h.members
  levels a ha := .inl (hall a ha)
  count := by
    refine length_eq_zero_iff.mpr (filter_eq_nil_iff.mpr fun a ha => ?_)
    change ¬decide (phase.base + 1 ≤ s.level a) = true
    simp [hall a ha]
  indices := h.indices
  mpkG1 := h.mpkG1

theorem moveToNextPhase (h : s.Round L vs n) {phase : Phase} (block : Nat)
    (hphase : phase.base = s.phase.base + 1) :
    (s.moveToNextPhase block phase vs.length n).2.Round L vs
      (s.moveToNextPhase block phase vs.length n).2.numParticipants := by
  unfold Ethdkg.moveToNextPhase
  split
  · rename_i hn
    subst hn
    have := h.setPhase block phase fun a ha => (h.level_eq_of_full ha).trans hphase.symm
    exact ⟨this.members, this.levels, this.count, this.indices, this.mpkG1⟩
  · exact ⟨h.members, h.levels, h.count, h.indices, h.mpkG1⟩

theorem level_eq_of_zero (h : s.Round L vs 0) (ha : a ∈ vs) : s.level a = s.phase.base := by
  have hnone := filter_eq_nil_iff.mp (length_eq_zero_iff.mp h.count) a ha
  have := h.levels a ha
  simp only [decide_eq_true_eq] at hnone
  omega

theorem mem_of_level (h : s.Round L vs n) (ha : s.level a ≠ 0) : a ∈ vs := by
  refine h.members a ?_
  by_contra hne
  exact ha (if_neg hne)

theorem index_mem (h : s.Round L vs n) (ha : a ∈ s.reached vs 1) :
    1 ≤ (s.participants a).index ∧ (s.participants a).index ≤ vs.length := by
  have hmem := h.indices.subset (mem_map_of_mem ha)
  have hle : (s.reached vs 1).length ≤ vs.length := length_filter_le _ _
  have := mem_range'_1.mp hmem
  omega

theorem index_inj (h : s.Round L vs n) (ha : a ∈ s.reached vs 1) (hb : b ∈ s.reached vs 1)
    (heq : (s.participants a).index = (s.participants b).index) : a = b := by
  have hnodup := h.indices.nodup_iff.mpr (nodup_range' _)
  exact inj_on_of_nodup_map hnodup ha hb heq

end Round

/-- The record `p` takes the address `a` one step ahead. -/
structure Ahead (L : Precompiles) (s : Ethdkg) (a : Address) (p : Participant)
    (n : Nat) (m : Point) :
    Prop where
  current : p.nonce = s.nonce
  before : s.level a = s.phase.base
  after : p.level s.nonce = s.phase.base + 1
  index : p.index = if s.phase.base = 0 then n + 1 else (s.participants a).index
  keyShares : 3 ≤ s.phase.base → p.keyShares = (s.participants a).keyShares
  mpkG1 : if s.phase.base = 2 then L.add (if 1 < n + 1 then s.mpkG1 else (0, 0))
    p.keyShares = some m
    else m = s.mpkG1

variable {m : Point}

theorem Ahead.level_setParticipant (hp : s.Ahead L a p n m) (b : Address) :
    (s.setParticipant a p).level b = if b = a then s.phase.base + 1 else s.level b := by
  rw [Ethdkg.level_setParticipant, hp.after]

theorem Round.indices_ahead (h : s.Round L vs n) (hvs : vs.Nodup) (ha : a ∈ vs)
    (hp : s.Ahead L a p n m) :
    (((s.setParticipant a p).reached vs 1).map fun b =>
      ((s.setParticipant a p).participants b).index).Perm
    (range' 1 ((s.setParticipant a p).reached vs 1).length) := by
  have hne : ∀ b ∈ s.reached vs 1, p.index = (s.participants a).index ∨ b ≠ a →
      ((s.setParticipant a p).participants b).index = (s.participants b).index := by
    intro b _ hb
    by_cases hba : b = a
    · subst hba
      simpa [setParticipant] using hb
    · rw [participants_setParticipant_of_ne hba]
  by_cases hbase : s.phase.base = 0
  · -- The address registers, with the next index.
    have hbefore := hp.before
    have hperm : ((s.setParticipant a p).reached vs 1).Perm (a :: s.reached vs 1) :=
      reached_setParticipant_perm hvs ha (by omega) (by rw [hp.after]; omega)
    have hcount : (s.reached vs 1).length = n := by simpa [hbase] using h.count
    have hmap : (s.reached vs 1).map (fun b => ((s.setParticipant a p).participants b).index) =
        (s.reached vs 1).map fun b => (s.participants b).index := by
      refine map_congr_left fun b hb => hne b hb (.inr ?_)
      rintro rfl
      have hb1 := (mem_reached.mp hb).2
      omega
    have hindex : ((s.setParticipant a p).participants a).index = n + 1 := by
      simp [setParticipant, hp.index, hbase]
    refine (hperm.map _).trans ?_
    rw [hperm.length_eq, length_cons, map_cons, hmap, hindex, hcount, range'_1_concat,
      Nat.add_comm 1 n]
    refine (h.indices.cons (n + 1)).trans ?_
    rw [hcount]
    exact (perm_append_singleton _ _).symm
  · have hindex : p.index = (s.participants a).index := by simpa [hbase] using hp.index
    have hsame : (s.setParticipant a p).reached vs 1 = s.reached vs 1 := by
      refine reached_setParticipant ?_
      have := hp.before
      rw [hp.after]
      omega
    rw [hsame, map_congr_left fun b hb => hne b hb (.inl hindex)]
    exact h.indices

theorem Round.mpkG1_ahead (h : s.Round L vs n) (hvs : vs.Nodup) (ha : a ∈ vs)
    (hp : s.Ahead L a p n m)
    (hne : (s.setParticipant a p).reached vs 3 ≠ []) :
    ∃ l : List Address, l.Perm ((s.setParticipant a p).reached vs 3) ∧
      L.sum (l.map fun b => ((s.setParticipant a p).participants b).keyShares) = some m := by
  have hbefore := hp.before
  by_cases hbase : s.phase.base = 2
  · -- The address submits its key share, which is added to the sum of the others.
    have hadd := hp.mpkG1
    rw [if_pos hbase] at hadd
    have hperm : ((s.setParticipant a p).reached vs 3).Perm (a :: s.reached vs 3) :=
      reached_setParticipant_perm hvs ha (by omega) (by rw [hp.after]; omega)
    have hcount : (s.reached vs 3).length = n := by simpa [hbase] using h.count
    have hshare : ((s.setParticipant a p).participants a).keyShares = p.keyShares := by
      simp [setParticipant]
    by_cases hn : n = 0
    · have hnil : s.reached vs 3 = [] := length_eq_zero_iff.mp (hcount.trans hn)
      rw [hnil] at hperm
      refine ⟨[a], hperm.symm, ?_⟩
      simpa [Precompiles.sum, hshare, hn] using hadd
    · obtain ⟨l, hl, hsum⟩ := h.mpkG1 fun hnil => hn (by rw [← hcount, hnil]; rfl)
      have hmap : l.map (fun b => ((s.setParticipant a p).participants b).keyShares) =
          l.map fun b => (s.participants b).keyShares := by
        refine map_congr_left fun b hb => ?_
        rw [participants_setParticipant_of_ne]
        rintro rfl
        have hb3 := (mem_reached.mp (hl.subset hb)).2
        omega
      refine ⟨l ++ [a], (perm_append_singleton a l).trans ((hl.cons a).trans hperm.symm), ?_⟩
      rw [if_pos (by omega)] at hadd
      unfold Precompiles.sum at hsum ⊢
      rw [map_append, hmap, foldlM_append, hsum]
      simpa [hshare] using hadd
  · -- The sum is not touched, and neither are the key shares in it.
    have hm := hp.mpkG1
    rw [if_neg hbase] at hm
    have hsame : (s.setParticipant a p).reached vs 3 = s.reached vs 3 := by
      refine reached_setParticipant ?_
      rw [hp.after]
      omega
    rw [hsame] at hne ⊢
    obtain ⟨l, hl, hsum⟩ := h.mpkG1 hne
    refine ⟨l, hl, ?_⟩
    rw [hm, ← hsum]
    congr 1
    refine map_congr_left fun b hb => ?_
    by_cases hba : b = a
    · subst hba
      have hb3 := (mem_reached.mp (hl.subset hb)).2
      simpa [setParticipant] using hp.keyShares (by omega)
    · rw [participants_setParticipant_of_ne hba]

/-- The step of a round. -/
theorem Round.ahead (h : s.Round L vs n) (hvs : vs.Nodup) (ha : a ∈ vs) (hp : s.Ahead L a p n m) :
    Round L { s.setParticipant a p with mpkG1 := m } vs (n + 1) where
  members b hb := by
    by_cases hba : b = a
    · rwa [hba]
    · change ((s.setParticipant a p).participants b).nonce = s.nonce at hb
      rw [participants_setParticipant_of_ne hba] at hb
      exact h.members b hb
  levels b hb := by
    change (s.setParticipant a p).level b = _ ∨ (s.setParticipant a p).level b = _
    rw [hp.level_setParticipant]
    by_cases hba : b = a
    · simp [hba]
    · simpa [hba] using h.levels b hb
  count := by
    have hbefore := hp.before
    have hperm : ((s.setParticipant a p).reached vs (s.phase.base + 1)).Perm
        (a :: s.reached vs (s.phase.base + 1)) :=
      reached_setParticipant_perm hvs ha (by omega) (Nat.le_of_eq hp.after.symm)
    exact hperm.length_eq.trans (congrArg (· + 1) h.count)
  indices := h.indices_ahead hvs ha hp
  mpkG1 := h.mpkG1_ahead hvs ha hp

/-! ## What a call does -/

/-- A round is running and has no bad participants. -/
def Live (s : Ethdkg) (block : Nat) : Prop :=
  s.badParticipants = 0 ∧ s.isETHDKGRunning block = .ok true

instance (s : Ethdkg) (block : Nat) : Decidable (s.Live block) :=
  inferInstanceAs (Decidable (_ ∧ _))

theorem phaseEnd_eq_ok : s.phaseEnd = .ok k ↔
    2 * s.phaseLength < 2 ^ 16 ∧ k = s.phaseStartBlock + 2 * s.phaseLength := by
  unfold phaseEnd
  generalize 2 ^ 16 = bound
  split <;> simp [*, eq_comm]

theorem live_iff : s.Live block ↔ s.badParticipants = 0 ∧ s.phaseStartBlock ≠ 0 ∧
    s.phase ≠ .completion ∧ 2 * s.phaseLength < 2 ^ 16 ∧
    block < s.phaseStartBlock + 2 * s.phaseLength := by
  unfold Live isETHDKGRunning isETHDKGHalted isETHDKGCompleted phaseEnd
  generalize 2 ^ 16 = bound
  refine and_congr_right fun hbad => ?_
  by_cases hstart : s.phaseStartBlock = 0
  · simp [hstart, pure, Except.pure]
  · by_cases hphase : s.phase = .completion
    · simp [hstart, hphase, pure, Except.pure]
    · by_cases hlen : 2 * s.phaseLength < bound
      · simp [hstart, hphase, hlen, hbad, bind, Except.bind, pure, Except.pure]
      · simp [hstart, hphase, hlen, bind, Except.bind]

theorem inPhase_iff {phase : Phase} : s.inPhase block phase = true ↔
    s.phase = phase ∧ s.phaseStartBlock ≤ block ∧ block < s.phaseStartBlock + s.phaseLength := by
  simp [inPhase, and_assoc]

theorem pastPhase_eq_true {phase : Phase} (h : s.pastPhase block phase = .ok true) :
    s.phase = phase ∧ 2 * s.phaseLength < 2 ^ 16 ∧
      block < s.phaseStartBlock + 2 * s.phaseLength := by
  unfold pastPhase at h
  split at h
  · rename_i hphase
    obtain ⟨k, hk, h⟩ := bind_ok h
    obtain ⟨hlength, rfl⟩ := phaseEnd_eq_ok.mp hk
    exact ⟨hphase.1, hlength, by simpa [pure, Except.pure] using h⟩
  · simp [pure, Except.pure] at h

/-- Nothing that a round consists of has changed. -/
structure SameRound (s s' : Ethdkg) : Prop where
  nonce : s'.nonce = s.nonce
  phaseStartBlock : s'.phaseStartBlock = s.phaseStartBlock
  phase : s'.phase = s.phase
  numParticipants : s'.numParticipants = s.numParticipants
  mpkG1 : s'.mpkG1 = s.mpkG1
  participants : s'.participants = s.participants

theorem SameRound.round {s' : Ethdkg} (h : SameRound s s') (hs : s.Round L vs n) :
    s'.Round L vs n := by
  obtain ⟨hnonce, -, hphase, -, hmpk, hparticipants⟩ := h
  cases s
  cases s'
  dsimp only at hnonce hphase hmpk hparticipants
  subst hnonce hphase hmpk hparticipants
  exact ⟨hs.members, hs.levels, hs.count, hs.indices, hs.mpkG1⟩

theorem SameRound.live {s' : Ethdkg} (h : SameRound s s') (hlength : s'.phaseLength = s.phaseLength)
    (hbad : s'.badParticipants = s.badParticipants) (hlive : s'.Live block) : s.Live block := by
  have := live_iff.mp hlive
  rw [h.phaseStartBlock, h.phase, hlength, hbad] at this
  exact live_iff.mpr this

theorem SameRound.refl (s : Ethdkg) : SameRound s s := ⟨rfl, rfl, rfl, rfl, rfl, rfl⟩

end Ethdkg

/-- The phases in which nobody takes part. -/
def Phase.rests : Phase → Bool
  | .disputeShareDistribution => true
  | .mpkSubmission => true
  | .disputeGPKJSubmission => true
  | .completion => true
  | _ => false

/-- What a validator has to do in a round. -/
inductive Duty where
  | register
  | distributeShares
  | submitKeyShare
  | submitGPKJ
  deriving DecidableEq

def Duty.phase : Duty → Phase
  | register => .registrationOpen
  | distributeShares => .shareDistribution
  | submitKeyShare => .keyShareSubmission
  | submitGPKJ => .gpkjSubmission

/-- The phase that starts when all have met the duty. -/
def Duty.next : Duty → Phase
  | register => .shareDistribution
  | distributeShares => .disputeShareDistribution
  | submitKeyShare => .mpkSubmission
  | submitGPKJ => .disputeGPKJSubmission

def slashedBy : Log → Option Address
  | .validatorMinorSlashed a _ => some a
  | .validatorMajorSlashed a => some a
  | _ => none

theorem silent_of_slashedBy {log : Log} {a : Address} (h : slashedBy log = some a) :
    log.silent = true := by
  cases log <;> first | rfl | cases h

namespace World

/-- The sender meets the duty in the state `s`, to which the phase may have been set. -/
structure Joins (L : Precompiles) (ctx : Ctx) (w : World) (d : Duty) (s : Ethdkg) (p : Participant)
    (m : Point) (log : Log) : Prop where
  state : s = w.ethdkg ∨
    w.ethdkg.phase = .disputeShareDistribution ∧ s = w.ethdkg.setPhase ctx.block .keyShareSubmission
  phase : s.phase = d.phase
  nonce : d = .register → w.ethdkg.nonce ≠ 0
  block : ctx.block < w.ethdkg.phaseStartBlock + 2 * w.ethdkg.phaseLength
  validator : ctx.sender ∈ w.pool.validators
  ahead : s.Ahead L ctx.sender p s.numParticipants m
  record : p.phase = d.phase
  logged : (d ≠ .submitGPKJ ∧ ∃ e, log = .phase e) ∨
    (d = .submitGPKJ ∧ log = .validatorMemberAdded ctx.sender p.index p.nonce ctx.epoch p.gpkj)

/-- What a successful call that opens no round does to the round. -/
inductive Effect (L : Precompiles) (ctx : Ctx) (w : World) (c : Call) (w' : World) : Prop
  /-- The call does not concern the round. -/
  | quiet (same : w.ethdkg.SameRound w'.ethdkg)
    (phaseLength : w'.ethdkg.phaseLength = w.ethdkg.phaseLength)
    (badParticipants : w'.ethdkg.badParticipants = w.ethdkg.badParticipants)
    (validators : w'.pool.validators = w.pool.validators)
    (logs : ∃ new, w'.logs = w.logs ++ new ∧ ∀ log ∈ new, log.silent = true)
  /-- No round is running, or it cannot be completed any more. -/
  | stopped (same : w.ethdkg.SameRound w'.ethdkg)
    (nodup : w.pool.validators.Nodup → w'.pool.validators.Nodup)
    (live : ¬w'.ethdkg.Live ctx.block)
    (logs : ∃ new, w'.logs = w.logs ++ new ∧ ∀ log ∈ new, log.silent = true)
  | ahead (d : Duty) (s : Ethdkg) (p : Participant) (m : Point) (log : Log) (done : PhaseEvent)
    (joins : Joins L ctx w d s p m log)
    (started : w.ethdkg.phase = .registrationOpen → w.ethdkg.phaseStartBlock ≠ 0)
    (eq : w' = w.takePart ctx d.next log done { s.setParticipant ctx.sender p with mpkG1 := m })
  | mpk (key : G2Big) (hash : Nat) (phase : w.ethdkg.phase = .mpkSubmission)
    (block : ctx.block < w.ethdkg.phaseStartBlock + 2 * w.ethdkg.phaseLength)
    (ethdkg : w'.ethdkg = Ethdkg.setPhase { w.ethdkg with
      masterPublicKey := key, masterPublicKeyHash := hash } ctx.block .gpkjSubmission)
    (validators : w'.pool.validators = w.pool.validators)
    (logs : w'.logs = w.logs ++ [.phase .mpkSet])
  | reset (height : Nat) (call : c = .pauseConsensusOnArbitraryHeight height)
    (same : w.ethdkg.SameRound w'.ethdkg)
    (phaseLength : w'.ethdkg.phaseLength = w.ethdkg.phaseLength)
    (badParticipants : w'.ethdkg.badParticipants = w.ethdkg.badParticipants)
    (validators : w'.pool.validators = w.pool.validators)
    (logs : w'.logs = w.logs ++ [.validatorSetCompleted 0 w.ethdkg.nonce ctx.epoch
      ctx.committedHeight height (0, 0, 0, 0)])
  | completed (height : Nat) (call : c = .complete) (validator : ctx.sender ∈ w.pool.validators)
    (phase : w.ethdkg.phase = .disputeGPKJSubmission)
    (badParticipants : w.ethdkg.badParticipants = 0)
    (phaseLength : 2 * w.ethdkg.phaseLength < 2 ^ 16)
    (block : ctx.block < w.ethdkg.phaseStartBlock + 2 * w.ethdkg.phaseLength)
    (ethdkg : w'.ethdkg = { w.ethdkg.setPhase ctx.block .completion with
      customAliceNetHeight := height })
    (validators : w'.pool.validators = w.pool.validators)
    (logs : w'.logs = w.logs ++ [.validatorSetCompleted (w.pool.validators.length % 2 ^ 8)
      w.ethdkg.nonce ctx.epoch ctx.committedHeight
      (if w.ethdkg.customAliceNetHeight = 0 then ctx.aliceNetHeight
        else w.ethdkg.customAliceNetHeight) w.ethdkg.masterPublicKey])
  /-- The validators are migrated before the first round. -/
  | migrated (accounts : List Address) (indexes : List Nat) (shares : List G2Big)
    (count epoch sideChainHeight ethHeight : Nat) (key : G2Big)
    (call : c = .migrateValidators accounts indexes shares count epoch sideChainHeight ethHeight
    key)
    (logs : w'.logs = w.logs ++ (.registrationOpened ctx.block (count % 2 ^ 8) 1 0 0 ::
      (accounts.zip (indexes.zip shares)).map (fun _ => .phase .addressRegistered) ++
      (accounts.zip (indexes.zip shares)).map (fun v =>
        .validatorMemberAdded v.1 v.2.1 1 epoch v.2.2) ++
      [.validatorSetCompleted (count % 2 ^ 8) 1 epoch ethHeight sideChainHeight key]))
    (lengths : accounts.length = indexes.length ∧ accounts.length = shares.length)
    (nonce : w.ethdkg.nonce = 0) (nonce' : w'.ethdkg.nonce = 1)
    (nonces : (∀ a, (w.ethdkg.participants a).nonce = 0) →
      ∀ a, (w'.ethdkg.participants a).nonce ≤ 1)
    (phaseStartBlock : w'.ethdkg.phaseStartBlock = w.ethdkg.phaseStartBlock)
    (phase : w'.ethdkg.phase = w.ethdkg.phase)
    (validators : w'.pool.validators = w.pool.validators)

variable {L : Precompiles} {roles : Roles} {ctx : Ctx} {w w' : World} {c : Call}

theorem onlyValidator_ok {u : Unit} (h : w.onlyValidator ctx = .ok u) :
    ctx.sender ∈ w.pool.validators := by
  simpa [onlyValidator, Pool.isValidator] using h

/-- The call is the one by which the duty is met. -/
inductive TakesPart (L : Precompiles) (ctx : Ctx) (w : World) (d : Duty) (w' : World) : Prop
  | intro (s : Ethdkg) (p : Participant) (m : Point) (log : Log) (done : PhaseEvent)
    (joins : Joins L ctx w d s p m log)
    (eq : w' = w.takePart ctx d.next log done { s.setParticipant ctx.sender p with mpkG1 := m })

theorem register_takesPart {publicKey : Point} (h : w.register ctx publicKey = .ok w') :
    TakesPart L ctx w .register w' := by
  obtain ⟨_, _, hvalidator, hphase, h⟩ := bind₂_ok h
  obtain ⟨_, _, -, -, h⟩ := bind₂_ok h
  obtain ⟨_, hnonce, h⟩ := bind_ok h
  obtain ⟨hphase, -, hblock⟩ := Ethdkg.inPhase_iff.mp (require_eq_ok.mp hphase)
  have hnonce : (w.ethdkg.participants ctx.sender).nonce < w.ethdkg.nonce := by simpa using hnonce
  refine .intro w.ethdkg _ w.ethdkg.mpkG1 _ _ ⟨.inl rfl, hphase, fun _ => by omega, by omega,
    onlyValidator_ok hvalidator, ?_, hphase, .inl ⟨nofun, _, rfl⟩⟩ (Except.ok.inj h).symm
  exact {
    current := rfl
    before := by
      rw [hphase]
      exact if_neg (Nat.ne_of_lt hnonce)
    after := by simp [Participant.level, hphase, Phase.base]
    index := by simp [hphase, Phase.base]
    keyShares := by simp [hphase, Phase.base]
    mpkG1 := by simp [hphase, Phase.base] }

theorem distributeShares_takesPart {encryptedShares : List Nat} {commitments : List Point}
    (h : w.distributeShares ctx L encryptedShares commitments = .ok w') :
    TakesPart L ctx w .distributeShares w' := by
  obtain ⟨_, _, hvalidator, hphase, h⟩ := bind₂_ok h
  obtain ⟨_, _, hnonce, hbefore, h⟩ := bind₂_ok h
  obtain ⟨_, _, -, -, h⟩ := bind₂_ok h
  obtain ⟨_, _, -, -, h⟩ := bind₂_ok h
  obtain ⟨hphase, -, hblock⟩ := Ethdkg.inPhase_iff.mp (require_eq_ok.mp hphase)
  have hnonce : (w.ethdkg.participants ctx.sender).nonce = w.ethdkg.nonce := by simpa using hnonce
  have hbefore : (w.ethdkg.participants ctx.sender).phase =
    .registrationOpen := by simpa using hbefore
  refine .intro w.ethdkg _ w.ethdkg.mpkG1 _ _ ⟨.inl rfl, hphase, nofun, by omega,
    onlyValidator_ok hvalidator, ?_, rfl, .inl ⟨nofun, _, rfl⟩⟩ (Except.ok.inj h).symm
  constructor <;> simp [Ethdkg.level, Participant.level, hnonce, hbefore, hphase, Phase.base]

theorem keySharePhase_ok {s : Ethdkg} (h : w.keySharePhase ctx = .ok s) :
    s.phase = .keyShareSubmission ∧
    ctx.block < w.ethdkg.phaseStartBlock + 2 * w.ethdkg.phaseLength ∧
    (s = w.ethdkg ∨ w.ethdkg.phase = .disputeShareDistribution ∧
      s = w.ethdkg.setPhase ctx.block .keyShareSubmission) := by
  unfold keySharePhase at h
  split at h
  · rename_i hphase
    obtain ⟨hphase, -, hblock⟩ := Ethdkg.inPhase_iff.mp hphase
    cases h
    exact ⟨hphase, by omega, .inl rfl⟩
  · obtain ⟨past, _, hpast, hbad, h⟩ := bind₂_ok h
    cases h
    simp only [require_eq_ok, Bool.and_eq_true] at hbad
    rw [hbad.1] at hpast
    obtain ⟨hphase, -, hblock⟩ := Ethdkg.pastPhase_eq_true hpast
    exact ⟨rfl, hblock, .inr ⟨hphase, rfl⟩⟩

theorem submitKeyShare_takesPart {keyShareG1 proof : Point} {keyShareG2 : G2Big}
    (h : w.submitKeyShare ctx L keyShareG1 proof keyShareG2 = .ok w') :
    TakesPart L ctx w .submitKeyShare w' := by
  obtain ⟨_, s, hvalidator, hs, h⟩ := bind₂_ok h
  obtain ⟨_, _, hnonce, hbefore, h⟩ := bind₂_ok h
  obtain ⟨_, _, -, -, h⟩ := bind₂_ok h
  obtain ⟨_, _, -, -, h⟩ := bind₂_ok h
  obtain ⟨m, hm, h⟩ := bind_ok h
  obtain ⟨hphase, hblock, hs⟩ := keySharePhase_ok hs
  have hnonce : (s.participants ctx.sender).nonce = s.nonce := by simpa using hnonce
  have hbefore : (s.participants ctx.sender).phase = .shareDistribution := by simpa using hbefore
  refine .intro s _ m _ _ ⟨hs, hphase, nofun, hblock, onlyValidator_ok hvalidator, ?_, rfl,
    .inl ⟨nofun, _, rfl⟩⟩ (Except.ok.inj h).symm
  have hm := Precompiles.call_eq_ok.mp hm
  simp only [Nat.lt_add_left_iff_pos] at hm
  constructor <;> simp [Ethdkg.level, Participant.level, hnonce, hbefore, hphase, Phase.base, hm]

theorem submitMasterPublicKey_effect {key : G2Big}
    (h : w.submitMasterPublicKey ctx L key = .ok w') : Effect L ctx w c w' := by
  obtain ⟨_, _, hphase, -, h⟩ := bind₂_ok h
  obtain ⟨_, -, h⟩ := bind_ok h
  obtain ⟨hphase, -, hblock⟩ := Ethdkg.inPhase_iff.mp (require_eq_ok.mp hphase)
  cases h
  exact .mpk key _ hphase (by omega) rfl rfl rfl

theorem submitGPKJ_takesPart {gpkj : G2Big} (h : w.submitGPKJ ctx gpkj = .ok w') :
    TakesPart L ctx w .submitGPKJ w' := by
  obtain ⟨_, _, hvalidator, hphase, h⟩ := bind₂_ok h
  obtain ⟨_, _, hnonce, hbefore, h⟩ := bind₂_ok h
  obtain ⟨_, -, h⟩ := bind_ok h
  obtain ⟨hphase, -, hblock⟩ := Ethdkg.inPhase_iff.mp (require_eq_ok.mp hphase)
  have hnonce : (w.ethdkg.participants ctx.sender).nonce = w.ethdkg.nonce := by simpa using hnonce
  have hbefore : (w.ethdkg.participants ctx.sender).phase = .keyShareSubmission := by
    simpa using hbefore
  refine .intro w.ethdkg _ w.ethdkg.mpkG1 _ _ ⟨.inl rfl, hphase, nofun, by omega,
    onlyValidator_ok hvalidator, ?_, rfl, .inr ⟨rfl, rfl⟩⟩ (Except.ok.inj h).symm
  constructor <;> simp [Ethdkg.level, Participant.level, hnonce, hbefore, hphase, Phase.base]

variable {d : Duty}

variable {s : Ethdkg} {p : Participant} {m : Point} {log : Log}

theorem Joins.rests (h : Joins L ctx w d s p m log) : s.phase.rests = false := by
  rw [h.phase]
  cases d <;> rfl

theorem Joins.base (h : Joins L ctx w d s p m log) : d.next.base = s.phase.base + 1 := by
  rw [h.phase]
  cases d <;> rfl

theorem Joins.same (h : Joins L ctx w d s p m log) : s.nonce = w.ethdkg.nonce ∧
    s.participants = w.ethdkg.participants ∧ s.badParticipants = w.ethdkg.badParticipants ∧
    s.phaseLength = w.ethdkg.phaseLength := by
  rcases h.state with rfl | ⟨-, rfl⟩ <;> exact ⟨rfl, rfl, rfl, rfl⟩

theorem logs_takePart (w : World) (ctx : Ctx) (next : Phase) (log : Log) (done : PhaseEvent)
    (s : Ethdkg) : ∃ rest, (w.takePart ctx next log done s).logs = w.logs ++ log :: rest ∧
      ∀ l ∈ rest, ∃ e, l = .phase e := by
  refine ⟨_, rfl, fun l hl => ?_⟩
  split at hl
  · exact ⟨done, mem_singleton.mp hl⟩
  · cases hl

/-- A call by which a duty is met, if nobody registers before the first round. -/
theorem TakesPart.effect (h : TakesPart L ctx w d w')
    (hstart : d = .register → w.ethdkg.phaseStartBlock = 0 → w.ethdkg.nonce = 0) :
    Effect L ctx w c w' := by
  obtain ⟨s, p, m, log, done, hjoins, heq⟩ := h
  refine .ahead d s p m log done hjoins (fun hopen hzero => ?_) heq
  rcases hjoins.state with rfl | ⟨hphase, -⟩
  · have hd : d = .register := by
      have := hopen.symm.trans hjoins.phase
      cases d <;> first | rfl | cases this
    exact hjoins.nonce hd (hstart hd hzero)
  · rw [hphase] at hopen
    cases hopen

theorem complete_effect (h : w.complete ctx = .ok w') : Effect L ctx w .complete w' := by
  obtain ⟨_, past, hvalidator, hpast, h⟩ := bind₂_ok h
  obtain ⟨_, _, htrue, hbad, h⟩ := bind₂_ok h
  rw [require_eq_ok.mp htrue] at hpast
  obtain ⟨hphase, hlength, hblock⟩ := Ethdkg.pastPhase_eq_true hpast
  cases h
  exact .completed 0 rfl (onlyValidator_ok hvalidator) hphase (by simpa using hbad)
    hlength hblock rfl
    rfl rfl

/-! ### Calls by which nobody takes part -/

theorem onlyFactoryWhileHalted_ok {u : Unit} (h : w.onlyFactoryWhileHalted roles ctx = .ok u) :
    ¬w.ethdkg.isETHDKGRunning ctx.block = .ok true := by
  obtain ⟨_, _, -, hrunning, -⟩ := bind₂_ok h
  obtain ⟨running, hrunning, hfalse⟩ := bind_ok hrunning
  intro htrue
  rw [htrue] at hrunning
  cases hrunning
  simp at hfalse

variable {pool pool' : Pool}

/-- A change of the pool, while no round is running, in which each validator is added or removed. -/
theorem pool_effect (hhalted : ¬w.ethdkg.isETHDKGRunning ctx.block = .ok true)
    (hnodup : w.pool.validators.Nodup → pool.validators.Nodup) :
    Effect L ctx w c { w with pool := pool } :=
  .stopped (.refl _) hnodup (fun hlive => hhalted hlive.2) ⟨[], by simp⟩

variable {a : Address}

theorem registerValidator_nodup
    (h : pool.registerValidator ctx a = .ok pool') (hpool : pool.validators.Nodup) :
    pool'.validators.Nodup := by
  obtain ⟨_, _, -, hnew, h⟩ := bind₂_ok h
  obtain ⟨_, -, h⟩ := bind_ok h
  cases h
  have hnew : a ∉ pool.validators := by
    simp only [require_eq_ok, Pool.isAccusable, Pool.isValidator, Bool.not_or,
      Bool.and_eq_true, Bool.not_eq_true', decide_eq_false_iff_not] at hnew
    exact hnew.1
  exact nodup_append.mpr ⟨hpool, nodup_singleton a, by
    intro x hx y hy hxy
    exact hnew (mem_singleton.mp hy ▸ hxy ▸ hx)⟩

theorem unregisterValidator_nodup
    (h : pool.unregisterValidator ctx a = .ok pool') (hpool : pool.validators.Nodup) :
    pool'.validators.Nodup := by
  obtain ⟨_, _, -, -, h⟩ := bind₂_ok h
  cases h
  exact hpool.erase a

variable {validators as : List Address}

theorem registerValidators_effect {tokenIDs : List Nat}
    (h : w.registerValidators roles ctx validators tokenIDs = .ok w') : Effect L ctx w c w' := by
  obtain ⟨_, _, hhalted, -, h⟩ := bind₂_ok h
  obtain ⟨_, pool, -, hpool, h⟩ := bind₂_ok h
  cases h
  refine pool_effect (onlyFactoryWhileHalted_ok hhalted)
    (Prog.foldlM_invariant (fun pool => pool.validators.Nodup) (fun hv => ?_) hpool)
  obtain ⟨_, -, hv⟩ := bind_ok hv
  exact registerValidator_nodup hv

theorem unregisterValidators_effect
    (h : w.unregisterValidators roles ctx validators = .ok w') : Effect L ctx w c w' := by
  obtain ⟨_, _, hhalted, -, h⟩ := bind₂_ok h
  obtain ⟨pool, hpool, h⟩ := bind_ok h
  cases h
  exact pool_effect (onlyFactoryWhileHalted_ok hhalted)
    (Prog.foldlM_invariant (fun pool => pool.validators.Nodup) unregisterValidator_nodup hpool)

theorem unregisterAllValidators_effect
    (h : w.unregisterAllValidators roles ctx = .ok w') : Effect L ctx w c w' := by
  obtain ⟨_, pool, hhalted, hpool, h⟩ := bind₂_ok h
  cases h
  exact pool_effect (onlyFactoryWhileHalted_ok hhalted)
    (Prog.foldlM_invariant (fun pool => pool.validators.Nodup) unregisterValidator_nodup hpool)

theorem setConfirmationLength_effect {length : Nat}
    (h : w.setConfirmationLength roles ctx length = .ok w') : Effect L ctx w c w' := by
  obtain ⟨_, hhalted, h⟩ := bind_ok h
  obtain ⟨_, running, -, hrunning, hfalse⟩ := bind₂_ok hhalted
  cases h
  refine .stopped ⟨rfl, rfl, rfl, rfl, rfl, rfl⟩ id (fun hlive => ?_) ⟨[], by simp⟩
  have hlive : w.ethdkg.Live ctx.block := Ethdkg.live_iff.mpr (Ethdkg.live_iff.mp hlive)
  rw [hlive.2] at hrunning
  cases hrunning
  simp at hfalse

/-! ### Accusations -/

/-- What an accusation has done: the round is the same, and if anyone was slashed there are bad
participants. -/
structure Accused (w w' : World) : Prop where
  same : w.ethdkg.SameRound w'.ethdkg
  phaseLength : w'.ethdkg.phaseLength = w.ethdkg.phaseLength
  nodup : w.pool.validators.Nodup → w'.pool.validators.Nodup
  bad : w' = w ∨ w'.ethdkg.badParticipants ≠ 0
  logs : ∃ new, w'.logs = w.logs ++ new ∧ ∀ log ∈ new, log.silent = true

theorem Accused.refl (w : World) : Accused w w := ⟨.refl _, rfl, id, .inl rfl, [], by simp⟩

theorem Accused.effect (h : Accused w w') : Effect L ctx w c w' := by
  rcases h.bad with rfl | hbad
  · exact .quiet (.refl _) rfl rfl rfl ⟨[], by simp⟩
  · exact .stopped h.same h.nodup (fun hlive => hbad hlive.1) h.logs

theorem countBad_ok (h : countBad w = .ok w') : w' =
    { w with ethdkg := { w.ethdkg with badParticipants := w.ethdkg.badParticipants + 1 } } := by
  unfold countBad at h
  split at h
  · exact (Except.ok.inj h).symm
  · cases h

/-- What the pool has done to slash an account. -/
structure Slashed (a : Address) (w w' : World) : Prop where
  ethdkg : w'.ethdkg = w.ethdkg
  validators : w'.pool.validators = w.pool.validators.erase a
  logs : ∃ log, w'.logs = w.logs ++ [log] ∧ slashedBy log = some a

theorem erase_validators (ha : ¬pool.isValidator a = true) :
    pool.validators.erase a = pool.validators :=
  erase_of_not_mem (by simpa [Pool.isValidator] using ha)

theorem majorSlash_ok (h : w.majorSlash ctx a = .ok w') : Slashed a w w' := by
  obtain ⟨_, _, -, -, h⟩ := bind₂_ok h
  cases h
  refine ⟨rfl, ?_, _, rfl, rfl⟩
  dsimp only
  split
  · rfl
  next ha => exact (erase_validators ha).symm

theorem minorSlash_ok (h : w.minorSlash ctx a = .ok w') : Slashed a w w' := by
  obtain ⟨_, _, -, -, h⟩ := bind₂_ok h
  cases h
  refine ⟨rfl, ?_, _, rfl, rfl⟩
  dsimp only
  split
  · rfl
  · split
    · rfl
    next ha => exact (erase_validators ha).symm

/-- Someone more was slashed and counted. -/
theorem Accused.slash {w1 w2 : World} (h : Accused w w1) (hslashed : Slashed a w1 w2)
    (hbad : countBad w2 = .ok w') : Accused w w' := by
  obtain rfl := countBad_ok hbad
  obtain ⟨hethdkg, hvalidators, log, hlog, hsilent⟩ := hslashed
  obtain ⟨new, hnew, hall⟩ := h.logs
  exact {
    same := by rw [hethdkg]; exact ⟨h.same.1, h.same.2, h.same.3, h.same.4, h.same.5, h.same.6⟩
    phaseLength := by rw [hethdkg]; exact h.phaseLength
    nodup := fun hw => by rw [hvalidators]; exact (h.nodup hw).erase a
    bad := .inr (Nat.succ_ne_zero _)
    logs := by
      refine ⟨new ++ [log], by rw [hlog, hnew, append_assoc], fun l hl => ?_⟩
      rcases mem_append.mp hl with hl | hl
      · exact hall l hl
      · rw [mem_singleton.mp hl]
        exact silent_of_slashedBy hsilent }

variable {check : Participant → Except Revert Unit}

theorem accuseEach_ok (h : w.accuseEach ctx check as = .ok w') : Accused w w' := by
  refine Prog.foldlM_invariant (Accused w) (fun hstep hw => ?_) h (.refl w)
  obtain ⟨_, _, -, -, hstep⟩ := bind₂_ok hstep
  obtain ⟨w2, hslash, hbad⟩ := bind_ok hstep
  exact hw.slash (minorSlash_ok hslash) hbad

/-- The accusations of not having taken part, after their check of the phase. -/
theorem accuseEach_effect {past : Except Revert Bool} {code : String}
    (h : (do require (← past) code; w.accuseEach ctx check as) = .ok w') : Effect L ctx w c w' := by
  obtain ⟨_, _, -, -, h⟩ := bind₂_ok h
  exact (accuseEach_ok h).effect

theorem majorSlash_effect (h : (w.majorSlash ctx a >>= countBad) = .ok w') :
    Effect L ctx w c w' := by
  obtain ⟨w2, hslash, hbad⟩ := bind_ok h
  exact ((Accused.refl w).slash (majorSlash_ok hslash) hbad).effect

theorem mem_validators_ite {p : Prop} [Decidable p] {u u' : Unit}
    (hsender : w.onlyValidator ctx = .ok u)
    (ha : require (w.pool.isValidator a) "104" = .ok u') :
    (if p then a else ctx.sender) ∈ w.pool.validators := by
  split
  · exact of_decide_eq_true (require_eq_ok.mp ha)
  · exact onlyValidator_ok hsender

/-- Somebody is slashed: the accused or the sender, and both are validators. -/
theorem accuseParticipantDistributedBadShares_ok {shares : List Nat} {commitments : List Point}
    {sharedKey proof : Point}
    (h : w.accuseParticipantDistributedBadShares L ctx a shares commitments sharedKey proof =
      .ok w') :
    ∃ v ∈ w.pool.validators, (w.majorSlash ctx v >>= countBad) = .ok w' := by
  obtain ⟨_, _, hsender, -, h⟩ := bind₂_ok h
  obtain ⟨_, _, -, hdishonest, h⟩ := bind₂_ok h
  iterate 5 obtain ⟨_, _, -, -, h⟩ := bind₂_ok h
  exact ⟨_, mem_validators_ite hsender hdishonest, h⟩

theorem accuseParticipantSubmittedBadGPKJ_ok {sharesHashes : List Nat}
    {commitments : List (List Point)}
    (h : w.accuseParticipantSubmittedBadGPKJ L ctx validators sharesHashes commitments a = .ok w') :
    ∃ v ∈ w.pool.validators, (w.majorSlash ctx v >>= countBad) = .ok w' := by
  obtain ⟨_, _, hsender, -, h⟩ := bind₂_ok h
  obtain ⟨_, _, -, hdishonest, h⟩ := bind₂_ok h
  iterate 3 obtain ⟨_, _, -, -, h⟩ := bind₂_ok h
  exact ⟨_, mem_validators_ite hsender hdishonest, h⟩

/-! ### The migration -/

theorem migrateValidators_effect {accounts : List Address} {indexes : List Nat}
    {shares : List G2Big} {count epoch sideChainHeight ethHeight : Nat} {key : G2Big}
    (h : w.migrateValidators roles ctx L accounts indexes shares count epoch
      sideChainHeight ethHeight
      key = .ok w') :
    Effect L ctx w (.migrateValidators accounts indexes shares count epoch sideChainHeight ethHeight
      key) w' := by
  obtain ⟨_, _, -, hnonce, h⟩ := bind₂_ok h
  obtain ⟨_, hlengths, h⟩ := bind_ok h
  cases h
  refine .migrated accounts indexes shares count epoch sideChainHeight ethHeight key rfl (by simp)
    (by simpa using hlengths) (by simpa using hnonce) rfl (fun hzero => ?_) rfl rfl rfl
  -- A loop over the migrated validators that sets nonces to 1
  have hloop : ∀ (vs : List Migrated) (ps : Address → Participant),
      (∀ a, (ps a).nonce ≤ 1) → ∀ a, ((vs.foldl (migrate 1) ps) a).nonce ≤ 1 := by
    intro vs
    induction vs with
    | nil => exact fun _ hps => hps
    | cons v vs ih =>
      intro ps hps
      refine ih _ fun a => ?_
      by_cases ha : a = v.1
      · subst ha
        simp [migrate]
      · simpa [migrate, ha] using hps a
  exact hloop _ _ fun a => by simp [hzero a]

/-- The calls after which a round goes on as it was opened: no change of the length of the phases
makes a halted round run again, and nobody registers between a migration and the first round. -/
def Regular (ctx : Ctx) (w : World) : Call → Prop
  | .setPhaseLength length => w.ethdkg.isETHDKGRunning ctx.block = .ok false →
    ¬Ethdkg.Live { w.ethdkg with phaseLength := length % 2 ^ 16 } ctx.block
  | .register _ => w.ethdkg.phaseStartBlock = 0 → w.ethdkg.nonce = 0
  | _ => True

instance (ctx : Ctx) (w : World) (c : Call) : Decidable (w.Regular ctx c) := by
  cases c <;> unfold Regular <;> infer_instance

theorem setPhaseLength_effect {length : Nat} (hregular : w.Regular ctx (.setPhaseLength length))
    (h : w.setPhaseLength roles ctx length = .ok w') : Effect L ctx w c w' := by
  obtain ⟨_, hhalted, h⟩ := bind_ok h
  obtain ⟨_, running, -, hrunning, hfalse⟩ := bind₂_ok hhalted
  cases h
  have hfalse : running = false := by simpa using hfalse
  exact .stopped ⟨rfl, rfl, rfl, rfl, rfl, rfl⟩ id (hregular (hfalse ▸ hrunning)) ⟨[], by simp⟩

theorem claimExitingNFTPosition_effect (h : w.claimExitingNFTPosition ctx = .ok w') :
    Effect L ctx w c w' := by
  obtain ⟨_, _, -, -, h⟩ := bind₂_ok h
  obtain ⟨_, -, h⟩ := bind_ok h
  cases h
  exact .quiet (.refl _) rfl rfl rfl ⟨[], by simp⟩

theorem pauseConsensusOnArbitraryHeight_effect {height : Nat}
    (h : w.pauseConsensusOnArbitraryHeight roles ctx height = .ok w') :
    Effect L ctx w (.pauseConsensusOnArbitraryHeight height) w' := by
  obtain ⟨_, _, -, -, h⟩ := bind₂_ok h
  cases h
  exact .reset height rfl ⟨rfl, rfl, rfl, rfl, rfl, rfl⟩ rfl rfl rfl rfl

/-- Every successful call has one of the effects, apart from the one that opens a round. -/
theorem call_effect (hc : c ≠ .initializeETHDKG) (hregular : w.Regular ctx c)
    (h : w.call L roles ctx c = .ok w') : Effect L ctx w c w' := by
  cases c with
  | register => exact (register_takesPart h).effect fun _ => hregular
  | distributeShares => exact (distributeShares_takesPart h).effect nofun
  | submitKeyShare => exact (submitKeyShare_takesPart h).effect nofun
  | submitMasterPublicKey => exact submitMasterPublicKey_effect h
  | submitGPKJ => exact (submitGPKJ_takesPart h).effect nofun
  | complete => exact complete_effect h
  | accuseParticipantNotRegistered | accuseParticipantDidNotDistributeShares
  | accuseParticipantDidNotSubmitKeyShares | accuseParticipantDidNotSubmitGPKJ =>
    exact accuseEach_effect h
  | accuseParticipantDistributedBadShares =>
    obtain ⟨v, -, h⟩ := accuseParticipantDistributedBadShares_ok h
    exact majorSlash_effect h
  | accuseParticipantSubmittedBadGPKJ =>
    obtain ⟨v, -, h⟩ := accuseParticipantSubmittedBadGPKJ_ok h
    exact majorSlash_effect h
  | migrateValidators => exact migrateValidators_effect h
  | setPhaseLength => exact setPhaseLength_effect hregular h
  | setConfirmationLength => exact setConfirmationLength_effect h
  | initializeETHDKG => exact absurd rfl hc
  | registerValidators => exact registerValidators_effect h
  | unregisterValidators => exact unregisterValidators_effect h
  | unregisterAllValidators => exact unregisterAllValidators_effect h
  | claimExitingNFTPosition => exact claimExitingNFTPosition_effect h
  | setMaxNumValidators | pauseConsensus =>
    obtain ⟨_, -, h⟩ := bind_ok h
    cases h
    exact .quiet (.refl _) rfl rfl rfl ⟨[], by simp⟩
  | pauseConsensusOnArbitraryHeight => exact pauseConsensusOnArbitraryHeight_effect h

theorem initializeETHDKG_ok (h : w.initializeETHDKG roles ctx = .ok w') :
    w'.pool = w.pool ∧ w'.ethdkg = { w.ethdkg with
      phaseStartBlock := ctx.block
      nonce := w.ethdkg.nonce + 1
      numParticipants := 0
      badParticipants := 0
      phase := .registrationOpen } ∧
    w'.logs = w.logs ++ [.registrationOpened ctx.block w.pool.validators.length
      (w.ethdkg.nonce + 1) w.ethdkg.phaseLength w.ethdkg.confirmationLength] := by
  obtain ⟨_, _, -, -, h⟩ := bind₂_ok h
  cases h
  exact ⟨rfl, rfl, rfl⟩

end World

end MadNet.Bridge
