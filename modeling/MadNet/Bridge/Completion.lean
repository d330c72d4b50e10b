import MadNet.Bridge.Rounds

/-!
# Completion of a round

Calls by any senders reach the contracts in blocks of non-decreasing numbers. `Chain` adds to the
contracts what the statement speaks about: the validators when the last round was opened and how
many there have been since.
-/

namespace MadNet.Bridge

open Monitor (Address G2Big Log PhaseEvent)
open Run List Ethdkg

namespace Ethdkg

variable {s : Ethdkg} {block n k : Nat} {phase : Phase}

theorem Live.earlier {block' : Nat} (h : s.Live block') (hblock : block ≤ block') :
    s.Live block := by
  have := live_iff.mp h
  exact live_iff.mpr ⟨this.1, this.2.1, this.2.2.1, this.2.2.2.1, by omega⟩

/-- What stays as it is when the phase is over or one more is counted. -/
theorem moveToNextPhase_kept (s : Ethdkg) (block : Nat) (phase : Phase) (k n : Nat) :
    (s.moveToNextPhase block phase k n).2.nonce = s.nonce ∧
    (s.moveToNextPhase block phase k n).2.badParticipants = s.badParticipants ∧
    (s.moveToNextPhase block phase k n).2.phaseLength = s.phaseLength ∧
    (s.moveToNextPhase block phase k n).2.participants = s.participants := by
  unfold moveToNextPhase
  split <;> exact ⟨rfl, rfl, rfl, rfl⟩

theorem moveToNextPhase_rests (h : s.phase.rests = false) :
    (s.moveToNextPhase block phase k n).2.phase.rests = true →
      (s.moveToNextPhase block phase k n).2.numParticipants = 0 := by
  unfold moveToNextPhase
  split
  · exact fun _ => rfl
  · intro hrests
    exact absurd hrests (by simp [h])

theorem moveToNextPhase_start (hs : s.phaseStartBlock ≠ 0) (hblock : 0 < block) :
    (s.moveToNextPhase block phase k n).2.phaseStartBlock ≠ 0 := by
  unfold moveToNextPhase
  split
  · exact Nat.ne_of_gt (Nat.add_pos_left hblock _)
  · exact hs

end Ethdkg

/-! ## The chain -/

structure Chain where
  world : World
  block : Nat
  /-- The validators when the last round was opened. -/
  opened : List Address
  /-- The numbers of validators since then. -/
  counts : List Nat

namespace Chain

def deployed (phaseLength confirmationLength maxNumValidators block : Nat) : Chain where
  world := .deployed phaseLength confirmationLength maxNumValidators
  block := block
  opened := []
  counts := []

def step (L : Precompiles) (roles : Roles) (c : Chain) (e : Ctx × Call) : Chain :=
  match c.world.call L roles e.1 e.2, e.2 with
  | .error _, _ => { c with block := e.1.block }
  | .ok w, .initializeETHDKG =>
    { world := w, block := e.1.block, opened := w.pool.validators,
      counts := [w.pool.validators.length] }
  | .ok w, _ =>
    { world := w, block := e.1.block, opened := c.opened,
      counts := w.pool.validators.length :: c.counts }

theorem step_world_of_ok {L : Precompiles} {roles : Roles} {c : Chain} {e : Ctx × Call} {w : World}
    (h : c.world.call L roles e.1 e.2 = .ok w) : (c.step L roles e).world = w := by
  unfold step
  split <;> simp_all

/-- The block is not before the last one, and the call is regular. -/
def Admits (c : Chain) (e : Ctx × Call) : Prop := c.block ≤ e.1.block ∧ c.world.Regular e.1 e.2

instance (c : Chain) (e : Ctx × Call) : Decidable (c.Admits e) :=
  inferInstanceAs (Decidable (_ ∧ _))

def Completes (L : Precompiles) (roles : Roles) (c : Chain) (e : Ctx × Call) : Prop :=
  c.world.ethdkg.phase ≠ .completion ∧ (c.step L roles e).world.ethdkg.phase = .completion

/-- What a round must have led to. -/
structure Completed (L : Precompiles) (c : Chain) : Prop where
  participants : ∀ a, ((c.world.ethdkg.participants a).nonce = c.world.ethdkg.nonce ∧
    (c.world.ethdkg.participants a).phase = .gpkjSubmission) ↔ a ∈ c.world.pool.validators
  indices : (c.world.pool.validators.map fun a => (c.world.ethdkg.participants a).index).Perm
    (range' 1 c.opened.length)
  unchanged : ∀ n ∈ c.counts, n = c.opened.length
  mpkG1 : ∃ l : List Address, l.Perm c.world.pool.validators ∧
    L.sum (l.map fun a => (c.world.ethdkg.participants a).keyShares) = some c.world.ethdkg.mpkG1

/-- What holds while a round is running. -/
structure Running (L : Precompiles) (c : Chain) : Prop where
  validators : c.world.pool.validators = c.opened
  counts : ∀ n ∈ c.counts, n = c.opened.length
  round : c.world.ethdkg.Round L c.opened c.world.ethdkg.numParticipants
  rests : c.world.ethdkg.phase.rests = true → c.world.ethdkg.numParticipants = 0

structure Inv (L : Precompiles) (c : Chain) : Prop where
  block_pos : 0 < c.block
  nodup : c.world.pool.validators.Nodup
  nonces : ∀ a, (c.world.ethdkg.participants a).nonce ≤ c.world.ethdkg.nonce
  unopened : c.world.ethdkg.nonce = 0 → c.world.ethdkg.phaseStartBlock = 0
  phase : c.world.ethdkg.phaseStartBlock = 0 → c.world.ethdkg.phase = .registrationOpen
  running : c.world.ethdkg.Live c.block → c.Running L

variable {L : Precompiles} {roles : Roles} {c : Chain} {ctx : Ctx} {w : World} {call : Call}

/-- The chain after a successful call that opens no round. -/
abbrev after (c : Chain) (ctx : Ctx) (w : World) : Chain :=
  { world := w, block := ctx.block, opened := c.opened,
    counts := w.pool.validators.length :: c.counts }

variable {s : Ethdkg}

variable {d : Duty} {p : Participant} {m : Point} {log : Log}

/-- The round of the state in which the sender takes part. -/
theorem Running.round_of_joins (h : c.Running L) (hjoins : World.Joins L ctx c.world d s p m log) :
    s.Round L c.opened s.numParticipants := by
  rcases hjoins.state with rfl | ⟨hphase, rfl⟩
  · exact h.round
  · have hround := h.round
    rw [h.rests (by rw [hphase]; rfl)] at hround
    refine hround.setPhase _ _ fun a ha => ?_
    rw [hround.level_eq_of_zero ha, hphase]
    rfl

theorem Running.counts_after (h : c.Running L) (hw : w.pool.validators = c.world.pool.validators) :
    ∀ n ∈ (c.after ctx w).counts, n = c.opened.length := by
  intro n hn
  rcases mem_cons.mp hn with rfl | hn
  · rw [hw, h.validators]
  · exact h.counts n hn

/-! ## The steps keep the invariant -/

section

variable (h : c.Inv L) (hblock : c.block ≤ ctx.block)
include h hblock

/-- A participant is counted in the state `s`, which is a state of the same round. -/
theorem Inv.takePart {next : Phase} {done : PhaseEvent} (hnonce : s.nonce ≠ 0)
    (hstart : s.phaseStartBlock ≠ 0)
    (hnonces : ∀ a, (s.participants a).nonce ≤ s.nonce)
    (hrunning : (c.world.takePart ctx next log done s).ethdkg.Live ctx.block → c.Running L)
    (hround : c.Running L → s.Round L c.opened (s.numParticipants + 1))
    (hrests : s.phase.rests = false) (hnext : next.base = s.phase.base + 1) :
    (c.after ctx (c.world.takePart ctx next log done s)).Inv L := by
  have hpos : 0 < ctx.block := Nat.lt_of_lt_of_le h.block_pos hblock
  obtain ⟨hnonce', -, -, hparticipants'⟩ := s.moveToNextPhase_kept ctx.block next
    c.world.pool.validators.length (s.numParticipants + 1)
  refine {
    block_pos := hpos
    nodup := h.nodup
    nonces := fun a => ?_
    unopened := fun hzero => absurd (hnonce'.symm.trans hzero) hnonce
    phase := fun hzero => absurd hzero (moveToNextPhase_start hstart hpos)
    running := fun hlive => ?_ }
  · have := hnonces a
    rw [← hparticipants', ← hnonce'] at this
    exact this
  · have hrunning := hrunning hlive
    refine {
      validators := hrunning.validators
      counts := hrunning.counts_after rfl
      round := ?_
      rests := moveToNextPhase_rests hrests }
    have := (hround hrunning).moveToNextPhase ctx.block hnext
    rw [← congrArg length hrunning.validators] at this
    exact this

theorem Inv.ahead {done : PhaseEvent} (hjoins : World.Joins L ctx c.world d s p m log)
    (hopen : c.world.ethdkg.phase = .registrationOpen → c.world.ethdkg.phaseStartBlock ≠ 0)
    (hrunning : (c.world.takePart ctx d.next log done
      { s.setParticipant ctx.sender p with mpkG1 := m }).ethdkg.Live ctx.block → c.Running L) :
    (c.after ctx (c.world.takePart ctx d.next log done
      { s.setParticipant ctx.sender p with mpkG1 := m })).Inv L := by
  have hstart : c.world.ethdkg.phaseStartBlock ≠ 0 := fun hzero => hopen (h.phase hzero) hzero
  obtain ⟨hnonce, hparticipants, -, -⟩ := hjoins.same
  refine h.takePart hblock (s := { s.setParticipant ctx.sender p with mpkG1 := m }) ?_ ?_
    (fun a => ?_) hrunning (fun hrunning => ?_) hjoins.rests hjoins.base
  · exact fun hzero => hstart (h.unopened (hnonce ▸ hzero))
  · rcases hjoins.state with rfl | ⟨-, rfl⟩
    · exact hstart
    · exact Nat.ne_of_gt (Nat.lt_of_lt_of_le h.block_pos hblock)
  · by_cases ha : a = ctx.sender
    · subst ha
      have : p.nonce ≤ s.nonce := Nat.le_of_eq hjoins.ahead.current
      simpa [setParticipant] using this
    · have := h.nonces a
      rw [← hparticipants, ← hnonce] at this
      simpa [setParticipant, ha] using this
  · have hnodup : c.opened.Nodup := hrunning.validators ▸ h.nodup
    exact (hrunning.round_of_joins hjoins).ahead hnodup (hrunning.validators ▸ hjoins.validator)
      hjoins.ahead

theorem Inv.sameRound (hsame : c.world.ethdkg.SameRound w.ethdkg) (hnodup : w.pool.validators.Nodup)
    (hrunning : w.ethdkg.Live ctx.block → (c.after ctx w).Running L) : (c.after ctx w).Inv L where
  block_pos := Nat.lt_of_lt_of_le h.block_pos hblock
  nodup := hnodup
  nonces := by rw [hsame.participants, hsame.nonce]; exact h.nonces
  unopened := by rw [hsame.nonce, hsame.phaseStartBlock]; exact h.unopened
  phase := by rw [hsame.phase, hsame.phaseStartBlock]; exact h.phase
  running := hrunning

theorem Inv.quiet (hsame : c.world.ethdkg.SameRound w.ethdkg)
    (hvalidators : w.pool.validators = c.world.pool.validators)
    (hrunning : w.ethdkg.Live ctx.block → c.Running L) : (c.after ctx w).Inv L := by
  refine h.sameRound hblock hsame (hvalidators ▸ h.nodup) fun hlive => ?_
  have hrunning := hrunning hlive
  exact {
    validators := hvalidators.trans hrunning.validators
    counts := hrunning.counts_after hvalidators
    round := by rw [hsame.numParticipants]; exact hsame.round hrunning.round
    rests := by rw [hsame.phase, hsame.numParticipants]; exact hrunning.rests }

/-- The phase is set to one that starts where the last one has ended. -/
theorem Inv.setPhase {phase : Phase}
    (hs : w.ethdkg = s.setPhase ctx.block phase) (hsame : c.world.ethdkg.SameRound s)
    (hopen : c.world.ethdkg.phase ≠ .registrationOpen)
    (hvalidators : w.pool.validators = c.world.pool.validators)
    (hrunning : w.ethdkg.Live ctx.block → (c.after ctx w).Running L) : (c.after ctx w).Inv L where
  block_pos := Nat.lt_of_lt_of_le h.block_pos hblock
  nodup := by rw [hvalidators]; exact h.nodup
  nonces := by
    rw [hs]
    change ∀ a, (s.participants a).nonce ≤ s.nonce
    rw [hsame.participants, hsame.nonce]
    exact h.nonces
  unopened := by
    rw [hs]
    intro hzero
    exact absurd (h.phase (h.unopened (hsame.nonce ▸ hzero))) hopen
  phase := by
    rw [hs]
    intro hzero
    exact absurd hzero (Nat.ne_of_gt (Nat.lt_of_lt_of_le h.block_pos hblock))
  running := hrunning

theorem Inv.mpk {key : G2Big} {hash : Nat}
    (hphase : c.world.ethdkg.phase = .mpkSubmission)
    (hw : w.ethdkg = Ethdkg.setPhase { c.world.ethdkg with
      masterPublicKey := key, masterPublicKeyHash := hash } ctx.block .gpkjSubmission)
    (hvalidators : w.pool.validators = c.world.pool.validators)
    (hrunning : w.ethdkg.Live ctx.block → c.Running L) : (c.after ctx w).Inv L := by
  refine h.setPhase hblock hw ⟨rfl, rfl, rfl, rfl, rfl, rfl⟩ (by rw [hphase]; decide) hvalidators
    fun hlive => ?_
  have hrunning := hrunning hlive
  have hround := hrunning.round
  rw [hrunning.rests (by rw [hphase]; rfl)] at hround
  refine {
    validators := hvalidators.trans hrunning.validators
    counts := hrunning.counts_after hvalidators
    round := ?_
    rests := fun _ => by rw [hw]; rfl }
  have := hround.setPhase ctx.block .gpkjSubmission fun a ha => by
    rw [hround.level_eq_of_zero ha, hphase]
    rfl
  rw [hw]
  exact ⟨this.members, this.levels, this.count, this.indices, this.mpkG1⟩

theorem Inv.migrated (hnonce : c.world.ethdkg.nonce = 0)
    (hnonce' : w.ethdkg.nonce = 1)
    (hnonces : (∀ a, (c.world.ethdkg.participants a).nonce = 0) →
      ∀ a, (w.ethdkg.participants a).nonce ≤ 1)
    (hstart : w.ethdkg.phaseStartBlock = c.world.ethdkg.phaseStartBlock)
    (hphase : w.ethdkg.phase = c.world.ethdkg.phase)
    (hvalidators : w.pool.validators = c.world.pool.validators) : (c.after ctx w).Inv L where
  block_pos := Nat.lt_of_lt_of_le h.block_pos hblock
  nodup := by rw [hvalidators]; exact h.nodup
  nonces := by
    rw [hnonce']
    exact hnonces fun a => Nat.le_zero.mp (hnonce ▸ h.nonces a)
  unopened := by simp [hnonce']
  phase := by rw [hstart, hphase]; exact h.phase
  running hlive := absurd (hstart.trans (h.unopened hnonce)) (live_iff.mp hlive).2.1

/-- A new round, in which nobody has registered. -/
theorem Inv.opened (hpool : w.pool = c.world.pool)
    (hw : w.ethdkg = { c.world.ethdkg with
      phaseStartBlock := ctx.block
      nonce := c.world.ethdkg.nonce + 1
      numParticipants := 0
      badParticipants := 0
      phase := .registrationOpen }) :
    Inv L (.mk w ctx.block w.pool.validators [w.pool.validators.length]) := by
  have hpos : 0 < ctx.block := Nat.lt_of_lt_of_le h.block_pos hblock
  have hold : ∀ a, (w.ethdkg.participants a).nonce ≠ w.ethdkg.nonce := by
    intro a
    rw [hw]
    exact Nat.ne_of_lt (Nat.lt_succ_of_le (h.nonces a))
  have hlevel : ∀ a, w.ethdkg.level a = 0 := fun a => if_neg (hold a)
  have hreached : ∀ vs k, w.ethdkg.reached vs (k + 1) = [] := fun vs k =>
    filter_eq_nil_iff.mpr fun a _ => by simp [hlevel]
  have hphase : w.ethdkg.phase = .registrationOpen := by rw [hw]
  refine {
    block_pos := hpos
    nodup := hpool ▸ h.nodup
    nonces := fun a => ?_
    unopened := fun hzero => ?_
    phase := fun _ => hphase
    running := fun _ => ?_ }
  · rw [hw]
    exact Nat.le_succ_of_le (h.nonces a)
  · rw [hw] at hzero
    cases hzero
  exact {
    validators := rfl
    counts := fun n hn => mem_singleton.mp hn
    round := {
      members := fun a ha => absurd ha (hold a)
      levels := fun a _ => .inl (by rw [hlevel, hphase]; rfl)
      count := by rw [hreached, hw]; rfl
      indices := by rw [hreached]; exact .refl _
      mpkG1 := fun hne => absurd (hreached _ _) hne }
    rests := fun _ => by rw [hw] }

end

/-- A round that is running after a call was running before it. -/
theorem Inv.live_of_effect (h : c.Inv L) (heffect : World.Effect L ctx c.world call w)
    (hlive : w.ethdkg.Live ctx.block) : c.world.ethdkg.Live ctx.block := by
  obtain ⟨hbad, hstart, hcompletion, hlength, -⟩ := live_iff.mp hlive
  have hstarted (hopen : c.world.ethdkg.phase ≠ .registrationOpen) :
      c.world.ethdkg.phaseStartBlock ≠ 0 := fun hzero => hopen (h.phase hzero)
  cases heffect with
  | quiet hsame hlength' hbad' _ _ | reset _ _ hsame hlength' hbad' _ _ =>
    exact hsame.live hlength' hbad' hlive
  | stopped _ _ hlive' _ => exact absurd hlive hlive'
  | ahead d s p m log done hjoins hopen hw =>
    subst hw
    obtain ⟨-, hbad', hlength', -⟩ := moveToNextPhase_kept
      { s.setParticipant ctx.sender p with mpkG1 := m } ctx.block d.next
      c.world.pool.validators.length (s.numParticipants + 1)
    obtain ⟨-, -, hsbad, hslength⟩ := hjoins.same
    refine live_iff.mpr ⟨?_, fun hzero => hopen (h.phase hzero) hzero, fun heq => ?_,
      ?_, hjoins.block⟩
    · rw [← hsbad]
      exact hbad'.symm.trans hbad
    · rcases hjoins.state with rfl | ⟨hphase, -⟩
      · have hrests := hjoins.rests
        rw [heq] at hrests
        cases hrests
      · rw [hphase] at heq
        cases heq
    · rw [← hslength]
      exact hlength'.symm ▸ hlength
  | mpk key hash hphase hend' hw _ _ =>
    rw [hw] at hbad hlength
    exact live_iff.mpr ⟨hbad,
      hstarted (by rw [hphase]; decide), by rw [hphase]; decide, hlength, hend'⟩
  | completed _ _ _ _ _ _ _ hw =>
    rw [hw] at hcompletion
    exact absurd rfl hcompletion
  | migrated _ _ _ _ _ _ _ _ _ _ _ hnonce _ _ hstart' =>
    exact absurd (hstart'.trans (h.unopened hnonce)) hstart

theorem Inv.effect (h : c.Inv L) (hblock : c.block ≤ ctx.block)
    (heffect : World.Effect L ctx c.world call w) : (c.after ctx w).Inv L := by
  have hrunning (hlive : w.ethdkg.Live ctx.block) : c.Running L :=
    h.running ((h.live_of_effect heffect hlive).earlier hblock)
  cases heffect with
  | quiet hsame _ _ hvalidators _ | reset _ _ hsame _ _ hvalidators _ =>
    exact h.quiet hblock hsame hvalidators hrunning
  | stopped hsame hnodup hlive _ => exact h.sameRound hblock hsame (hnodup h.nodup) (absurd · hlive)
  | ahead d s p m log done hjoins hopen hw =>
    subst hw
    exact h.ahead hblock hjoins hopen hrunning
  | mpk key hash hphase _ hw hvalidators _ => exact h.mpk hblock hphase hw hvalidators hrunning
  | completed height _ _ hphase hbad hlength hend hw hvalidators _ =>
    refine h.setPhase hblock (s := { c.world.ethdkg with customAliceNetHeight := height }) hw
      ⟨rfl, rfl, rfl, rfl, rfl, rfl⟩ (by rw [hphase]; decide) hvalidators fun hlive => ?_
    exact absurd (by rw [hw]; rfl) (live_iff.mp hlive).2.2.1
  | migrated _ _ _ _ _ _ _ _ _ _ _ hnonce hnonce' hnonces hstart hphase hvalidators =>
    exact h.migrated hblock hnonce hnonce' hnonces hstart hphase hvalidators

theorem Inv.step (h : c.Inv L) {e : Ctx × Call} (hadmits : c.Admits e) :
    (c.step L roles e).Inv L := by
  obtain ⟨ctx, call⟩ := e
  unfold Chain.step
  split
  · exact {
      block_pos := Nat.lt_of_lt_of_le h.block_pos hadmits.1
      nodup := h.nodup
      nonces := h.nonces
      unopened := h.unopened
      phase := h.phase
      running := fun hlive => by
        have := h.running (hlive.earlier hadmits.1)
        exact ⟨this.validators, this.counts, this.round, this.rests⟩ }
  · rename_i w hw hcall
    subst hcall
    obtain ⟨hpool, hethdkg, -⟩ := World.initializeETHDKG_ok hw
    exact h.opened hadmits.1 hpool hethdkg
  · rename_i w hw hne
    exact h.effect hadmits.1 (World.call_effect hne hadmits.2 hw)

theorem inv_deployed (L : Precompiles) {phaseLength confirmationLength maxNumValidators block : Nat}
    (hblock : 0 < block) :
    (deployed phaseLength confirmationLength maxNumValidators block).Inv L where
  block_pos := hblock
  nodup := nodup_nil
  nonces _ := Nat.le_refl 0
  unopened _ := rfl
  phase _ := rfl
  running hlive := absurd rfl (live_iff.mp hlive).2.1

/-! ## Completion -/

theorem Running.level_eq (h : c.Running L) (hphase : c.world.ethdkg.phase = .disputeGPKJSubmission)
    {a : Address} (ha : a ∈ c.opened) : c.world.ethdkg.level a = 4 := by
  have hlevel := h.round.levels a ha
  have hle := (c.world.ethdkg.participants a).level_le c.world.ethdkg.nonce
  rw [hphase] at hlevel
  change c.world.ethdkg.level a = 4 ∨ c.world.ethdkg.level a = 5 at hlevel
  change c.world.ethdkg.level a ≤ 4 at hle
  omega

theorem Running.completed (h : c.Running L) (hphase : c.world.ethdkg.phase = .disputeGPKJSubmission)
    (hsender : ctx.sender ∈ c.world.pool.validators) {height : Nat}
    (hw : w.ethdkg =
      { c.world.ethdkg.setPhase ctx.block .completion with customAliceNetHeight := height })
    (hvalidators : w.pool.validators = c.world.pool.validators) : (c.after ctx w).Completed L where
  participants a := by
    rw [hw, hvalidators, h.validators]
    constructor
    · exact fun ha => h.round.members a ha.1
    · exact fun ha => Participant.level_eq_four.mp (h.level_eq hphase ha)
  indices := by
    have hindices := h.round.indices
    rw [h.round.reached_eq (by rw [hphase]; decide)] at hindices
    rw [hw, hvalidators, h.validators]
    exact hindices
  unchanged := h.counts_after hvalidators
  mpkG1 := by
    have hreached := h.round.reached_eq (k := 3) (by rw [hphase]; decide)
    have hmpk := h.round.mpkG1
    rw [hreached] at hmpk
    rw [hw, hvalidators, h.validators]
    exact hmpk (ne_nil_of_mem (h.validators ▸ hsender))

theorem Inv.live_of_dispute (h : c.Inv L) (hphase : c.world.ethdkg.phase = .disputeGPKJSubmission)
    (hbad : c.world.ethdkg.badParticipants = 0) (hlength : 2 * c.world.ethdkg.phaseLength < 2 ^ 16)
    (hend : ctx.block < c.world.ethdkg.phaseStartBlock + 2 * c.world.ethdkg.phaseLength) :
    c.world.ethdkg.Live ctx.block := by
  refine live_iff.mpr ⟨hbad, fun hzero => ?_, by rw [hphase]; decide, hlength, hend⟩
  have := h.phase hzero
  rw [hphase] at this
  cases this

theorem Inv.completed (h : c.Inv L) {e : Ctx × Call} (hadmits : c.Admits e)
    (hcompletes : c.Completes L roles e) : (c.step L roles e).Completed L := by
  obtain ⟨ctx, call⟩ := e
  obtain ⟨hbefore, hafter⟩ := hcompletes
  unfold Chain.step at hafter ⊢
  split at hafter
  · exact absurd hafter hbefore
  · rename_i w hw hcall
    subst hcall
    rw [(World.initializeETHDKG_ok hw).2.1] at hafter
    cases hafter
  · rename_i w hw hne
    cases World.call_effect hne hadmits.2 hw with
    | quiet hsame | stopped hsame | reset _ _ hsame =>
      exact absurd (hsame.phase.symm.trans hafter) hbefore
    | ahead d s p m log done hjoins _ heq =>
      subst heq
      -- The next phase is another one, and the last one was not `Completion` either.
      change (moveToNextPhase _ _ _ _ _).2.phase = _ at hafter
      unfold moveToNextPhase at hafter
      split at hafter
      · change d.next = _ at hafter
        cases d <;> cases hafter
      · change s.phase = _ at hafter
        have hrests := hjoins.rests
        rw [hafter] at hrests
        cases hrests
    | mpk key hash _ _ heq =>
      rw [heq] at hafter
      cases hafter
    | completed height _ hsender hphase hbad hlength hend heq hvalidators _ =>
      have hlive := h.live_of_dispute hphase hbad hlength hend
      exact (h.running (hlive.earlier hadmits.1)).completed hphase hsender heq hvalidators
    | migrated _ _ _ _ _ _ _ _ _ _ _ _ _ _ _ hphase =>
      exact absurd (hphase.symm.trans hafter) hbefore

/-- In every run of regular calls, whenever the phase becomes `Completion` the participants that
submitted their GPKJ are the validators, as many as when the round was opened. -/
theorem completed_of_regular (L : Precompiles) (roles : Roles)
    (phaseLength confirmationLength maxNumValidators block : Nat) (hblock : 0 < block)
    (es : List (Ctx × Call))
    (h : Along Admits (step L roles) (deployed phaseLength confirmationLength
      maxNumValidators block) es) :
    Along (fun c e => c.Completes L roles e → (c.step L roles e).Completed L) (step L roles)
      (deployed phaseLength confirmationLength maxNumValidators block) es :=
  along_of_invariant (Inv L) (fun _ _ hinv hadmits => hinv.step hadmits)
    (fun _ _ hinv hadmits => hinv.completed hadmits) (inv_deployed L hblock) h

/-! ### Runs -/

/-- Precompiles with a single point, for which every proof passes. -/
def onePoint : Precompiles where
  keccak256 _ := 1
  add _ _ := some G1
  multiply _ _ := some G1
  pairing _ _ _ _ := some true

def onePointRoles : Roles where
  factory := 0
  snapshots := 100

/-- A call in a block, where the staking contracts accept everything. -/
def sends (block sender : Nat) (call : Call) : Ctx × Call :=
  ({ sender := sender, block := block, epoch := 1, committedHeight := 0, aliceNetHeight := 0,
     owns := fun _ => true, staking := fun _ => some (1, 1) }, call)

def finishRound (validators : List Address) : List (Ctx × Call) :=
  let n := validators.length
  validators.map (fun a => sends 33 a
    (.distributeShares (replicate (n - 1) 1) (replicate (getThreshold n + 1) G1))) ++
  validators.map (fun a => sends 133 a (.submitKeyShare G1 (1, 1) (1, 1, 1, 1))) ++
  [sends 134 0 (.submitMasterPublicKey (1, 1, 1, 1))] ++
  validators.map (fun a => sends 135 a (.submitGPKJ (1, 1, 1, 1)))

/-- Four validators of which three register in time. The pool gets a fifth validator while the round
is halted, and then the phases are made longer. -/
def revivedRound : List (Ctx × Call) :=
  [sends 9 0 (.registerValidators [1, 2, 3, 4] [1, 2, 3, 4]), sends 10 0 .initializeETHDKG,
    sends 11 1 (.register G1), sends 11 2 (.register G1), sends 11 3 (.register G1),
    sends 30 0 (.registerValidators [5] [5]), sends 31 0 (.setPhaseLength 100),
    sends 32 4 (.register G1), sends 32 5 (.register G1)] ++ finishRound [1, 2, 3, 4, 5]

/-- The round that was opened with four validators is completed with five. -/
theorem completed_with_more_validators :
    let start := deployed 10 0 10 1
    let last := sends 235 1 .complete
    let c := exec (step onePoint onePointRoles) start revivedRound
    Along (fun c e => c.block ≤ e.1.block) (step onePoint onePointRoles) start
      (revivedRound ++ [last]) ∧
    c.Completes onePoint onePointRoles last ∧
    ¬(c.step onePoint onePointRoles last).Completed onePoint := by
  intro start last c
  refine ⟨by decide +kernel, ⟨by decide +kernel, by decide +kernel⟩, fun h => ?_⟩
  have h5 : 5 ∈ (c.step onePoint onePointRoles last).counts := by decide +kernel
  have h4 : (c.step onePoint onePointRoles last).opened.length = 4 := by decide +kernel
  have := h.unchanged 5 h5
  omega

/-- Four validators that all register in time. -/
def fullRound : List (Ctx × Call) :=
  [sends 9 0 (.registerValidators [1, 2, 3, 4] [1, 2, 3, 4]), sends 10 0 .initializeETHDKG] ++
    [1, 2, 3, 4].map (fun a => sends 32 a (.register G1)) ++ finishRound [1, 2, 3, 4]

theorem admits_fullRound : Along Admits (step onePoint onePointRoles) (deployed 100 0 10 1)
    (fullRound ++ [sends 235 1 .complete]) := by
  decide +kernel

theorem completed_of_regular_fullRound :
    let start := deployed 100 0 10 1
    let last := sends 235 1 .complete
    let c := exec (step onePoint onePointRoles) start fullRound
    c.Completes onePoint onePointRoles last ∧
      (c.step onePoint onePointRoles last).Completed onePoint := by
  intro start last c
  have hcompletes : c.Completes onePoint onePointRoles last :=
    ⟨by decide +kernel, by decide +kernel⟩
  have h := completed_of_regular onePoint onePointRoles 100 0 10 1 (by decide) (fullRound ++ [last])
    admits_fullRound
  exact ⟨hcompletes, (along_append.mp h).2.1 hcompletes⟩

end Chain

end MadNet.Bridge
