import MadNet.Bridge.Completion

/-!
# Who is slashed in a round

An accusation of not taking part reads the record of the accused: in the phase of a duty, and past
its length, the record of a participant that met the duty says so. Who is slashed is no validator
any more, so that nobody is slashed twice as long as the pool takes no new validators.
-/

namespace MadNet.Bridge

open Function (update update_of_ne update_self)
open List Phase
open Prog (bind_ok bind₂_ok)
open Monitor (Address G2Big Log PhaseEvent)

/-! ## Duties -/

/-- The place of a phase in a round. -/
def Phase.rank : Phase → Nat
  | registrationOpen => 0
  | shareDistribution => 1
  | disputeShareDistribution => 2
  | keyShareSubmission => 3
  | mpkSubmission => 4
  | gpkjSubmission => 5
  | disputeGPKJSubmission => 6
  | completion => 7

theorem Phase.rank_inj {p q : Phase} (h : p.rank = q.rank) : p = q := by
  cases p <;> cases q <;> first | rfl | cases h

/-- The duty that the sender of a call meets. -/
def Call.duty : Call → Option Duty
  | register _ => some .register
  | distributeShares .. => some .distributeShares
  | submitKeyShare .. => some .submitKeyShare
  | submitGPKJ _ => some .submitGPKJ
  | _ => none

/-- The addresses that are accused of not having met a duty. -/
def Call.accused : Call → Option (Duty × List Address)
  | accuseParticipantNotRegistered as => some (.register, as)
  | accuseParticipantDidNotDistributeShares as => some (.distributeShares, as)
  | accuseParticipantDidNotSubmitKeyShares as => some (.submitKeyShare, as)
  | accuseParticipantDidNotSubmitGPKJ as => some (.submitGPKJ, as)
  | _ => none

namespace Ethdkg

structure Part (d : Duty) (a : Address) (s s' : Ethdkg) : Prop where
  nonce : s'.nonce = s.nonce
  record : ∃ p, s'.participants = Function.update s.participants a p ∧ p.nonce = s.nonce ∧
    p.phase = d.phase
  before : s.phase.rank ≤ d.phase.rank
  after : d.phase.rank ≤ s'.phase.rank

/-- What a call of `a` does to the phase and to the records. -/
inductive Progress (a : Address) (s s' : Ethdkg) : Prop where
  | still (nonce : s'.nonce = s.nonce) (phase : s.phase.rank ≤ s'.phase.rank)
      (participants : s'.participants = s.participants) : Progress a s s'
  | part {d : Duty} (h : Part d a s s') : Progress a s s'
  | opened (nonce : s.nonce < s'.nonce) : Progress a s s'

theorem Progress.refl (a : Address) (s : Ethdkg) : Progress a s s := .still rfl (Nat.le_refl _) rfl

theorem SameRound.progress {s s' : Ethdkg} (h : SameRound s s') (a : Address) : Progress a s s' :=
  .still h.nonce (Nat.le_of_eq (congrArg rank h.phase.symm)) h.participants

theorem Progress.nonce_le {a : Address} {s s' : Ethdkg} (h : Progress a s s') :
    s.nonce ≤ s'.nonce := by
  cases h with
  | still nonce => exact Nat.le_of_eq nonce.symm
  | part h => exact Nat.le_of_eq h.nonce.symm
  | opened nonce => exact Nat.le_of_lt nonce

theorem Progress.forward {a : Address} {s s' : Ethdkg} (h : Progress a s s') :
    s.nonce < s'.nonce ∨ s'.nonce = s.nonce ∧ s.phase.rank ≤ s'.phase.rank := by
  cases h with
  | still nonce phase _ => exact .inr ⟨nonce, phase⟩
  | part h => exact .inr ⟨h.nonce, Nat.le_trans h.before h.after⟩
  | opened nonce => exact .inl nonce

/-- The record of `v` says that it has met the duty in this round. -/
structure Met (d : Duty) (v : Address) (s : Ethdkg) : Prop where
  nonce : (s.participants v).nonce = s.nonce
  reached : d.phase.rank ≤ s.phase.rank
  phase : s.phase = d.phase → (s.participants v).phase = d.phase

variable {d : Duty} {a v : Address} {s s' : Ethdkg}

theorem Part.met (h : Part d a s s') : Met d a s' := by
  obtain ⟨p, hp, hnonce, hphase⟩ := h.record
  refine ⟨?_, h.after, fun _ => ?_⟩
  · rw [hp, update_self, hnonce, h.nonce]
  · rw [hp, update_self, hphase]

/-- In the same round the record goes on to say so: as long as the phase is that of the duty, the
record is changed to that of the duty only. -/
theorem Met.progress (h : Met d v s) (hp : Progress a s s') (hnonce : s'.nonce = s.nonce) :
    Met d v s' := by
  cases hp with
  | still _ hphase hparticipants =>
    refine ⟨by rw [hparticipants, h.nonce, hnonce], Nat.le_trans h.reached hphase, fun hd => ?_⟩
    rw [hparticipants]
    have hrank := h.reached
    rw [hd] at hphase
    exact h.phase (rank_inj (by omega))
  | @part e hpart =>
    obtain ⟨p, hparticipants, hpnonce, hpphase⟩ := hpart.record
    have hreached := h.reached
    have hbefore := hpart.before
    have hafter := hpart.after
    refine ⟨?_, by omega, fun hd => ?_⟩
    · rw [hparticipants, hnonce]
      by_cases hv : v = a
      · rw [hv, update_self, hpnonce]
      · rw [update_of_ne hv, h.nonce]
    · rw [hd] at hafter
      rw [hparticipants]
      by_cases hv : v = a
      · rw [hv, update_self, hpphase]
        exact rank_inj (by omega)
      · rw [update_of_ne hv]
        exact h.phase (rank_inj (by omega))
  | opened hlt => omega

end Ethdkg

/-! ## What a call does -/

namespace World

variable {L : Precompiles} {roles : Roles} {ctx : Ctx} {w w' : World} {c : Call}

variable {d : Duty}

theorem TakesPart.part (h : TakesPart L ctx w d w') : w.ethdkg.Part d ctx.sender w'.ethdkg := by
  obtain ⟨s, p, m, log, done, hjoins, rfl⟩ := h
  obtain ⟨hnonce, hparticipants, -, -⟩ := hjoins.same
  obtain ⟨hnonce', -, -, hparticipants'⟩ := Ethdkg.moveToNextPhase_kept
    { s.setParticipant ctx.sender p with mpkG1 := m } ctx.block d.next w.pool.validators.length
    (s.numParticipants + 1)
  refine ⟨hnonce'.trans hnonce, ⟨p, hparticipants'.trans ?_, hjoins.ahead.current.trans hnonce,
    hjoins.record⟩, ?_, ?_⟩
  · rw [← hparticipants]
    rfl
  · rcases hjoins.state with rfl | ⟨hphase, rfl⟩
    · exact Nat.le_of_eq (congrArg rank hjoins.phase)
    · rw [hphase, ← hjoins.phase]
      exact (by decide : disputeShareDistribution.rank ≤ keyShareSubmission.rank)
  · change _ ≤ (Ethdkg.moveToNextPhase _ _ _ _ _).2.phase.rank
    unfold Ethdkg.moveToNextPhase
    split
    · change d.phase.rank ≤ d.next.rank
      cases d <;> decide
    · exact Nat.le_of_eq (congrArg rank hjoins.phase.symm)

theorem TakesPart.logs (h : TakesPart L ctx w d w') :
    ∃ new, w'.logs = w.logs ++ new ∧ new.filterMap slashedBy = [] := by
  obtain ⟨s, p, m, log, done, hjoins, rfl⟩ := h
  obtain ⟨rest, hlogs, hrest⟩ := logs_takePart w ctx d.next log done
    { s.setParticipant ctx.sender p with mpkG1 := m }
  refine ⟨_, hlogs, filterMap_eq_nil_iff.mpr fun l hl => ?_⟩
  rcases mem_cons.mp hl with rfl | hl
  · rcases hjoins.logged with ⟨-, _, rfl⟩ | ⟨-, rfl⟩ <;> rfl
  · obtain ⟨e, rfl⟩ := hrest l hl
    rfl

/-- The sender of a successful call meets the duty of the call. -/
theorem call_takesPart (hc : c.duty = some d) (h : w.call L roles ctx c = .ok w') :
    TakesPart L ctx w d w' := by
  cases c with
  | register =>
    cases hc
    exact register_takesPart h
  | distributeShares =>
    cases hc
    exact distributeShares_takesPart h
  | submitKeyShare =>
    cases hc
    exact submitKeyShare_takesPart h
  | submitGPKJ =>
    cases hc
    exact submitGPKJ_takesPart h
  | _ => cases hc

/-! ## Who is slashed -/

/-- The addresses that have been slashed, one entry for each time. -/
def slashed (w : World) : List Address := w.logs.filterMap slashedBy

variable {new : List Log}

theorem slashed_append (h : w'.logs = w.logs ++ new) :
    w'.slashed = w.slashed ++ new.filterMap slashedBy := by
  unfold slashed
  rw [h, filterMap_append]

/-- From `w` to `w'` the addresses `new` were slashed, which were validators and are none any more;
there are no new validators. -/
structure Evicts (w w' : World) (new : List Address) : Prop where
  slashed : w'.slashed = w.slashed ++ new
  subset : ∀ a ∈ w'.pool.validators, a ∈ w.pool.validators
  unique : w.pool.validators.Nodup → w'.pool.validators.Nodup ∧ new.Nodup
  evicted : w.pool.validators.Nodup → ∀ a ∈ new, a ∈ w.pool.validators ∧ a ∉ w'.pool.validators

theorem Evicts.trans {w1 w2 w3 : World} {new1 new2 : List Address} (h1 : Evicts w1 w2 new1)
    (h2 : Evicts w2 w3 new2) : Evicts w1 w3 (new1 ++ new2) where
  slashed := by rw [h2.slashed, h1.slashed, append_assoc]
  subset a ha := h1.subset a (h2.subset a ha)
  unique hnodup := by
    obtain ⟨hnodup2, hnew1⟩ := h1.unique hnodup
    obtain ⟨hnodup3, hnew2⟩ := h2.unique hnodup2
    refine ⟨hnodup3, nodup_append.mpr ⟨hnew1, hnew2, ?_⟩⟩
    rintro a ha _ hb rfl
    exact (h1.evicted hnodup a ha).2 (h2.evicted hnodup2 a hb).1
  evicted hnodup a ha := by
    have hnodup2 := (h1.unique hnodup).1
    rcases mem_append.mp ha with ha | ha
    · obtain ⟨hin, hout⟩ := h1.evicted hnodup a ha
      exact ⟨hin, fun h => hout (h2.subset a h)⟩
    · obtain ⟨hin, hout⟩ := h2.evicted hnodup2 a ha
      exact ⟨h1.subset a hin, hout⟩

/-- A call that slashes nobody and leaves the validators as they are. -/
theorem Evicts.of_validators_eq (hv : w'.pool.validators = w.pool.validators)
    (hlogs : w'.logs = w.logs ++ new) (hnew : new.filterMap slashedBy = []) : Evicts w w' [] where
  slashed := by rw [slashed_append hlogs, hnew]
  subset a ha := hv ▸ ha
  unique hnodup := ⟨hv ▸ hnodup, nodup_nil⟩
  evicted _ a ha := by cases ha

theorem Evicts.refl (w : World) : Evicts w w [] := .of_validators_eq rfl (append_nil _).symm rfl

variable {a : Address}

theorem Evicts.of_erase {log : Log} (ha : a ∈ w.pool.validators)
    (hv : w'.pool.validators = w.pool.validators.erase a) (hlogs : w'.logs = w.logs ++ [log])
    (hlog : slashedBy log = some a) : Evicts w w' [a] where
  slashed := by
    rw [slashed_append hlogs]
    simp [hlog]
  subset b hb := mem_of_mem_erase (hv ▸ hb)
  unique hnodup := ⟨hv ▸ hnodup.erase a, nodup_singleton a⟩
  evicted hnodup b hb := by
    obtain rfl := mem_singleton.mp hb
    refine ⟨ha, fun hin => ?_⟩
    rw [hv] at hin
    exact hnodup.not_mem_erase hin

theorem Slashed.evicts (h : Slashed a w w') (ha : a ∈ w.pool.validators) : Evicts w w' [a] := by
  obtain ⟨-, hvalidators, log, hlogs, hlog⟩ := h
  exact .of_erase ha hvalidators hlogs hlog

theorem countBad_evicts (h : countBad w = .ok w') : Evicts w w' [] := by
  obtain rfl := countBad_ok h
  exact .of_validators_eq rfl (append_nil _).symm rfl

variable {as validators : List Address} {check : Participant → Except Revert Unit}

/-- Each of the accused was a validator, and its record passed the check. -/
theorem accuseEach_evicts (h : w.accuseEach ctx check as = .ok w') :
    Evicts w w' as ∧ ∀ a ∈ as, check (w.ethdkg.participants a) = .ok () := by
  unfold accuseEach at h
  induction as generalizing w with
  | nil =>
    obtain rfl := Except.ok.inj h
    exact ⟨.refl w, by simp⟩
  | cons a as ih =>
    rw [foldlM_cons] at h
    obtain ⟨w2, hstep, hrest⟩ := bind_ok h
    obtain ⟨_, _, hvalidator, hcheck, hstep2⟩ := bind₂_ok hstep
    obtain ⟨w1, hslash, hbad⟩ := bind_ok hstep2
    have hslashed := minorSlash_ok hslash
    have hevicts1 := hslashed.evicts (of_decide_eq_true (require_eq_ok.mp hvalidator))
    have hparticipants : w2.ethdkg.participants = w.ethdkg.participants := by
      obtain rfl := countBad_ok hbad
      rw [← hslashed.ethdkg]
    have hevicts2 := hevicts1.trans (countBad_evicts hbad)
    obtain ⟨hevicts3, hchecks⟩ := ih hrest
    refine ⟨hevicts2.trans hevicts3, fun b hb => ?_⟩
    rcases mem_cons.mp hb with rfl | hb
    · exact hcheck
    · rw [← hparticipants]
      exact hchecks b hb

/-- What a call of the contracts other than `registerValidators` does. -/
def Quiet (ctx : Ctx) (w w' : World) : Prop := w.ethdkg.Progress ctx.sender w'.ethdkg ∧
    ∃ new, Evicts w w' new

theorem quiet_of_validators_eq (hethdkg : w.ethdkg.Progress ctx.sender w'.ethdkg)
    (hv : w'.pool.validators = w.pool.validators) (hlogs : w'.logs = w.logs ++ new)
    (hnew : new.filterMap slashedBy = []) : Quiet ctx w w' :=
  ⟨hethdkg, [], .of_validators_eq hv hlogs hnew⟩

theorem TakesPart.quiet (h : TakesPart L ctx w d w') : Quiet ctx w w' := by
  obtain ⟨new, hlogs, hnew⟩ := h.logs
  refine quiet_of_validators_eq (.part h.part) ?_ hlogs hnew
  obtain ⟨_, _, _, _, _, -, rfl⟩ := h
  rfl

theorem accuseEach_quiet {past : Except Revert Bool} {code : String}
    (h : (do require (← past) code; w.accuseEach ctx check as) = .ok w') : Quiet ctx w w' := by
  obtain ⟨_, _, -, -, h2⟩ := bind₂_ok h
  exact ⟨(accuseEach_ok h2).same.progress _, as, (accuseEach_evicts h2).1⟩

theorem majorSlash_quiet (ha : a ∈ w.pool.validators)
    (h : (w.majorSlash ctx a >>= countBad) = .ok w') : Quiet ctx w w' := by
  obtain ⟨w1, hslash, hbad⟩ := bind_ok h
  have hslashed := majorSlash_ok hslash
  refine ⟨?_, _, (hslashed.evicts ha).trans (countBad_evicts hbad)⟩
  obtain rfl := countBad_ok hbad
  rw [← hslashed.ethdkg]
  exact .still rfl (Nat.le_refl _) rfl

theorem quiet_of_leave {pool : Pool}
    (h : as.foldlM (fun pool v => pool.unregisterValidator ctx v) w.pool = .ok pool) :
    Quiet ctx w { w with pool := pool } := by
  have hpool := Prog.foldlM_invariant (fun p : Pool => (∀ a ∈ p.validators, a ∈ w.pool.validators) ∧
    (w.pool.validators.Nodup → p.validators.Nodup)) (fun hv hp => ?_) h ⟨fun _ ha => ha, id⟩
  · exact ⟨.refl _ _, [], (append_nil _).symm, hpool.1, fun hnodup => ⟨hpool.2 hnodup, nodup_nil⟩,
      fun _ a ha => by cases ha⟩
  · refine ⟨fun a ha => hp.1 a ?_, fun hnodup => unregisterValidator_nodup hv (hp.2 hnodup)⟩
    obtain ⟨_, _, -, -, hv2⟩ := bind₂_ok hv
    cases hv2
    exact mem_of_mem_erase ha

/-- Every call but one leaves the pool without new validators. -/
theorem call_quiet (hc : ∀ validators tokenIDs, c ≠ .registerValidators validators tokenIDs)
    (h : w.call L roles ctx c = .ok w') : Quiet ctx w w' := by
  cases c with
  | register => exact (register_takesPart (L := L) h).quiet
  | distributeShares => exact (distributeShares_takesPart h).quiet
  | submitKeyShare => exact (submitKeyShare_takesPart h).quiet
  | submitGPKJ => exact (submitGPKJ_takesPart (L := L) h).quiet
  | submitMasterPublicKey =>
    obtain ⟨_, _, hphase, -, h⟩ := bind₂_ok h
    obtain ⟨_, -, h⟩ := bind_ok h
    obtain ⟨hphase, -, -⟩ := Ethdkg.inPhase_iff.mp (require_eq_ok.mp hphase)
    cases h
    refine quiet_of_validators_eq (.still rfl ?_ rfl) rfl rfl rfl
    rw [hphase]
    exact (by decide : mpkSubmission.rank ≤ gpkjSubmission.rank)
  | complete =>
    obtain ⟨_, past, -, hpast, h⟩ := bind₂_ok h
    obtain ⟨_, _, htrue, -, h⟩ := bind₂_ok h
    rw [require_eq_ok.mp htrue] at hpast
    obtain ⟨hphase, -, -⟩ := Ethdkg.pastPhase_eq_true hpast
    cases h
    refine quiet_of_validators_eq (.still rfl ?_ rfl) rfl rfl rfl
    rw [hphase]
    exact (by decide : disputeGPKJSubmission.rank ≤ completion.rank)
  | accuseParticipantNotRegistered | accuseParticipantDidNotDistributeShares
  | accuseParticipantDidNotSubmitKeyShares | accuseParticipantDidNotSubmitGPKJ =>
    exact accuseEach_quiet h
  | accuseParticipantDistributedBadShares =>
    obtain ⟨v, hv, h⟩ := accuseParticipantDistributedBadShares_ok h
    exact majorSlash_quiet hv h
  | accuseParticipantSubmittedBadGPKJ =>
    obtain ⟨v, hv, h⟩ := accuseParticipantSubmittedBadGPKJ_ok h
    exact majorSlash_quiet hv h
  | migrateValidators =>
    obtain ⟨_, _, -, hnonce, h⟩ := bind₂_ok h
    obtain ⟨_, -, h⟩ := bind_ok h
    cases h
    have hnonce := of_decide_eq_true (require_eq_ok.mp hnonce)
    refine quiet_of_validators_eq (.opened ?_) rfl
      ((append_assoc ..).trans (append_assoc ..)) ?_
    · rw [hnonce]
      exact Nat.zero_lt_one
    · refine filterMap_eq_nil_iff.mpr fun log hlog => ?_
      simp only [mem_append, mem_cons, mem_map, not_mem_nil, or_false] at hlog
      rcases hlog with (rfl | ⟨_, -, rfl⟩) | ⟨_, -, rfl⟩ | rfl <;> rfl
  | setPhaseLength | setConfirmationLength =>
    obtain ⟨_, -, h⟩ := bind_ok h
    cases h
    exact quiet_of_validators_eq (.still rfl (Nat.le_refl _) rfl) rfl (append_nil _).symm rfl
  | initializeETHDKG =>
    obtain ⟨hpool, hethdkg, hlogs⟩ := initializeETHDKG_ok h
    refine quiet_of_validators_eq (.opened ?_) (by rw [hpool]) hlogs rfl
    rw [hethdkg]
    exact Nat.lt_succ_self _
  | registerValidators validators tokenIDs => exact absurd rfl (hc validators tokenIDs)
  | unregisterValidators =>
    obtain ⟨_, _, -, -, h⟩ := bind₂_ok h
    obtain ⟨pool, hpool, h⟩ := bind_ok h
    cases h
    exact quiet_of_leave hpool
  | unregisterAllValidators =>
    obtain ⟨_, pool, -, hpool, h⟩ := bind₂_ok h
    cases h
    exact quiet_of_leave hpool
  | claimExitingNFTPosition =>
    obtain ⟨_, _, -, -, h⟩ := bind₂_ok h
    obtain ⟨_, -, h⟩ := bind_ok h
    cases h
    exact quiet_of_validators_eq (.refl _ _) rfl (append_nil _).symm rfl
  | setMaxNumValidators | pauseConsensus =>
    obtain ⟨_, -, h⟩ := bind_ok h
    cases h
    exact quiet_of_validators_eq (.refl _ _) rfl (append_nil _).symm rfl
  | pauseConsensusOnArbitraryHeight =>
    obtain ⟨_, _, -, -, h⟩ := bind₂_ok h
    cases h
    exact quiet_of_validators_eq (.still rfl (Nat.le_refl _) rfl) rfl rfl rfl

theorem registerValidators_ok {tokenIDs : List Nat}
    (h : w.registerValidators roles ctx validators tokenIDs = .ok w') :
    w'.ethdkg = w.ethdkg ∧ (w.pool.validators.Nodup → w'.pool.validators.Nodup) ∧
      ¬w.ethdkg.isETHDKGRunning ctx.block = .ok true := by
  obtain ⟨_, _, hhalted, -, h⟩ := bind₂_ok h
  obtain ⟨_, pool, -, hpool, h⟩ := bind₂_ok h
  cases h
  refine ⟨rfl, Prog.foldlM_invariant (fun pool => pool.validators.Nodup) (fun hv => ?_) hpool,
    onlyFactoryWhileHalted_ok hhalted⟩
  obtain ⟨_, -, hv⟩ := bind_ok hv
  exact registerValidator_nodup hv

theorem call_progress (h : w.call L roles ctx c = .ok w') : w.ethdkg.Progress ctx.sender w'.ethdkg ∧
      (w.pool.validators.Nodup → w'.pool.validators.Nodup) := by
  by_cases hc : ∀ validators tokenIDs, c ≠ .registerValidators validators tokenIDs
  · obtain ⟨hprogress, new, hevicts⟩ := call_quiet hc h
    exact ⟨hprogress, fun hnodup => (hevicts.unique hnodup).1⟩
  · simp only [ne_eq, not_forall, not_not] at hc
    obtain ⟨validators, tokenIDs, rfl⟩ := hc
    obtain ⟨hethdkg, hnodup, -⟩ := registerValidators_ok h
    rw [hethdkg]
    exact ⟨.refl _ _, hnodup⟩

theorem accuse_ok {phase : Phase} {code : String}
    (h : (do require (← w.ethdkg.pastPhase ctx.block phase) code; w.accuseEach ctx check as) =
      .ok w') :
    w.ethdkg.phase = phase ∧ Evicts w w' as ∧ ∀ a ∈ as, check
      (w.ethdkg.participants a) = .ok () := by
  obtain ⟨past, _, hpast, htrue, h2⟩ := bind₂_ok h
  rw [require_eq_ok.mp htrue] at hpast
  exact ⟨(Ethdkg.pastPhase_eq_true hpast).1, accuseEach_evicts h2⟩

theorem accused_late {code code₁ code₂ : String} {b : Participant → Bool}
    {rest : Participant → Except Revert Unit}
    (h : (do
      require (← w.ethdkg.pastPhase ctx.block d.phase) code
      w.accuseEach ctx
        (fun p => do require (b p) code₁; require (p.phase ≠ d.phase) code₂; rest p) as) =
        .ok w') : Evicts w w' as ∧ w.ethdkg.phase = d.phase ∧ ∀ v ∈ as, ¬w.ethdkg.Met d v := by
  obtain ⟨hphase, hevicts, hchecks⟩ := accuse_ok h
  refine ⟨hevicts, hphase, fun v hv hmet => ?_⟩
  obtain ⟨_, _, -, hne, -⟩ := bind₂_ok (hchecks v hv)
  exact of_decide_eq_true (require_eq_ok.mp hne) (hmet.phase hphase)

/-- Who has met a duty is not among those that are slashed for not having met it. -/
theorem accused_evicts (hc : c.accused = some (d, as)) (h : w.call L roles ctx c = .ok w') :
    Evicts w w' as ∧ w.ethdkg.phase = d.phase ∧ ∀ v ∈ as, ¬w.ethdkg.Met d v := by
  cases c with
  | accuseParticipantNotRegistered =>
    cases hc
    obtain ⟨hphase, hevicts, hchecks⟩ := accuse_ok h
    refine ⟨hevicts, hphase, fun v hv hmet => ?_⟩
    have hnonce := require_eq_ok.mp (hchecks v hv)
    rw [hmet.nonce] at hnonce
    simp at hnonce
  | accuseParticipantDidNotDistributeShares | accuseParticipantDidNotSubmitKeyShares
  | accuseParticipantDidNotSubmitGPKJ =>
    cases hc
    exact accused_late h
  | _ => cases hc

end World

/-! ## Runs -/

namespace Chain

open Run

variable {L : Precompiles} {roles : Roles} {c : Chain} {e : Ctx × Call}

theorem step_world_of_error {err : Revert} (h : c.world.call L roles e.1 e.2 = .error err) :
    (c.step L roles e).world = c.world := by
  unfold step
  rw [h]

theorem step_world (L : Precompiles) (roles : Roles) (c : Chain) (e : Ctx × Call) :
    c.world.call L roles e.1 e.2 = .ok (c.step L roles e).world ∨
      (c.step L roles e).world = c.world := by
  cases h : c.world.call L roles e.1 e.2 with
  | error => exact .inr (step_world_of_error h)
  | ok w => exact .inl (congrArg _ (step_world_of_ok h).symm)

theorem step_progress (L : Precompiles) (roles : Roles) (c : Chain) (e : Ctx × Call) :
    c.world.ethdkg.Progress e.1.sender (c.step L roles e).world.ethdkg ∧
      (c.world.pool.validators.Nodup → (c.step L roles e).world.pool.validators.Nodup) := by
  rcases step_world L roles c e with h | h
  · exact World.call_progress h
  · rw [h]
    exact ⟨.refl _ _, id⟩

theorem exec_nonce_le (L : Precompiles) (roles : Roles) (c : Chain) (es : List (Ctx × Call)) :
    c.world.ethdkg.nonce ≤ (exec (step L roles) c es).world.ethdkg.nonce := by
  induction es generalizing c with
  | nil => exact Nat.le_refl _
  | cons e es ih => exact Nat.le_trans (step_progress L roles c e).1.nonce_le (ih _)

/-- From every state on, whoever calls what and when, there is no way back to an earlier round, nor
to an earlier phase of the round. -/
theorem rounds_forward (L : Precompiles) (roles : Roles) (c : Chain) (es : List (Ctx × Call)) :
    c.world.ethdkg.nonce < (exec (step L roles) c es).world.ethdkg.nonce ∨
    (exec (step L roles) c es).world.ethdkg.nonce = c.world.ethdkg.nonce ∧
      c.world.ethdkg.phase.rank ≤ (exec (step L roles) c es).world.ethdkg.phase.rank := by
  induction es generalizing c with
  | nil => exact .inr ⟨rfl, Nat.le_refl _⟩
  | cons e es ih =>
    have hstep := (step_progress L roles c e).1.forward
    have hrest := ih (c.step L roles e)
    rw [exec_cons]
    omega

variable {es : List (Ctx × Call)}

/-- Until the next round is opened the record of a participant says that it has met its duty. -/
theorem met_of_run {d : Duty} {v : Address} (hmet : c.world.ethdkg.Met d v)
    (hround : (exec (step L roles) c es).world.ethdkg.nonce = c.world.ethdkg.nonce) :
    (exec (step L roles) c es).world.ethdkg.Met d v := by
  induction es generalizing c with
  | nil => exact hmet
  | cons e es ih =>
    have hprogress := (step_progress L roles c e).1
    have hle := hprogress.nonce_le
    have hle' := exec_nonce_le L roles (c.step L roles e) es
    rw [exec_cons] at hround
    exact ih (hmet.progress hprogress (by omega)) (by omega)

theorem nodup_of_run (L : Precompiles) (roles : Roles) (h : c.world.pool.validators.Nodup) :
    (exec (step L roles) c es).world.pool.validators.Nodup :=
  invariant (fun c => c.world.pool.validators.Nodup)
    (fun c e hc _ => (step_progress L roles c e).2 hc) h
    (along_of_forall (P := fun _ _ => True) fun _ _ _ => trivial)

def Meets (L : Precompiles) (roles : Roles) (d : Duty) (v : Address) (c : Chain) (e : Ctx × Call) :
    Prop :=
  e.2.duty = some d ∧ e.1.sender = v ∧ ∃ w, c.world.call L roles e.1 e.2 = .ok w

/-- In the round in which the run `es` ends, `v` has met the duty `d`. -/
def MetInRound (L : Precompiles) (roles : Roles) (start : Chain) (es : List (Ctx × Call)) (d : Duty)
    (v : Address) : Prop :=
  ∃ es₁ e es₂, es = es₁ ++ e :: es₂ ∧ Meets L roles d v (exec (step L roles) start es₁) e ∧
    (exec (step L roles) start es₁).world.ethdkg.nonce =
    (exec (step L roles) start es).world.ethdkg.nonce

theorem MetInRound.met {start : Chain} {d : Duty} {v : Address}
    (h : MetInRound L roles start es d v) :
    (exec (step L roles) start es).world.ethdkg.Met d v := by
  obtain ⟨es₁, e, es₂, rfl, ⟨hduty, rfl, w, hcall⟩, hround⟩ := h
  generalize hc : exec (step L roles) start es₁ = c at hcall hround
  have hpart := (World.call_takesPart hduty hcall).part
  rw [← step_world_of_ok hcall] at hpart
  rw [exec_append, hc, exec_cons] at hround ⊢
  exact met_of_run hpart.met (by rw [hpart.nonce, hround])

/-- No validator is registered unless the distributed key generation is running, when it is refused.
-/
def Closed (c : Chain) (e : Ctx × Call) : Prop :=
  ∀ validators tokenIDs, e.2 = .registerValidators validators tokenIDs →
    c.world.ethdkg.isETHDKGRunning e.1.block = .ok true

theorem closed_step (L : Precompiles) (roles : Roles) (hclosed : c.Closed e) :
    ∃ new, World.Evicts c.world (c.step L roles e).world new := by
  rcases step_world L roles c e with h | h
  · refine (World.call_quiet (fun validators tokenIDs hc => ?_) h).2
    have hrunning := hclosed validators tokenIDs hc
    rw [hc] at h
    exact (World.registerValidators_ok h).2.2 hrunning
  · rw [h]
    exact ⟨[], .refl _⟩

theorem closed_run (h : Along Closed (step L roles) c es) :
    ∃ new, World.Evicts c.world (exec (step L roles) c es).world new := by
  induction es generalizing c with
  | nil => exact ⟨[], .refl _⟩
  | cons e es ih =>
    obtain ⟨new1, h1⟩ := closed_step L roles h.1
    obtain ⟨new2, h2⟩ := ih h.2
    exact ⟨new1 ++ new2, h1.trans h2⟩

/-- In every run, an accusation of not having met the duty of the phase slashes nobody who has met
it in this round, and whoever is slashed is slashed once as long as no validators are registered. -/
theorem slashed_once_for_missed_duty (L : Precompiles) (roles : Roles)
    (phaseLength confirmationLength maxNumValidators block : Nat) (es : List (Ctx × Call)) :
    let start := deployed phaseLength confirmationLength maxNumValidators block
    let c := exec (step L roles) start es
    (∀ (v : Address) (e : Ctx × Call) (d : Duty) (as : List Address), e.2.accused = some (d, as) →
      (c.world.ethdkg.phase = d.phase → MetInRound L roles start es d v) →
      (c.step L roles e).world.slashed.count v = c.world.slashed.count v) ∧
    (∀ es', Along Closed (step L roles) c es' →
      ∃ new, (exec (step L roles) c es').world.slashed = c.world.slashed ++ new ∧ new.Nodup) := by
  intro start c
  constructor
  · intro v e d as haccused hmet
    rcases step_world L roles c e with h | h
    · obtain ⟨hevicts, hphase, hnot⟩ := World.accused_evicts haccused h
      have hv : v ∉ as := fun hv => hnot v hv (hmet hphase).met
      rw [hevicts.slashed, count_append, count_eq_zero_of_not_mem hv, Nat.add_zero]
    · rw [h]
  · intro es' hclosed
    obtain ⟨new, hevicts⟩ := closed_run hclosed
    have hnodup : c.world.pool.validators.Nodup := nodup_of_run L roles nodup_nil
    exact ⟨new, hevicts.slashed, (hevicts.unique hnodup).2⟩

/-- As `onePoint`, but a product with zero is the point at infinity. -/
def pointAndZero : Precompiles :=
  { onePoint with multiply := fun _ k => some (if k = 0 then (0, 0) else G1) }

/-- The first validator accuses the fourth one of bad shares. -/
def badShares (block : Nat) : Ctx × Call :=
  sends block 1 (.accuseParticipantDistributedBadShares 4 [1, 1, 1] [G1, G1, G1] G1 (1, 1))

/-- The fourth of four validators has distributed bad shares and is slashed. When the round has
ended with this, it becomes a validator again. Longer phases let the same round go on, and the same
accusation slashes it again. -/
theorem slashed_twice_in_round :
    let step := step pointAndZero onePointRoles
    let c := exec step (deployed 10 0 10 1) (
      [sends 9 0 (.registerValidators [1, 2, 3, 4] [1, 2, 3, 4]), sends 10 0 .initializeETHDKG] ++
      [1, 2, 3, 4].map (fun a => sends 11 a (.register G1)) ++
      [1, 2, 3, 4].map (fun a => sends 12 a (.distributeShares [1, 1, 1] [G1, G1, G1])) ++
      [badShares 13])
    let c' := exec step c
      [sends 22 0 (.registerValidators [4] [4]), sends 23 0 (.setPhaseLength 20), badShares 24]
    c.world.slashed = [4] ∧ c'.world.slashed = [4, 4] ∧
      c'.world.ethdkg.nonce = c.world.ethdkg.nonce := by
  decide +kernel

/-- Three of four validators register in time, and the fourth is accused twice. -/
theorem slashed_once_for_missed_duty_three :
    let start := deployed 100 0 10 1
    let es :=
      [sends 9 0 (.registerValidators [1, 2, 3, 4] [1, 2, 3, 4]), sends 10 0 .initializeETHDKG,
      sends 32 1 (.register G1), sends 32 2 (.register G1), sends 32 3 (.register G1)]
    let accusation := sends 115 1 (.accuseParticipantNotRegistered [4])
    let c := exec (step onePoint onePointRoles) start es
    (c.step onePoint onePointRoles accusation).world.slashed = [4] ∧
    (c.step onePoint onePointRoles accusation).world.slashed.count 1 = c.world.slashed.count 1 ∧
    ∃ new, (exec (step onePoint onePointRoles) c [accusation, accusation]).world.slashed =
      c.world.slashed ++ new ∧ new.Nodup := by
  intro start es accusation c
  obtain ⟨hmissed, honce⟩ := slashed_once_for_missed_duty onePoint onePointRoles 100 0 10 1 es
  refine ⟨by decide +kernel, hmissed 1 accusation .register [4] rfl fun _ => ?_, honce _ ?_⟩
  · exact ⟨es.take 2, sends 32 1 (.register G1), es.drop 3, rfl, ⟨rfl, rfl, _, rfl⟩, rfl⟩
  · refine along_of_forall fun c e he validators tokenIDs hc => ?_
    rw [mem_pair, or_self] at he
    rw [he] at hc
    cases hc

end Chain

end MadNet.Bridge
