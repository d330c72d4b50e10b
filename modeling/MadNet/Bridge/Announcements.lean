import MadNet.Bridge.Completion

/-!
# Nodes that follow the contracts

A node processes the logs of each call, with answers of the validator pool that are arbitrary: it
may ask at any later time. A processor that fails stops the node, which then meets the same log
again.
-/

namespace MadNet.Bridge

open Monitor (Address Answers Failure G2Big Log Member PhaseEvent Roster SetCall marshalG2Big)
open Run List Prog Chain Ethdkg

/-- The processors of the logs, from the one with the index `i` on. -/
def processLogs (answers : Nat → Answers) : Nat → List Log → Roster → Except Failure Roster
  | _, [], r => .ok r
  | i, log :: logs, r => do
    let (r', _) ← r.process (answers i) log
    processLogs answers (i + 1) logs r'

/-- The epochs of the members of the last round that were added. -/
def noteEpoch (epochs : List Nat) : Log → List Nat
  | .registrationOpened .. => []
  | .validatorMemberAdded _ _ _ epoch _ => epoch :: epochs
  | _ => epochs

def completesSet : Log → Bool
  | .validatorSetCompleted .. => true
  | _ => false

/-- What a call announces that completes a set: members are addresses, indices and shares. -/
structure Announcement where
  groupKey : G2Big
  height : Nat
  members : List World.Migrated

/-- The set that a call in the state `w` completes. -/
def announcement (w : World) (ctx : Ctx) : Call → Option Announcement
  | .complete => some {
      groupKey := w.ethdkg.masterPublicKey
      height := if w.ethdkg.customAliceNetHeight = 0 then ctx.aliceNetHeight
        else w.ethdkg.customAliceNetHeight
      members := w.pool.validators.map fun a =>
        (a, (w.ethdkg.participants a).index, (w.ethdkg.participants a).gpkj) }
  | .pauseConsensusOnArbitraryHeight height => some {
      groupKey := (0, 0, 0, 0)
      height := height
      members := [] }
  | .migrateValidators accounts indexes shares _ _ sideChainHeight _ masterPublicKey => some {
      groupKey := masterPublicKey
      height := sideChainHeight
      members := accounts.zip (indexes.zip shares) }
  | _ => none

/-- `AddValidatorSet` was called with what was announced. -/
structure Announcement.Met (x : Announcement) (set : SetCall) : Prop where
  groupKey : set.groupKey = x.groupKey
  height : set.notBefore = x.height
  length : set.validators.length = x.members.length
  position : ∀ m ∈ x.members, 1 ≤ m.2.1 ∧ set.validators[m.2.1 - 1]? = some (m.1, m.2.2)

/-- The numbers of the announcement fit into the fields of the set: the number of members, the
height, and keys that `MarshalG2Big` keeps. -/
structure Announcement.Fits (x : Announcement) : Prop where
  length : x.members.length < 2 ^ 8
  height : x.height < 2 ^ 32
  groupKey : marshalG2Big x.groupKey = x.groupKey
  shares : ∀ m ∈ x.members, marshalG2Big m.2.2 = m.2.2

structure Happening where
  ctx : Ctx
  call : Call
  answers : Nat → Answers

structure Follower where
  chain : Chain
  roster : Except Failure Roster
  /-- The epochs in which members of the last round were added. -/
  epochs : List Nat

namespace Follower

variable (L : Precompiles) (roles : Roles)

def start (chain : Chain) : Follower where
  chain := chain
  roster := .ok .empty
  epochs := []

def emitted (f : Follower) (e : Happening) : List Log :=
  (f.chain.step L roles (e.ctx, e.call)).world.logs.drop f.chain.world.logs.length

def step (f : Follower) (e : Happening) : Follower where
  chain := f.chain.step L roles (e.ctx, e.call)
  roster := f.roster >>= processLogs e.answers 0 (f.emitted L roles e)
  epochs := (f.emitted L roles e).foldl noteEpoch f.epochs

/-- Every log that completes a set and that the node gets to is processed without a failure, and
`AddValidatorSet` is called with the set of the call. -/
def Reconstructs (f : Follower) (e : Happening) : Prop :=
  ∀ before log after, f.emitted L roles e = before ++ log :: after → completesSet log = true →
    ∀ r r', f.roster = .ok r → processLogs e.answers 0 before r = .ok r' →
      ∃ x set, announcement f.chain.world e.ctx e.call = some x ∧
        r'.process (e.answers before.length) log = .ok (r', some set) ∧ x.Met set

/-- What the logs in the epoch of a set must have been for its members to be reconstructed. -/
def Timely (f : Follower) (e : Happening) (r : Roster) : Call → Prop
  | .complete =>
    (∀ epoch ∈ f.epochs, epoch % 2 ^ 32 = e.ctx.epoch % 2 ^ 32) ∧
    (r.validators (e.ctx.epoch % 2 ^ 32)).length ≤ f.chain.world.pool.validators.length ∧
    r.numberOfValidators = f.chain.world.pool.validators.length
  | .pauseConsensusOnArbitraryHeight _ => r.validators (e.ctx.epoch % 2 ^ 32) = []
  | .migrateValidators accounts indexes shares count epoch _ _ _ =>
    (accounts.zip (indexes.zip shares)).length = count % 2 ^ 8 ∧
    (indexes.Perm (range' 1 accounts.length)) ∧
    (r.validators (epoch % 2 ^ 32)).length ≤ count % 2 ^ 8 ∧
    (e.answers 0).poolCount = count % 2 ^ 8
  | _ => True

/-- The condition on a step. -/
structure Admits (f : Follower) (e : Happening) : Prop where
  chain : f.chain.Admits (e.ctx, e.call)
  timely : ∀ r w, f.roster = .ok r → f.chain.world.call L roles e.ctx e.call = .ok w →
    f.Timely e r e.call
  fits : ∀ x w, announcement f.chain.world e.ctx e.call = some x →
    f.chain.world.call L roles e.ctx e.call = .ok w → x.Fits

/-! ## What the logs of a call do to the node -/

variable {L roles} {answers : Nat → Answers} {logs : List Log} {r r' : Roster} {f : Follower}
  {e : Happening} {w : World} {a : Address}

theorem processLogs_of_silent (h : ∀ log ∈ logs, log.silent = true) (i : Nat) :
    processLogs answers i logs r = .ok r := by
  induction logs generalizing i with
  | nil => rfl
  | cons log logs ih =>
    rw [processLogs, Roster.process_of_silent (h log (by simp))]
    exact ih (fun log hlog => h log (by simp [hlog])) (i + 1)

variable {epochs : List Nat}

theorem foldl_noteEpoch_of_silent (h : ∀ log ∈ logs, log.silent = true) :
    logs.foldl noteEpoch epochs = epochs := by
  induction logs with
  | nil => rfl
  | cons log logs ih =>
    have hlog : noteEpoch epochs log = epochs := by
      have := h log (by simp)
      cases log <;> first | rfl | cases this
    rw [foldl_cons, hlog]
    exact ih fun log hlog => h log (by simp [hlog])

theorem emitted_eq {new : List Log} (h : f.chain.world.call L roles e.ctx e.call = .ok w)
    (hlogs : w.logs = f.chain.world.logs ++ new) : f.emitted L roles e = new := by
  rw [emitted, step_world_of_ok h, hlogs, drop_left]

theorem emitted_of_error {err : Revert} (h : f.chain.world.call L roles e.ctx e.call = .error err) :
    f.emitted L roles e = [] := by
  simp [emitted, Chain.step, h]

/-! ## The members of a round that is running are listed -/

/-- The node has the share of a participant, in the list of an epoch of the round. -/
def Listed (s : Ethdkg) (epochs : List Nat) (r : Roster) (a : Address) : Prop :=
  ∃ epoch ∈ epochs, (r.validators (epoch % 2 ^ 32))[(s.participants a).index - 1]? =
    some (some {
      account := a
      index := (s.participants a).index
      sharedKey := (s.participants a).gpkj })

structure Inv (L : Precompiles) (f : Follower) : Prop where
  chain : f.chain.Inv L
  listed : ∀ r, f.roster = .ok r → f.chain.world.ethdkg.Live f.chain.block →
    f.chain.opened.length < 2 ^ 8 → ∀ a, f.chain.world.ethdkg.level a = 4 →
    Listed f.chain.world.ethdkg f.epochs r a

theorem Listed.congr {s s' : Ethdkg} (h : Listed s epochs r a)
    (ha : s'.participants a = s.participants a) : Listed s' epochs r a := by
  unfold Listed
  rw [ha]
  exact h

variable {epoch i : Nat}

theorem Listed.added {s : Ethdkg} {account : Address} {index : Nat} {share : G2Big}
    {own : Option G2Big}
    (h : Listed s epochs r a) (hindex : 1 ≤ index) (hindex' : index < 2 ^ 8)
    (ha : 1 ≤ (s.participants a).index) (hne : (s.participants a).index ≠ index)
    (hr : r.processValidatorMemberAdded account index epoch share own = .ok r') :
    Listed s (epoch :: epochs) r' a := by
  obtain ⟨epoch', hmem, hget⟩ := h
  exact ⟨epoch', mem_cons_of_mem _ hmem,
    Roster.getElem?_added_of_ne hindex hindex' hr hget (by omega)⟩

theorem processLogs_cons {log : Log} {rest : List Log} (hrest : ∀ l ∈ rest, l.silent = true)
    (h : processLogs answers 0 (log :: rest) r = .ok r') :
    ∃ call, r.process (answers 0) log = .ok (r', call) := by
  obtain ⟨⟨r₁, call⟩, hlog, h⟩ := bind_ok h
  dsimp only at h
  rw [processLogs_of_silent hrest] at h
  cases h
  exact ⟨call, hlog⟩

/-- A participant has been taken ahead: who had submitted a GPKJ before is listed as before, and the
log of the sender lists the sender. -/
theorem Inv.listed_ahead (h : f.Inv L) {d : Duty} {s : Ethdkg} {p : Participant}
    {m : Point} {log : Log}
    {call : Option SetCall} (hjoins : World.Joins L e.ctx f.chain.world d s p m log)
    (hlive : f.chain.world.ethdkg.Live f.chain.block) (hlength : f.chain.opened.length < 2 ^ 8)
    (hr : f.roster = .ok r) (hlog : r.process (answers 0) log = .ok (r', call))
    (ha : (s.setParticipant e.ctx.sender p).level a = 4) :
    Listed (s.setParticipant e.ctx.sender p) (noteEpoch f.epochs log) r' a := by
  have hrunning := h.chain.running hlive
  have hround := hrunning.round_of_joins hjoins
  have hahead := hjoins.ahead
  obtain ⟨hnonce, hparticipants, -, -⟩ := hjoins.same
  have hold (hne : a ≠ e.ctx.sender) : Listed (s.setParticipant e.ctx.sender p) f.epochs r a := by
    rw [hahead.level_setParticipant, if_neg hne] at ha
    have ha : f.chain.world.ethdkg.level a = 4 := by
      unfold level at ha ⊢
      rwa [hparticipants, hnonce] at ha
    refine (h.listed r hr hlive hlength a ha).congr ?_
    rw [participants_setParticipant_of_ne hne, hparticipants]
  rcases hjoins.logged with ⟨hd, _, rfl⟩ | ⟨rfl, rfl⟩
  · have hbase : s.phase.base ≠ 3 := by
      rw [hjoins.phase]
      cases d <;> first | decide | exact absurd rfl hd
    have hne : a ≠ e.ctx.sender := by
      rintro rfl
      rw [hahead.level_setParticipant, if_pos rfl] at ha
      omega
    rw [Roster.process_of_silent rfl] at hlog
    cases hlog
    exact hold hne
  · obtain ⟨r₁, hadded, heq⟩ := except_map_eq_ok.mp hlog
    cases heq
    have hbase : s.phase.base = 3 := by rw [hjoins.phase]; rfl
    have hbefore := hahead.before
    have hindex : p.index = (s.participants e.ctx.sender).index := by
      simpa [hbase] using hahead.index
    have hreached : e.ctx.sender ∈ s.reached f.chain.opened 1 :=
      mem_reached.mpr ⟨hrunning.validators ▸ hjoins.validator, by omega⟩
    obtain ⟨hpos, hle⟩ := hround.index_mem hreached
    by_cases hne : a = e.ctx.sender
    · subst hne
      refine ⟨e.ctx.epoch, mem_cons_self, ?_⟩
      have := Roster.getElem?_added (by omega) (by omega) hadded
      simpa [setParticipant] using this
    · have hlevel := ha
      rw [hahead.level_setParticipant, if_neg hne] at hlevel
      have ha' : a ∈ s.reached f.chain.opened 1 :=
        mem_reached.mpr ⟨hround.mem_of_level (by omega), by omega⟩
      have hsame : (s.setParticipant e.ctx.sender p).participants a = s.participants a :=
        participants_setParticipant_of_ne hne
      refine (hold hne).added (by omega) (by omega) ?_ ?_ hadded
      · rw [hsame]
        exact (hround.index_mem ha').1
      · rw [hsame, hindex]
        exact fun heq => hne (hround.index_inj ha' hreached heq)

theorem step_chain (hcall : f.chain.world.call L roles e.ctx e.call = .ok w)
    (hne : e.call ≠ .initializeETHDKG) :
    f.chain.step L roles (e.ctx, e.call) = f.chain.after e.ctx w := by
  unfold Chain.step
  simp only [hcall]

theorem step_roster (h : (f.step L roles e).roster = .ok r') :
    ∃ r, f.roster = .ok r ∧ processLogs e.answers 0 (f.emitted L roles e) r = .ok r' :=
  bind_ok h

/-- After a call with an effect those that have submitted a GPKJ are listed. -/
theorem Inv.listed_effect (h : f.Inv L) (hblock : f.chain.block ≤ e.ctx.block)
    (hcall : f.chain.world.call L roles e.ctx e.call = .ok w)
    (heffect : World.Effect L e.ctx f.chain.world e.call w) (hr : f.roster = .ok r)
    (hr' : processLogs e.answers 0 (f.emitted L roles e) r = .ok r')
    (hlive : w.ethdkg.Live e.ctx.block)
    (hlength : f.chain.opened.length < 2 ^ 8) (ha : w.ethdkg.level a = 4) :
    Listed w.ethdkg ((f.emitted L roles e).foldl noteEpoch f.epochs) r' a := by
  have hlive' := (h.chain.live_of_effect heffect hlive).earlier hblock
  -- nothing changes if the round is the same and the logs say nothing about members
  have hkept (hroster : r' = r) (hepochs : (f.emitted L roles e).foldl noteEpoch f.epochs =
    f.epochs)
      (hparticipants : w.ethdkg.participants = f.chain.world.ethdkg.participants)
      (hnonce : w.ethdkg.nonce = f.chain.world.ethdkg.nonce) :
      Listed w.ethdkg ((f.emitted L roles e).foldl noteEpoch f.epochs) r' a := by
    rw [hroster, hepochs]
    unfold level at ha
    rw [hparticipants, hnonce] at ha
    exact (h.listed r hr hlive' hlength a ha).congr (by rw [hparticipants])
  have hsilent {new : List Log} (hlogs : w.logs = f.chain.world.logs ++ new)
      (hnew : ∀ log ∈ new, log.silent = true) :
      r' = r ∧ (f.emitted L roles e).foldl noteEpoch f.epochs = f.epochs := by
    rw [emitted_eq hcall hlogs] at hr' ⊢
    rw [processLogs_of_silent hnew] at hr'
    exact ⟨(Except.ok.inj hr').symm, foldl_noteEpoch_of_silent hnew⟩
  cases heffect with
  | quiet hsame _ _ _ hlogs =>
    obtain ⟨new, hlogs, hnew⟩ := hlogs
    obtain ⟨hroster, hepochs⟩ := hsilent hlogs hnew
    exact hkept hroster hepochs hsame.participants hsame.nonce
  | stopped _ _ hstopped _ => exact absurd hlive hstopped
  | ahead d s p m log done hjoins _ hw =>
    subst hw
    obtain ⟨rest, hlogs, hrest⟩ := World.logs_takePart f.chain.world e.ctx d.next log done
      { s.setParticipant e.ctx.sender p with mpkG1 := m }
    obtain ⟨hnonce, -, -, hparticipants⟩ := moveToNextPhase_kept
      { s.setParticipant e.ctx.sender p with mpkG1 := m } e.ctx.block d.next
      f.chain.world.pool.validators.length (s.numParticipants + 1)
    have hrest (l : Log) (hl : l ∈ rest) : l.silent = true := by
      obtain ⟨_, rfl⟩ := hrest l hl
      rfl
    rw [emitted_eq hcall hlogs] at hr' ⊢
    obtain ⟨call, hlog⟩ := processLogs_cons hrest hr'
    rw [foldl_cons, foldl_noteEpoch_of_silent hrest]
    have ha' : (s.setParticipant e.ctx.sender p).level a = 4 := by
      rw [← ha]
      exact congrArg₂ Participant.level (congrFun hparticipants a).symm hnonce.symm
    exact (h.listed_ahead hjoins hlive' hlength hr hlog ha').congr (congrFun hparticipants a)
  | mpk key hash _ _ hw _ hlogs =>
    obtain ⟨hroster, hepochs⟩ := hsilent hlogs (by simp [Log.silent])
    exact hkept hroster hepochs (by rw [hw]; rfl) (by rw [hw]; rfl)
  | reset height _ hsame _ _ _ hlogs =>
    rw [emitted_eq hcall hlogs] at hr' hkept ⊢
    obtain ⟨call, hlog⟩ := processLogs_cons (by simp) hr'
    obtain ⟨_, _, heq⟩ := except_map_eq_ok.mp hlog
    exact hkept (Prod.mk.inj heq).1.symm rfl hsame.participants hsame.nonce
  | completed _ _ _ _ _ _ _ hw =>
    exact absurd (by rw [hw]; rfl) (live_iff.mp hlive).2.2.1
  | migrated _ _ _ _ _ _ _ _ _ _ _ hnonce _ _ hstart =>
    exact absurd (hstart.trans (h.chain.unopened hnonce)) (live_iff.mp hlive).2.1

theorem Inv.step (h : f.Inv L) (hadmits : f.Admits L roles e) : (f.step L roles e).Inv L := by
  refine ⟨h.chain.step hadmits.chain, fun r' hr' hlive hlength a ha => ?_⟩
  obtain ⟨r, hr, hr'⟩ := step_roster hr'
  have hblock : f.chain.block ≤ e.ctx.block := hadmits.chain.1
  change (f.chain.step L roles (e.ctx, e.call)).world.ethdkg.Live
    (f.chain.step L roles (e.ctx, e.call)).block at hlive
  change (f.chain.step L roles (e.ctx, e.call)).opened.length < 2 ^ 8 at hlength
  change (f.chain.step L roles (e.ctx, e.call)).world.ethdkg.level a = 4 at ha
  change Listed (f.chain.step L roles (e.ctx, e.call)).world.ethdkg
    ((f.emitted L roles e).foldl noteEpoch f.epochs) r' a
  cases hcall : f.chain.world.call L roles e.ctx e.call with
  | error err =>
    rw [emitted_of_error hcall] at hr' ⊢
    obtain rfl := Except.ok.inj hr'
    have hstep : f.chain.step L roles (e.ctx, e.call) = { f.chain with block := e.ctx.block } := by
      simp [Chain.step, hcall]
    rw [hstep] at hlive hlength ha ⊢
    exact h.listed r hr (hlive.earlier hblock) hlength a ha
  | ok w =>
    by_cases hne : e.call = .initializeETHDKG
    · -- nobody has submitted a GPKJ in a new round
      rw [hne] at hcall
      have hw := (World.initializeETHDKG_ok hcall).2.1
      rw [← hne] at hcall
      rw [step_world_of_ok hcall, hw] at ha
      have hold : (f.chain.world.ethdkg.participants a).nonce ≠ f.chain.world.ethdkg.nonce + 1 :=
        Nat.ne_of_lt (Nat.lt_succ_of_le (h.chain.nonces a))
      exact absurd ha (by simp [level, Participant.level, hold])
    · rw [step_chain hcall hne] at hlive hlength ha ⊢
      exact h.listed_effect hblock hcall (World.call_effect hne hadmits.chain.2 hcall) hr hr' hlive
        hlength ha

theorem inv_start {phaseLength confirmationLength maxNumValidators block : Nat}
    (hblock : 0 < block) :
    (start (.deployed phaseLength confirmationLength maxNumValidators block)).Inv L where
  chain := inv_deployed L hblock
  listed _ _ hlive := absurd rfl (live_iff.mp hlive).2.1

/-! ## Reconstruction -/

/-- The members stand at their positions in the list of the epoch, which ends with them, and the
node expects as many as there are. -/
structure Complete (x : Announcement) (r : Roster) (epoch : Nat) : Prop where
  indices : (x.members.map fun m => m.2.1).Perm (range' 1 x.members.length)
  length_le : (r.validators (epoch % 2 ^ 32)).length ≤ x.members.length
  listed : ∀ m ∈ x.members, (r.validators (epoch % 2 ^ 32))[m.2.1 - 1]? =
    some (some { account := m.1, index := m.2.1, sharedKey := m.2.2 })
  expected : r.numberOfValidators = x.members.length ∨ x.members.length = 0

variable {x : Announcement}

theorem Complete.exists_member (h : Complete x r epoch)
    (hi : i < x.members.length) : ∃ m ∈ x.members, m.2.1 = i + 1 := by
  have hmem : i + 1 ∈ range' 1 x.members.length := mem_range'_1.mpr (by omega)
  exact mem_map.mp (h.indices.symm.subset hmem)

theorem Complete.length_eq (h : Complete x r epoch) :
    (r.validators (epoch % 2 ^ 32)).length = x.members.length := by
  refine Nat.le_antisymm h.length_le ?_
  by_contra hlt
  obtain ⟨m, hm, hindex⟩ := h.exists_member (i := (r.validators (epoch % 2 ^ 32)).length) (by omega)
  have := (List.getElem?_eq_some_iff.mp (h.listed m hm)).1
  omega

/-- The processor of the log that completes the set. -/
theorem Complete.process (h : Complete x r epoch) (hfits : x.Fits)
    (answers : Answers) (nonce ethHeight : Nat) :
    ∃ set, r.process answers
      (.validatorSetCompleted x.members.length nonce epoch ethHeight x.height x.groupKey) =
        .ok (r, some set) ∧ x.Met set := by
  have hfull : Roster.Full (r.validators (epoch % 2 ^ 32)) := by
    intro i hi
    obtain ⟨m, hm, hindex⟩ := h.exists_member (h.length_eq ▸ hi)
    refine ⟨⟨m.1, m.2.1, m.2.2⟩, ?_, hindex⟩
    have hlisted := h.listed m hm
    rwa [show m.2.1 - 1 = i by omega] at hlisted
  obtain ⟨set, hset, hkey, hheight, hlength, hposition⟩ := Roster.checkValidatorSet_full
    x.height x.groupKey hfull (h.length_eq ▸ hfits.length)
    (by rw [h.length_eq]; exact h.expected.imp_left Eq.symm)
  refine ⟨set, ?_, ?_⟩
  · have hcount : x.members.length % 2 ^ 8 = x.members.length := Nat.mod_eq_of_lt hfits.length
    have hh : x.height % 2 ^ 32 = x.height := Nat.mod_eq_of_lt hfits.height
    change Except.map _ (r.checkValidatorSet _ (x.members.length % 2 ^ 8) (x.height % 2 ^ 32) _) = _
    rw [hcount, hh, ← h.length_eq, hset]
    rfl
  · refine ⟨hkey.trans hfits.groupKey, hheight, hlength.trans h.length_eq, fun m hm => ?_⟩
    have hm' := h.indices.subset (mem_map_of_mem hm)
    refine ⟨(mem_range'_1.mp hm').1, ?_⟩
    rw [hposition _ _ (h.listed m hm), hfits.shares m hm]

theorem completesSet_of_silent {log : Log} (h : log.silent = true) : completesSet log = false := by
  cases log <;> first | rfl | cases h

/-- The only log that completes a set is the last one. -/
theorem split_last {init before after : List Log} {last log : Log}
    (hinit : ∀ l ∈ init, completesSet l = false) (hlog : completesSet log = true)
    (h : init ++ [last] = before ++ log :: after) : before = init ∧ log = last := by
  rcases append_eq_append_iff.mp h with ⟨as, hbefore, hlast⟩ | ⟨bs, hinit', hlast⟩
  · cases as with
    | nil =>
      obtain ⟨rfl, -⟩ := cons.inj hlast
      exact ⟨by simpa using hbefore, rfl⟩
    | cons a as =>
      have := (cons.inj hlast).2
      simp at this
  · cases bs with
    | nil =>
      obtain ⟨rfl, -⟩ := cons.inj hlast
      exact ⟨by simpa using hinit'.symm, rfl⟩
    | cons b bs =>
      obtain ⟨rfl, -⟩ := cons.inj hlast
      have hfalse := hinit log (by rw [hinit']; simp)
      rw [hlog] at hfalse
      cases hfalse

theorem Inv.complete_of_completed (h : f.Inv L) (hblock : f.chain.block ≤ e.ctx.block)
    (hx : announcement f.chain.world e.ctx .complete = some x) (hfits : x.Fits)
    (hphase : f.chain.world.ethdkg.phase = .disputeGPKJSubmission)
    (hlive : f.chain.world.ethdkg.Live e.ctx.block) (hr : f.roster = .ok r)
    (htimely : f.Timely e r .complete) : Complete x r e.ctx.epoch := by
  have hlive := hlive.earlier hblock
  have hrunning := h.chain.running hlive
  cases hx
  have hlength : f.chain.opened.length < 2 ^ 8 := by
    have := hfits.length
    rwa [length_map, hrunning.validators] at this
  have hindices := hrunning.round.indices
  rw [hrunning.round.reached_eq (by rw [hphase]; decide)] at hindices
  refine ⟨?_, ?_, fun m hm => ?_, .inl ?_⟩
  · rw [map_map, length_map, hrunning.validators]
    exact hindices
  · rw [length_map]
    exact htimely.2.1
  · obtain ⟨a, ha, rfl⟩ := mem_map.mp hm
    have hlevel := hrunning.level_eq hphase (hrunning.validators ▸ ha)
    obtain ⟨epoch, hmem, hget⟩ := h.listed r hr hlive hlength a hlevel
    rw [htimely.1 epoch hmem] at hget
    exact hget
  · rw [length_map]
    exact htimely.2.2

/-! ### Migrated validators -/

theorem processLogs_append {l₁ l₂ : List Log} (h : processLogs answers i (l₁ ++ l₂) r = .ok r') :
    ∃ r₁, processLogs answers i l₁ r = .ok r₁ ∧ processLogs answers (i + l₁.length) l₂
      r₁ = .ok r' := by
  induction l₁ generalizing i r with
  | nil => exact ⟨r, rfl, h⟩
  | cons log l₁ ih =>
    obtain ⟨⟨r₁, call⟩, hlog, h⟩ := bind_ok h
    obtain ⟨r₂, hr₂, h⟩ := ih h
    refine ⟨r₂, bind_eq_ok.mpr ⟨_, hlog, hr₂⟩, ?_⟩
    rwa [length_cons, ← Nat.add_assoc, Nat.add_right_comm]

/-- The logs of members with different indices. -/
theorem processLogs_members {ms : List World.Migrated} {nonce n : Nat}
    (hnodup : (ms.map fun m => m.2.1).Nodup) (hindex : ∀ m ∈ ms, 1 ≤ m.2.1 ∧ m.2.1 ≤ n)
    (hn : n < 2 ^ 8)
    (hlength : (r.validators (epoch % 2 ^ 32)).length ≤ n)
    (h : processLogs answers i (ms.map fun m => .validatorMemberAdded m.1 m.2.1 nonce epoch m.2.2)
      r = .ok r') :
    r'.numberOfValidators = r.numberOfValidators ∧
    (r'.validators (epoch % 2 ^ 32)).length ≤ n ∧
    (∀ m ∈ ms, (r'.validators (epoch % 2 ^ 32))[m.2.1 - 1]? =
      some (some { account := m.1, index := m.2.1, sharedKey := m.2.2 })) ∧
    ∀ (j : Nat) (v : Member), 1 ≤ j → j ∉ ms.map (fun m => m.2.1) →
      (r.validators (epoch % 2 ^ 32))[j - 1]? = some (some v) →
      (r'.validators (epoch % 2 ^ 32))[j - 1]? = some (some v) := by
  induction ms generalizing i r with
  | nil =>
    cases h
    exact ⟨rfl, hlength, by simp, fun _ _ _ _ hv => hv⟩
  | cons m ms ih =>
    obtain ⟨⟨r₁, call⟩, hlog, h⟩ := bind_ok h
    obtain ⟨_, hadded, heq⟩ := except_map_eq_ok.mp hlog
    cases heq
    rw [map_cons, nodup_cons] at hnodup
    obtain ⟨hpos, hle⟩ := hindex m (by simp)
    have hlength₁ := Roster.length_added hpos (by omega) hadded
    obtain ⟨hnumber, hlen, hlisted, hkept⟩ := ih hnodup.2 (fun m hm => hindex m (by simp [hm]))
      (by omega) h
    refine ⟨hnumber.trans (Roster.numberOfValidators_added hpos (by omega) hadded), hlen, ?_, ?_⟩
    · intro m' hm'
      rcases mem_cons.mp hm' with rfl | hm'
      · exact hkept _ _ hpos hnodup.1 (Roster.getElem?_added hpos (by omega) hadded)
      · exact hlisted m' hm'
    · intro j v hj hnot hv
      rw [map_cons, mem_cons, not_or] at hnot
      exact hkept j v hj hnot.2 (Roster.getElem?_added_of_ne hpos (by omega) hadded hv (by omega))

theorem complete_of_migrated {accounts : List Address} {indexes : List Nat} {shares : List G2Big}
    {count sideChainHeight ethHeight : Nat} {key : G2Big}
    (hlengths : accounts.length = indexes.length ∧ accounts.length = shares.length)
    (hx : x.members = accounts.zip (indexes.zip shares)) (hfits : x.Fits)
    (htimely : f.Timely e r (.migrateValidators accounts indexes shares count epoch sideChainHeight
      ethHeight key))
    (h : processLogs e.answers 0 (.registrationOpened e.ctx.block (count % 2 ^ 8) 1 0 0 ::
      (accounts.zip (indexes.zip shares)).map (fun _ => .phase .addressRegistered) ++
      (accounts.zip (indexes.zip shares)).map (fun v =>
        .validatorMemberAdded v.1 v.2.1 1 epoch v.2.2)) r = .ok r') : Complete x r' epoch := by
  obtain ⟨hcount, hindexes, hlength, hpool⟩ := htimely
  obtain ⟨r₁, h₁, h⟩ := processLogs_append h
  obtain ⟨call, hopened⟩ := processLogs_cons (fun l hl => by
    obtain ⟨_, -, rfl⟩ := mem_map.mp hl
    rfl) h₁
  cases hopened
  have hmap : (accounts.zip (indexes.zip shares)).map (fun m => m.2.1) = indexes := by
    have : (fun m : World.Migrated => m.2.1) = Prod.fst ∘ Prod.snd := rfl
    rw [this, ← map_map, map_snd_zip (by simp; omega), map_fst_zip (by omega)]
  rw [← hx] at h hmap hcount
  have hlen : accounts.length = x.members.length := by
    rw [hx, length_zip, length_zip]
    omega
  rw [hlen] at hindexes
  obtain ⟨hnumber, hle, hlisted, -⟩ := processLogs_members (n := x.members.length)
    (by rw [hmap]; exact hindexes.nodup_iff.mpr (nodup_range' _)) (fun m hm => by
      have := hindexes.subset (hmap ▸ mem_map_of_mem hm)
      have := mem_range'_1.mp this
      omega) hfits.length (by rw [hcount]; exact hlength) h
  exact ⟨by rw [hmap]; exact hindexes, hle, hlisted, .inl (hnumber.trans (hpool.trans hcount.symm))⟩

/-- A log that completes a set is processed as it should be. -/
theorem Inv.reconstructs (h : f.Inv L) (hadmits : f.Admits L roles e) :
    f.Reconstructs L roles e := by
  intro before log after hsplit hlog r r' hr hbefore
  cases hcall : f.chain.world.call L roles e.ctx e.call with
  | error err =>
    rw [emitted_of_error hcall] at hsplit
    simp at hsplit
  | ok w =>
    have hblock : f.chain.block ≤ e.ctx.block := hadmits.chain.1
    have htimely := hadmits.timely r w hr hcall
    have hfits := fun x hx => hadmits.fits x w hx hcall
    -- a log of a call that completes no set is another one
    have hother {new : List Log} (hlogs : w.logs = f.chain.world.logs ++ new)
        (hnew : ∀ l ∈ new, completesSet l = false) : False := by
      rw [emitted_eq hcall hlogs] at hsplit
      have := hnew log (by rw [hsplit]; simp)
      rw [hlog] at this
      cases this
    by_cases hne : e.call = .initializeETHDKG
    · rw [hne] at hcall
      have hlogs := (World.initializeETHDKG_ok hcall).2.2
      exact (hother hlogs (by simp [completesSet])).elim
    · cases World.call_effect hne hadmits.chain.2 hcall with
      | quiet _ _ _ _ hlogs | stopped _ _ _ hlogs =>
        obtain ⟨new, hlogs, hnew⟩ := hlogs
        exact (hother hlogs fun l hl => completesSet_of_silent (hnew l hl)).elim
      | ahead d s p m log' done hjoins _ hw =>
        subst hw
        obtain ⟨rest, hlogs, hrest⟩ := World.logs_takePart f.chain.world e.ctx d.next log' done
          { s.setParticipant e.ctx.sender p with mpkG1 := m }
        refine (hother hlogs fun l hl => ?_).elim
        rcases mem_cons.mp hl with rfl | hl
        · rcases hjoins.logged with ⟨-, _, rfl⟩ | ⟨-, rfl⟩ <;> rfl
        · obtain ⟨_, rfl⟩ := hrest l hl
          rfl
      | mpk _ _ _ _ _ _ hlogs => exact (hother hlogs (by simp [completesSet])).elim
      | reset height heq _ _ _ _ hlogs =>
        rw [heq] at htimely hfits ⊢
        rw [emitted_eq hcall hlogs] at hsplit
        obtain ⟨rfl, rfl⟩ := split_last (List.forall_mem_nil _) hlog hsplit
        cases hbefore
        have hcomplete : Complete { groupKey := (0, 0, 0, 0), height := height, members := [] } r
            e.ctx.epoch :=
          ⟨.refl _, Nat.le_of_eq (congrArg length htimely), List.forall_mem_nil _, .inr rfl⟩
        obtain ⟨set, hset⟩ := hcomplete.process (hfits _ rfl) _ _ _
        exact ⟨_, set, rfl, hset⟩
      | completed height heq _ hphase hbad hlength hend _ _ hlogs =>
        rw [heq] at htimely hfits ⊢
        rw [emitted_eq hcall hlogs] at hsplit
        obtain ⟨rfl, rfl⟩ := split_last (List.forall_mem_nil _) hlog hsplit
        cases hbefore
        have hlive := h.chain.live_of_dispute hphase hbad hlength hend
        have hcomplete := h.complete_of_completed hblock rfl (hfits _ rfl) hphase hlive hr htimely
        obtain ⟨set, hset⟩ := hcomplete.process (hfits _ rfl) _ _ _
        rw [length_map] at hset
        have hcount := (hfits _ rfl).length
        rw [length_map] at hcount
        rw [Nat.mod_eq_of_lt hcount]
        exact ⟨_, set, rfl, hset⟩
      | migrated accounts indexes shares count epoch sideChainHeight ethHeight key heq
        hlogs hlengths =>
        rw [heq] at htimely hfits ⊢
        rw [emitted_eq hcall hlogs] at hsplit
        obtain ⟨rfl, rfl⟩ := split_last (fun l hl => by
          simp only [mem_append, mem_cons, mem_map] at hl
          rcases hl with (rfl | ⟨_, -, rfl⟩) | ⟨_, -, rfl⟩ <;> rfl) hlog hsplit
        have hcomplete := complete_of_migrated hlengths rfl (hfits _ rfl) htimely hbefore
        obtain ⟨set, hset⟩ := hcomplete.process (hfits _ rfl) _ _ _
        rw [htimely.1] at hset
        exact ⟨_, set, rfl, hset⟩

/-- In every run of admitted steps, every log that completes a set and that the node gets to leads
to a call of `AddValidatorSet` with exactly the announced members, each at its position. -/
theorem reconstructs_of_admits (L : Precompiles) (roles : Roles)
    (phaseLength confirmationLength maxNumValidators block : Nat) (hblock : 0 < block)
    (es : List Happening)
    (h : Along (Admits L roles) (step L roles)
      (start (.deployed phaseLength confirmationLength maxNumValidators block)) es) :
    Along (Reconstructs L roles) (step L roles)
      (start (.deployed phaseLength confirmationLength maxNumValidators block)) es :=
  along_of_invariant (Inv L) (fun _ _ hinv hadmits => hinv.step hadmits)
    (fun _ _ hinv hadmits => hinv.reconstructs hadmits) (inv_start hblock) h

/-! ### Runs -/

/-- The node processes the logs of a call and finds four validators in the pool. -/
def follows (e : Ctx × Call) : Happening where
  ctx := e.1
  call := e.2
  answers _ := { poolCount := 4, ownGPKj := none }

/-- Four validators complete a round, and in the same epoch the consensus is paused. The set of the
second log has no members, but the epoch has four. -/
theorem reset_panics :
    let chain := Chain.deployed 100 0 10 1
    let es := (Chain.fullRound ++ [Chain.sends 235 1 .complete]).map follows
    let last := follows (Chain.sends 9000 0 (.pauseConsensusOnArbitraryHeight 5))
    let f := exec (step Chain.onePoint Chain.onePointRoles) (start chain) es
    Along (fun f e => f.chain.Admits (e.ctx, e.call)) (step Chain.onePoint Chain.onePointRoles)
      (start chain) (es ++ [last]) ∧
    (f.roster >>= fun r => (r.process (last.answers 0)
      (.validatorSetCompleted 0 1 1 0 5 (0, 0, 0, 0))).map Prod.snd) = .error .panic ∧
    ¬f.Reconstructs Chain.onePoint Chain.onePointRoles last := by
  intro chain es last f
  have hpanic : (f.roster >>= fun r => (r.process (last.answers 0)
      (.validatorSetCompleted 0 1 1 0 5 (0, 0, 0, 0))).map Prod.snd) = .error .panic := by
    decide +kernel
  have hemitted : f.emitted onePoint onePointRoles last =
      [] ++ .validatorSetCompleted 0 1 1 0 5 (0, 0, 0, 0) :: [] := by decide +kernel
  have hok : f.roster.isOk = true := by decide +kernel
  refine ⟨by decide +kernel, hpanic, fun h => ?_⟩
  obtain ⟨r, hr⟩ := exists_ok_of_isOk hok
  obtain ⟨x, set, -, hset, -⟩ := h _ _ _ hemitted rfl r r hr rfl
  rw [hr] at hpanic
  change (r.process (last.answers 0) _).map Prod.snd = _ at hpanic
  rw [show r.process (last.answers 0) _ = _ from hset] at hpanic
  cases hpanic

theorem admits_of_announcement_eq_none (hchain : f.chain.Admits (e.ctx, e.call))
    (h : (announcement f.chain.world e.ctx e.call).isNone = true) : f.Admits L roles e := by
  refine ⟨hchain, fun r w _ _ => ?_, fun x w hx => ?_⟩
  · cases hc : e.call with
    | complete | pauseConsensusOnArbitraryHeight | migrateValidators => rw [hc] at h; cases h
    | _ => trivial
  · rw [hx] at h
    cases h

theorem reconstructs_of_admits_fullRound :
    let chain := Chain.deployed 100 0 10 1
    let last := follows (Chain.sends 235 1 .complete)
    let f := exec (step Chain.onePoint Chain.onePointRoles) (start chain)
      (Chain.fullRound.map follows)
    (f.emitted Chain.onePoint Chain.onePointRoles last).length = 1 ∧
      f.Reconstructs Chain.onePoint Chain.onePointRoles last := by
  intro chain last f
  have hfirst : Along (fun f e => f.chain.Admits (e.ctx, e.call) ∧
      (announcement f.chain.world e.ctx e.call).isNone = true)
      (step onePoint onePointRoles) (start chain) (fullRound.map follows) := by
    decide +kernel
  have hroster : f.roster.map (fun r => ((r.validators 1).length, r.numberOfValidators)) =
      .ok (4, 4) := by decide +kernel
  have hlast : f.Admits onePoint onePointRoles last := by
    refine ⟨by decide +kernel, fun r w hr _ => ?_, fun x w hx _ => ?_⟩
    · rw [hr] at hroster
      obtain ⟨hlength, hnumber⟩ := Prod.mk.inj (Except.ok.inj hroster)
      have hcount : f.chain.world.pool.validators.length = 4 := by decide +kernel
      refine ⟨by decide +kernel, ?_, ?_⟩
      · rw [hcount]
        exact Nat.le_of_eq hlength
      · rw [hcount]
        exact hnumber
    · obtain rfl := Option.some_inj.mp hx
      exact ⟨by decide +kernel, by decide +kernel, by decide +kernel, by decide +kernel⟩
  have hfirst := along_of_invariant (Q := Admits onePoint onePointRoles) (fun _ => True)
    (fun _ _ _ _ => trivial) (fun _ _ _ h => admits_of_announcement_eq_none h.1 h.2) trivial hfirst
  have h := reconstructs_of_admits onePoint onePointRoles 100 0 10 1 (by decide)
    (fullRound.map follows ++ [last]) (along_append.mpr ⟨hfirst, hlast, trivial⟩)
  exact ⟨by decide +kernel, (along_append.mp h).2.1⟩

end Follower

end MadNet.Bridge
