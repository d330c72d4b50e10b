import MadNet.Lib.Run

/-!
# The queue of Ethereum transactions

`Loop` starts a goroutine for each request, so that the requests are handled in any order; each
handler holds the lock while it reads or changes the maps. `collectReceipts` asks the client for the
receipts of the waiting transactions, once a second. A step of a run is a handler, or what
`collectReceipts` does with one of the transactions.
-/

namespace MadNet.TxnQueue

open Run List
open Function (update update_self update_of_ne update_apply)

variable {η κ : Type} [DecidableEq η] [DecidableEq κ] [Inhabited κ]

structure Txn (η κ : Type) where
  hash : η
  /-- `ExtractSelector` of its data. -/
  selector : κ

structure Receipt where
  gasUsed : UInt64
  status : UInt64

structure TransactionProfile where
  averageGas : UInt64 := 0
  minimumGas : UInt64 := 0
  maximumGas : UInt64 := 0
  totalCount : UInt64 := 0
  totalGas : UInt64 := 0
  totalSuccess : UInt64 := 0

def TransactionProfile.update (profile : TransactionProfile) (rcpt : Receipt) :
    TransactionProfile where
  averageGas := (profile.averageGas * profile.totalCount + rcpt.gasUsed) / (profile.totalCount + 1)
  maximumGas := if profile.maximumGas < rcpt.gasUsed then rcpt.gasUsed else profile.maximumGas
  minimumGas := if profile.minimumGas = 0 ∨ rcpt.gasUsed < profile.minimumGas then rcpt.gasUsed
    else profile.minimumGas
  totalCount := profile.totalCount + 1
  totalGas := profile.totalGas + rcpt.gasUsed
  totalSuccess := if rcpt.status = 1 then profile.totalSuccess + 1 else profile.totalSuccess

structure Behind (η κ : Type) where
  waitingTxns : η → Bool
  readyTxns : η → Option Receipt
  selectors : η → Option κ
  groups : Int → Option (List η)
  aggregates : κ → TransactionProfile

/-- The context of a transaction is done, or what the client says about its receipt. -/
inductive Reply where
  | done
  | notFound
  | receipt (rcpt : Receipt)

/-- What a waiter waits for. -/
inductive Request (η : Type) where
  | txn (hash : η)
  | group (grp : Int)

namespace Behind

variable (b : Behind η κ)

def initial : Behind η κ where
  waitingTxns _ := false
  readyTxns _ := none
  selectors _ := none
  groups _ := none
  aggregates _ := {}

def queue (txn : Txn η κ) (group : Int) : Behind η κ :=
  { b with
    selectors := update b.selectors txn.hash (some txn.selector)
    waitingTxns := update b.waitingTxns txn.hash true
    groups := update b.groups group (some ((b.groups group).getD [] ++ [txn.hash])) }

/-- The receipts of a group, which are deleted one by one. -/
def takeReceipts (readyTxns : η → Option Receipt) :
    List η → List (Option Receipt) × (η → Option Receipt)
  | [] => ([], readyTxns)
  | txn :: txns =>
    let (rcpts, rest) := takeReceipts (update readyTxns txn none) txns
    (readyTxns txn :: rcpts, rest)

/-- `check`: the receipts, if the waiter is done. -/
def check : Request η → Option (List (Option Receipt) × Behind η κ)
  | .txn txn =>
    match b.readyTxns txn with
    | some rcpt => some ([some rcpt], { b with readyTxns := update b.readyTxns txn none })
    | none => none
  | .group grp =>
    let txns := (b.groups grp).getD []
    if txns.all fun txn => (b.readyTxns txn).isSome then
      let (rcpts, readyTxns) := takeReceipts b.readyTxns txns
      some (rcpts, { b with readyTxns := readyTxns, groups := update b.groups grp none })
    else none

/-- The body of the loop of `collectReceipts`; `debug` says whether the level of the log is enabled.
-/
def collectOne (debug : Bool) (txn : η) (reply : Reply) : Behind η κ :=
  if b.waitingTxns txn then
    match reply with
    | .done => { b with waitingTxns := update b.waitingTxns txn false }
    | .notFound => b
    | .receipt rcpt =>
      let profile :=
        match b.selectors txn with
        | some selector => b.aggregates selector
        | none => {}
      { b with
        readyTxns := update b.readyTxns txn (some rcpt)
        aggregates := update b.aggregates ((b.selectors txn).getD default) (profile.update rcpt)
        -- the transaction is deleted where it is logged
        waitingTxns := if debug then update b.waitingTxns txn false else b.waitingTxns }
  else b

def collectReceipts (debug : Bool) (replies : List (η × Reply)) : Behind η κ :=
  replies.foldl (fun b (txn, reply) => b.collectOne debug txn reply) b

end Behind

/-- The maps, with the receipts that have been stored and the transactions whose receipt a waiter
has got. -/
structure Watched (η κ : Type) extends Behind η κ where
  stored : List (η × Receipt)
  received : List η

inductive Action (η κ : Type) where
  | queue (txn : Txn η κ) (group : Int)
  | check (req : Request η)
  | collect (txn : η) (reply : Reply)

namespace Watched

variable (debug : Bool) (s : Watched η κ)

def initial : Watched η κ where
  toBehind := .initial
  stored := []
  received := []

/-- The transactions whose receipts a waiter gets. -/
def requested : Request η → List η
  | .txn txn => [txn]
  | .group grp => (s.groups grp).getD []

def step : Action η κ → Watched η κ
  | .queue txn group => { s with toBehind := s.toBehind.queue txn group }
  | .check req =>
    match s.toBehind.check req with
    | some (_, b) => { s with toBehind := b, received := s.received ++ s.requested req }
    | none => s
  | .collect txn reply =>
    { s with
      toBehind := s.toBehind.collectOne debug txn reply
      stored := match reply with
        | .receipt rcpt => if s.waitingTxns txn then s.stored ++ [(txn, rcpt)] else s.stored
        | _ => s.stored }

theorem exec_collect (replies : List (η × Reply)) :
    (exec (step debug) s (replies.map fun r => .collect r.1 r.2)).toBehind =
      s.toBehind.collectReceipts debug replies := by
  induction replies generalizing s with
  | nil => rfl
  | cons r replies ih => exact ih _

/-- The receipts that have been stored for the transactions of a selector. -/
def receiptsOf (selector : κ) : List Receipt :=
  (s.stored.filter fun e => s.selectors e.1 = some selector).map (·.2)

/-- No receipt is waited for, delivered or counted twice. -/
structure CountedOnce (s : Watched η κ) : Prop where
  stored : ∀ txn ∈ s.stored.map (·.1), s.waitingTxns txn = false
  received : ∀ txn ∈ s.received, s.readyTxns txn = none
  distinct : (s.stored.map (·.1)).Nodup
  totalCount : ∀ k, (s.aggregates k).totalCount = .ofNat (s.receiptsOf k).length
  totalGas : ∀ k, (s.aggregates k).totalGas = ((s.receiptsOf k).map (·.gasUsed)).sum
  totalSuccess : ∀ k, (s.aggregates k).totalSuccess = .ofNat
    ((s.receiptsOf k).countP (·.status = 1))

end Watched

/-- The transactions that are queued have different hashes. -/
def Action.Admissible (s : Watched η κ) : Action η κ → Prop
  | .queue txn _ => s.selectors txn.hash = none
  | _ => True

def Action.Stores (s : Watched η κ) : Action η κ → Prop
  | .collect txn (.receipt _) => s.waitingTxns txn
  | _ => False

/-! ## Counting once -/

omit [DecidableEq κ] [Inhabited κ] in
theorem Behind.takeReceipts_snd (readyTxns : η → Option Receipt) (txns : List η) (t : η) :
    (takeReceipts readyTxns txns).2 t = if t ∈ txns then none else readyTxns t := by
  induction txns generalizing readyTxns with
  | nil => rfl
  | cons txn txns ih =>
    rw [takeReceipts, ih, update_apply]
    grind

theorem TransactionProfile.foldl_update (rcpts : List Receipt) :
    let profile := rcpts.foldl TransactionProfile.update {}
    profile.totalCount = .ofNat rcpts.length ∧ profile.totalGas = (rcpts.map (·.gasUsed)).sum ∧
      profile.totalSuccess = .ofNat (rcpts.countP (·.status = 1)) := by
  induction rcpts using List.reverseRecOn with
  | nil => exact ⟨rfl, rfl, rfl⟩
  | append_singleton rcpts rcpt ih =>
    obtain ⟨hcount, hgas, hsuccess⟩ := ih
    rw [foldl_append]
    refine ⟨?_, ?_, ?_⟩
    · simp [TransactionProfile.update, hcount]
    · simp [TransactionProfile.update, hgas]
    · by_cases h : rcpt.status = 1
      · simp [TransactionProfile.update, hsuccess, h]
      · simp [TransactionProfile.update, hsuccess, h]

namespace Watched

variable {debug : Bool} {s : Watched η κ} {txn : η}

/-- What holds as long as each receipt that is stored is deleted from the waiting transactions. -/
structure Inv (s : Watched η κ) : Prop where
  stored : ∀ txn ∈ s.stored.map (·.1), s.waitingTxns txn = false ∧ (s.selectors txn).isSome
  waiting : ∀ txn, s.waitingTxns txn → (s.selectors txn).isSome
  ready : ∀ txn, (s.readyTxns txn).isSome → txn ∈ s.stored.map (·.1)
  received : ∀ txn ∈ s.received, s.readyTxns txn = none ∧ txn ∈ s.stored.map (·.1)
  distinct : (s.stored.map (·.1)).Nodup
  aggregates : ∀ k, s.aggregates k = (s.receiptsOf k).foldl TransactionProfile.update {}

omit [DecidableEq η] [Inhabited κ] in
theorem Inv.countedOnce (h : s.Inv) : s.CountedOnce where
  stored txn htxn := (h.stored txn htxn).1
  received txn htxn := (h.received txn htxn).1
  distinct := h.distinct
  totalCount k := by rw [h.aggregates, (TransactionProfile.foldl_update _).1]
  totalGas k := by rw [h.aggregates, (TransactionProfile.foldl_update _).2.1]
  totalSuccess k := by rw [h.aggregates, (TransactionProfile.foldl_update _).2.2]

omit [DecidableEq η] [Inhabited κ] in
theorem inv_initial : (initial : Watched η κ).Inv :=
  ⟨nofun, nofun, nofun, nofun, .nil, fun _ => rfl⟩

theorem step_receipt (debug : Bool) {selector : κ} (rcpt : Receipt) (hwaiting : s.waitingTxns txn)
    (hsel : s.selectors txn = some selector) :
    s.step debug (.collect txn (.receipt rcpt)) = { s with
      readyTxns := update s.readyTxns txn (some rcpt)
      aggregates := update s.aggregates selector ((s.aggregates selector).update rcpt)
      waitingTxns := if debug then update s.waitingTxns txn false else s.waitingTxns
      stored := s.stored ++ [(txn, rcpt)] } := by
  simp [step, Behind.collectOne, hwaiting, hsel]

omit [DecidableEq κ] [Inhabited κ] in
theorem waitingTxns_of_update {t : η} (h : update s.waitingTxns txn false t = true) :
    s.waitingTxns t = true := by
  rw [update_apply] at h
  split at h
  · cases h
  · exact h

omit [Inhabited κ] in
theorem Inv.done (h : s.Inv) : { s with waitingTxns := update s.waitingTxns txn false }.Inv where
  stored t ht := ⟨Bool.eq_false_iff.mpr fun hw =>
    Bool.eq_false_iff.mp (h.stored t ht).1 (waitingTxns_of_update hw), (h.stored t ht).2⟩
  waiting t ht := h.waiting t (waitingTxns_of_update ht)
  ready := h.ready
  received := h.received
  distinct := h.distinct
  aggregates := h.aggregates

/-- The receipt of a waiting transaction is stored, and the transaction deleted. -/
theorem Inv.receipt (h : s.Inv) (rcpt : Receipt) (hwaiting : s.waitingTxns txn) :
    (s.step true (.collect txn (.receipt rcpt))).Inv := by
  obtain ⟨selector, hsel⟩ := Option.isSome_iff_exists.mp (h.waiting txn hwaiting)
  have hnew : txn ∉ s.stored.map (·.1) := by
    intro hmem
    rw [(h.stored txn hmem).1] at hwaiting
    cases hwaiting
  have hstored {t : η} : t ∈ (s.stored ++ [(txn, rcpt)]).map (·.1) ↔ t ∈ s.stored.map (·.1) ∨
    t = txn := by
    simp
  rw [step_receipt true rcpt hwaiting hsel]
  have hdone : { s with waitingTxns := update s.waitingTxns txn false }.Inv := h.done
  refine ⟨fun t ht => ?_, hdone.waiting, fun t ht => ?_, fun t ht => ?_, ?_, fun k => ?_⟩
  · rcases hstored.mp ht with ht | rfl
    · exact hdone.stored t ht
    · exact ⟨update_self .., h.waiting t hwaiting⟩
  · refine hstored.mpr (or_iff_not_imp_right.mpr fun hne => h.ready t ?_)
    exact (congrArg Option.isSome (update_of_ne hne _ _)).symm.trans ht
  · have hne : t ≠ txn := fun heq => hnew (heq ▸ (h.received t ht).2)
    exact ⟨(update_of_ne hne _ _).trans (h.received t ht).1, hstored.mpr (.inl (h.received t ht).2)⟩
  · rw [map_append]
    exact (nodup_cons.mpr ⟨hnew, h.distinct⟩).perm (perm_append_singleton txn _).symm
  · by_cases hk : k = selector
    · subst hk
      simp [receiptsOf, hsel, filter_append, h.aggregates]
    · have hk' : selector ≠ k := Ne.symm hk
      simp [receiptsOf, hsel, filter_append, hk, hk', h.aggregates]

omit [DecidableEq κ] [Inhabited κ] in
/-- A waiter that is done has found all its receipts, and none of them is left. -/
theorem check_eq_some {req : Request η} {rcpts : List (Option Receipt)} {b : Behind η κ}
    (h : s.toBehind.check req = some (rcpts, b)) :
    (∀ t ∈ s.requested req, (s.readyTxns t).isSome) ∧ b.waitingTxns = s.waitingTxns ∧
      b.selectors = s.selectors ∧ b.aggregates = s.aggregates ∧
      ∀ t, b.readyTxns t = if t ∈ s.requested req then none else s.readyTxns t := by
  cases req with
  | txn txn =>
    cases hr : s.readyTxns txn with
    | none => simp [Behind.check, hr] at h
    | some rcpt =>
      simp only [Behind.check, hr, Option.some.injEq, Prod.mk.injEq] at h
      obtain ⟨-, rfl⟩ := h
      simp [requested, hr, update_apply]
  | group grp =>
    simp only [Behind.check] at h
    split at h
    · next hready =>
      obtain ⟨-, rfl⟩ := h
      exact ⟨by simpa [requested] using hready, rfl, rfl, rfl, Behind.takeReceipts_snd _ _⟩
    · cases h

variable {a : Action η κ}

theorem Inv.step (h : s.Inv) (hadm : a.Admissible s) (hok : debug = true ∨ ¬a.Stores s) :
    (s.step debug a).Inv := by
  cases a with
  | queue txn group =>
    have hsel {t : η} (ht : (s.selectors t).isSome) : t ≠ txn.hash := by
      rintro rfl
      rw [hadm] at ht
      cases ht
    have hsome {t : η} (ht : (s.selectors t).isSome) :
        (update s.selectors txn.hash (some txn.selector) t).isSome := by
      rwa [update_of_ne (hsel ht)]
    refine ⟨fun t ht => ⟨?_, hsome (h.stored t ht).2⟩, fun t ht => ?_, h.ready,
      h.received, h.distinct,
      fun k => (h.aggregates k).trans (congrArg (foldl _ _ <| map _ ·) ?_)⟩
    · exact (update_of_ne (hsel (h.stored t ht).2) _ _).trans (h.stored t ht).1
    · by_cases heq : t = txn.hash
      · simp [heq, Watched.step, Behind.queue]
      · exact hsome (h.waiting t ((update_of_ne heq _ _).symm.trans ht))
    · refine filter_congr fun e he => ?_
      have hne := hsel (h.stored e.1 (mem_map_of_mem he)).2
      simp [Watched.step, Behind.queue, hne]
  | check req =>
    cases hcheck : s.toBehind.check req with
    | none => simpa [Watched.step, hcheck] using h
    | some res =>
      obtain ⟨hready, hw, hs, ha, hr⟩ := check_eq_some hcheck
      simp only [Watched.step, hcheck]
      refine ⟨?_, ?_, fun t ht => ?_, fun t ht => ?_, h.distinct, ?_⟩
      · simpa only [hw, hs] using h.stored
      · simpa only [hw, hs] using h.waiting
      · simp only [hr] at ht
        split at ht
        · cases ht
        · exact h.ready t ht
      · simp only [hr]
        rcases mem_append.mp ht with ht | ht
        · simp [h.received t ht]
        · simp [ht, h.ready t (hready t ht)]
      · simpa only [receiptsOf, hs, ha] using h.aggregates
  | collect txn reply =>
    by_cases hwaiting : s.waitingTxns txn
    · cases reply with
      | done => simpa [Watched.step, Behind.collectOne, hwaiting] using h.done
      | notFound => simpa [Watched.step, Behind.collectOne] using h
      | receipt rcpt =>
        obtain rfl := hok.resolve_right (not_not.mpr hwaiting)
        exact h.receipt rcpt hwaiting
    · cases reply <;> simpa [Watched.step, Behind.collectOne, hwaiting] using h

/-- Unless it is logged, a transaction whose receipt is stored goes on waiting. -/
theorem not_countedOnce_of_stores (h : a.Stores s) : ¬(s.step false a).CountedOnce := by
  match a, h with
  | .collect txn (.receipt rcpt), h =>
    intro hcounted
    have hfalse := hcounted.stored txn (by simp [step, show s.waitingTxns txn from h])
    simp [step, Behind.collectOne, show s.waitingTxns txn from h] at hfalse

theorem forall_countedOnce_iff (h : s.Inv) {es : List (Action η κ)}
    (hadm : Along (fun s a => a.Admissible s) (step debug) s es) :
    (∀ es', es' <+: es → (exec (step debug) s es').CountedOnce) ↔
      Along (fun s a => debug = true ∨ ¬a.Stores s) (step debug) s es := by
  induction es generalizing s with
  | nil => simpa [Along] using h.countedOnce
  | cons a es ih =>
    constructor
    · intro hcounted
      have hok : debug = true ∨ ¬a.Stores s := by
        refine or_iff_not_imp_left.mpr fun hdebug hstores => not_countedOnce_of_stores hstores ?_
        rw [Bool.not_eq_true] at hdebug
        exact hdebug ▸ hcounted [a] (by simp)
      refine ⟨hok, (ih (h.step hadm.1 hok) hadm.2).mp fun es' hes' => ?_⟩
      exact hcounted (a :: es') (cons_prefix_cons.mpr ⟨rfl, hes'⟩)
    · rintro ⟨hok, hrest⟩ es' hes'
      cases es' with
      | nil => exact h.countedOnce
      | cons a' es' =>
        obtain ⟨rfl, htail⟩ := cons_prefix_cons.mp hes'
        exact (ih (h.step hadm.1 hok) hadm.2).mpr hrest es' htail

/-- Each receipt is counted once in every state of a run exactly if every receipt of the run is
logged. -/
theorem countedOnce_exec_iff {es : List (Action η κ)}
    (hadm : Along (fun s a => a.Admissible s) (step debug) initial es) :
    (∀ es', es' <+: es → (exec (step debug) initial es').CountedOnce) ↔
      Along (fun s a => debug = true ∨ ¬a.Stores s) (step debug) initial es :=
  forall_countedOnce_iff inv_initial hadm

/-- A transaction of selector `7`, for which the client has a receipt. -/
def collectedOnce : List (Action Nat Nat) := [.queue ⟨1, 7⟩ 0, .collect 1 (.receipt ⟨21000, 1⟩)]

theorem countedOnce_exec_collectedOnce :
    (∀ es', es' <+: collectedOnce → (exec (step true) initial es').CountedOnce) ↔
      Along (fun s a => true = true ∨ ¬a.Stores s) (step true) initial collectedOnce :=
  countedOnce_exec_iff ⟨rfl, trivial, trivial⟩

/-- Unless the level of the log is debug, the receipt is counted again a second later. -/
theorem not_countedOnce_collectedOnce :
    let s := exec (step false) initial collectedOnce
    1 ∈ s.stored.map (·.1) ∧ s.waitingTxns 1 = true ∧
      ((s.step false (.collect 1 (.receipt ⟨21000, 1⟩))).aggregates 7).totalCount = 2 := by
  decide

/-! ## Waiting for a group -/

omit [DecidableEq κ] [Inhabited κ] in
theorem takeReceipts_fst (readyTxns : η → Option Receipt) {txns : List η} (h : txns.Nodup) :
    (Behind.takeReceipts readyTxns txns).1 = txns.map readyTxns := by
  induction txns generalizing readyTxns with
  | nil => rfl
  | cons txn txns ih =>
    obtain ⟨hnot, h⟩ := nodup_cons.mp h
    simp only [Behind.takeReceipts, ih _ h, map_cons]
    exact congrArg _ (map_congr_left fun t ht => update_of_ne (ne_of_mem_of_not_mem ht hnot) _ _)

/-- The hashes of the transactions that have been queued in a group. -/
def queuedIn (grp : Int) : Action η κ → Option η
  | .queue txn group => if group = grp then some txn.hash else none
  | _ => none

/-- The waiter for the group goes on waiting. -/
def Unfinished (grp : Int) (s : Watched η κ) (a : Action η κ) : Prop :=
  ∀ req, a = .check req → req = .group grp → s.toBehind.check req = none

omit [DecidableEq κ] [Inhabited κ] in
theorem groups_of_check {req : Request η} {grp : Int} {res : List (Option Receipt) × Behind η κ}
    (h : s.toBehind.check req = some res) (hreq : req ≠ .group grp) :
    res.2.groups grp = s.groups grp := by
  cases req with
  | txn txn =>
    simp only [Behind.check] at h
    split at h
    · cases h
      rfl
    · cases h
  | group g =>
    simp only [Behind.check] at h
    split at h
    · cases h
      exact update_of_ne (fun heq => hreq (congrArg Request.group heq.symm)) _ _
    · cases h

theorem groups_step {grp : Int} (h : Unfinished grp s a) :
    ((s.step debug a).groups grp).getD [] = (s.groups grp).getD [] ++ (queuedIn grp a).toList := by
  cases a with
  | queue txn group =>
    by_cases hg : group = grp
    · simp [step, Behind.queue, queuedIn, hg]
    · simp [step, Behind.queue, queuedIn, hg, Ne.symm hg]
  | check req =>
    cases hcheck : s.toBehind.check req with
    | none => simp [step, hcheck, queuedIn]
    | some res =>
      have hreq : req ≠ .group grp := fun heq => by simp [h req rfl heq] at hcheck
      simp [step, hcheck, queuedIn, groups_of_check hcheck hreq]
  | collect txn reply =>
    cases reply <;> by_cases hwaiting : s.waitingTxns txn <;> simp [step, Behind.collectOne,
      queuedIn, hwaiting]

theorem groups_exec {grp : Int} {es : List (Action η κ)}
    (h : Along (Unfinished grp) (step debug) s es) :
    ((exec (step debug) s es).groups grp).getD [] = (s.groups grp).getD [] ++ es.filterMap
      (queuedIn grp) := by
  induction es generalizing s with
  | nil => simp
  | cons a es ih =>
    rw [exec_cons, ih h.2, groups_step h.1]
    cases hq : queuedIn grp a <;> simp [hq]

/-- The receipts of exactly these transactions, one each and none nil. -/
def ReceiptsOf (s : Watched η κ) (txns : List η) (rcpts : List (Option Receipt)) : Prop :=
  ∃ order : List η, order.Perm txns ∧ rcpts = order.map s.readyTxns ∧ ∀ rcpt ∈ rcpts, rcpt.isSome

/-- The waiter gets the receipts of the group exactly if all its transactions have been queued
before, or if it goes on waiting for one that has. -/
theorem waitGroup_iff {grp : Int} {txns : List η} (hdistinct : txns.Nodup) {es : List (Action η κ)}
    (hqueued : es.filterMap (queuedIn grp) <+~ txns)
    (hwait : Along (Unfinished grp) (step debug) initial es) :
    let s := exec (step debug) initial es
    (∀ rcpts b, s.toBehind.check (.group grp) = some (rcpts, b) → s.ReceiptsOf txns rcpts) ↔
      (∀ txn ∈ txns, txn ∈ es.filterMap (queuedIn grp)) ∨
        ∃ txn ∈ es.filterMap (queuedIn grp), s.readyTxns txn = none := by
  intro s
  have hgroup : (s.groups grp).getD [] = es.filterMap (queuedIn grp) := groups_exec hwait
  generalize es.filterMap (queuedIn grp) = queued at hqueued hgroup
  have hnodup : queued.Nodup := by
    obtain ⟨l, hl, hsub⟩ := hqueued
    exact hl.nodup_iff.mp (hdistinct.sublist hsub)
  by_cases hready : ∃ txn ∈ queued, s.readyTxns txn = none
  · refine iff_of_true (fun rcpts b hcheck => ?_) (.inr hready)
    obtain ⟨txn, hmem, hnone⟩ := hready
    have hsome := (check_eq_some hcheck).1 txn (by rwa [requested, hgroup])
    simp [hnone] at hsome
  · have hall : ∀ txn ∈ queued, (s.readyTxns txn).isSome := fun txn hmem =>
      Option.isSome_iff_ne_none.mpr fun hnone => hready ⟨txn, hmem, hnone⟩
    have hcheck : ∃ b, s.toBehind.check (.group grp) = some (queued.map s.readyTxns, b) := by
      simp [Behind.check, hgroup, all_eq_true.mpr hall, takeReceipts_fst _ hnodup]
    obtain ⟨b, hcheck⟩ := hcheck
    have hsome : ∀ rcpt ∈ queued.map s.readyTxns, rcpt.isSome := by simpa using hall
    simp only [hcheck, Option.some.injEq, Prod.mk.injEq, hready, or_false]
    constructor
    · intro h txn hmem
      obtain ⟨order, hperm, heq, -⟩ := h _ b ⟨rfl, rfl⟩
      have hlen : queued.length =
        txns.length := by simpa [hperm.length_eq] using congrArg length heq
      exact (hqueued.perm_of_length_le (Nat.le_of_eq hlen.symm)).mem_iff.mpr hmem
    · rintro hsub rcpts b' ⟨rfl, -⟩
      exact ⟨queued, hqueued.antisymm (subperm_of_subset hdistinct hsub), rfl, hsome⟩

/-- Two transactions are queued in a group, and their receipts come in the other order. -/
def collectedBoth : List (Action Nat Nat) :=
  [.queue ⟨1, 7⟩ 0, .queue ⟨2, 7⟩ 0, .collect 2 (.receipt ⟨21000, 1⟩),
    .collect 1 (.receipt ⟨30000, 1⟩)]

theorem waitGroup_collectedBoth :
    let s := exec (step true) initial collectedBoth
    (s.toBehind.check (.group 0)).isSome = true ∧
      ∀ rcpts b, s.toBehind.check (.group 0) = some (rcpts, b) → s.ReceiptsOf [2, 1] rcpts := by
  have hqueued : collectedBoth.filterMap (queuedIn 0) <+~ [2, 1] := (Perm.swap 2 1 []).subperm
  refine ⟨by decide +kernel, (waitGroup_iff (by decide) hqueued ?_).mpr (.inl (by decide))⟩
  exact ⟨nofun, nofun, nofun, nofun, trivial⟩

/-- The waiter comes before the handler of the transaction that was queued before. -/
theorem waitGroup_before_queue :
    ((initial : Watched Nat Nat).toBehind.check (.group 0)).map (·.1) = some [] ∧
      ¬(initial : Watched Nat Nat).ReceiptsOf [1] [] := by
  refine ⟨rfl, fun h => ?_⟩
  obtain ⟨order, hperm, heq, -⟩ := h
  simp [map_eq_nil_iff.mp heq.symm] at hperm

end Watched

end MadNet.TxnQueue
