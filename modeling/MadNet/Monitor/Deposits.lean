import MadNet.Application.Apply
import MadNet.Monitor.Events

/-!
# Deposits (`monevents/processors.go`)

A deposit of BTokens is recorded when its log is processed, if the node takes itself for a validator
at that time. A log that was skipped is not looked at again. Nodes that were validators whenever
they processed a deposit know the same deposits: of the logs with one ID, the first that can be
recorded.
-/

namespace MadNet.Monitor

open App Run List Option DepositHandler

variable {ι : Type} [DecidableEq ι]

/-! ## The processors -/

/-- What the processors receive from outside. -/
structure Input where
  /-- `ValidatorPool.IsValidator` of the own account, if the call does not fail. -/
  validator : Option Bool
  /-- A call or a write of the processor fails. -/
  fault : Option Fault

/-- `EthDKG.IsValidator`, and the state of the application. -/
structure Node (ι : Type) where
  isValidator : Bool
  app : App.State ι

/-- The chain, and how the numbers of a log are written. -/
structure Bank (ι : Type) where
  scheme : Scheme ι
  chainID : Nat
  /-- The bytes of a deposit ID, at the length of a hash. -/
  utxoID : Nat → ι
  account : Address → Bytes

namespace Bank

variable (b : Bank ι)

/-- `Owner.New` and `ValueStoreOwner.NewFromOwner`. The latter is called by `Add`, after it has
looked whether the deposit is spent. -/
def newOwner (accountType : Nat) (depositor : Address) : Except App.Err Owner :=
  if accountType = 0 then .error (.invalid "owner.validateCurveSpec; invalid curve spec")
  else
    match CurveSpec.ofByte (UInt8.ofNat accountType) with
    | none => .error (.invalid "vso.validateCurveSpec; invalid curve spec")
    | some curveSpec => .ok { curveSpec, account := b.account depositor }

/-- The transaction of `ProcessDepositReceived`. -/
def addDeposit (st : App.State ι) (depositID accountType : Nat) (depositor : Address)
    (amount : Nat) :
    Except App.Err (App.State ι) := do
  let owner ← b.newOwner accountType depositor
  DepositHandler.add b.scheme st b.chainID (b.utxoID depositID) amount owner

def processDepositReceived (depositID accountType : Nat) (depositor : Address) (amount : Nat)
    (fault : Option Fault) : EStateM Fault (Node ι) Unit := fun s =>
  if s.isValidator then
    match fault with
    | some e => .error e s
    | none =>
      match b.addDeposit s.app depositID accountType depositor amount with
      | .ok app => .ok () { s with app }
      | .error (.invalid _) => .ok () s
      | .error _ => .error (.other "depositHandler.Add") s
  else .ok () s

/-- `ProcessRegistrationOpened`, as far as it sets `IsValidator`. -/
def processRegistrationOpened (inp : Input) : EStateM Fault (Node ι) Unit := fun s =>
  match inp.validator, inp.fault with
  | none, _ => .error (.other "I'm not a validator: cannot check if I'm a validator") s
  | some _, some e => .error e s
  | some isValidator, none => .ok () { s with isValidator }

/-- The other processors leave this part of the state alone. -/
def processOther (fault : Option Fault) : EStateM Fault (Node ι) Unit := fun s =>
  match fault with
  | some e => .error e s
  | none => .ok () s

/-- The processors of all events. -/
def process : Processor Log Input (Node ι) := fun inp log =>
  match log with
  | .depositReceived depositID accountType depositor amount =>
    b.processDepositReceived depositID accountType depositor amount inp.fault
  | .registrationOpened .. => processRegistrationOpened inp
  | _ => processOther inp.fault

def monitor (logs : Nat → List Log) (retryCount endpointMinimumPeers : UInt32) (batchSize : Nat) :
    Setup Log Input (Node ι) :=
  setup b.process logs retryCount endpointMinimumPeers batchSize

/-! ## The book of the logs -/

/-- The deposit of a log, if it can be recorded. -/
def entry : Log → Option (ι × Except App.Err (TXOut ι))
  | .depositReceived depositID accountType depositor amount =>
    match b.newOwner accountType depositor with
    | .error _ => none
    | .ok owner =>
      if amount < 2 ^ 256 then
        some (b.utxoID depositID,
          DepositHandler.newDeposit b.chainID (b.utxoID depositID) amount owner)
      else none
  | _ => none

/-- The first deposit with an ID that the logs have. -/
def book (l : List Log) (d : ι) : Option (Except App.Err (TXOut ι)) :=
  (l.findSome? fun log => (b.entry log).filter (·.1 = d)).map Prod.snd

variable {b} {l l' : List Log} {log : Log} {d : ι} {x : Except App.Err (TXOut ι)}

theorem book_append : b.book (l ++ l') d = (b.book l d).or (b.book l' d) := by
  rw [book, book, book, findSome?_append]
  cases l.findSome? fun log => (b.entry log).filter (·.1 = d) <;> simp

theorem book_of_append (h : b.book l d = some x) : b.book (l ++ l') d = some x := by
  rw [book_append, h, some_or]

theorem book_singleton : b.book [log] d = some x ↔ b.entry log = some (d, x) := by
  unfold book
  cases hlog : b.entry log with
  | none => simp [hlog]
  | some e =>
    obtain ⟨d', x'⟩ := e
    by_cases hd : d' = d
    · simp [hlog, Option.filter, hd]
    · simp [hlog, Option.filter, hd]

theorem exists_book_of_mem (hlog : log ∈ l) (h : b.entry log = some (d, x)) :
    ∃ y, b.book l d = some y := by
  obtain ⟨l1, l2, rfl⟩ := append_of_mem hlog
  rw [append_cons, book_append, book_append, book_singleton.mpr h]
  cases b.book l1 d with
  | none => exact ⟨x, rfl⟩
  | some y => exact ⟨y, rfl⟩

omit [DecidableEq ι] in
theorem entry_ok (h : b.entry log = some (d, x)) : ∃ depositID, d = b.utxoID depositID := by
  cases log with
  | depositReceived depositID accountType depositor amount =>
    simp only [entry] at h
    split at h
    · cases h
    split at h
    · exact ⟨depositID, (Prod.mk.inj (some_inj.mp h)).1.symm⟩
    · cases h
  | _ => cases h

theorem exists_entry_of_book (h : b.book l d = some x) : ∃ log ∈ l, b.entry log = some (d, x) := by
  obtain ⟨⟨d', x'⟩, hfind, rfl⟩ := map_eq_some_iff.mp h
  obtain ⟨log, hmem, hlog⟩ := exists_of_findSome?_eq_some hfind
  obtain ⟨hentry, hd⟩ := filter_eq_some_iff.mp hlog
  obtain rfl : d' = d := by simpa using hd
  exact ⟨log, hmem, hentry⟩

theorem exists_of_book (h : b.book l d = some x) : ∃ depositID, d = b.utxoID depositID := by
  obtain ⟨log, -, hentry⟩ := exists_entry_of_book h
  exact entry_ok hentry

section Add

variable {st st' : App.State ι} {depositID accountType amount : Nat} {depositor : Address}

theorem addDeposit_ok (h : b.addDeposit st depositID accountType depositor amount = .ok st') :
    ∃ d x, b.entry (.depositReceived depositID accountType depositor amount) = some (d, x) ∧
      d ∉ st.deposits ∧ st' = { st with deposits := st.deposits.insert d x } := by
  obtain ⟨owner, _, howner, hvalue, h⟩ := Prog.bind₂_ok h
  obtain ⟨_, _, -, -, h⟩ := Prog.bind₂_ok h
  obtain ⟨_, hstale, h⟩ := Prog.bind_ok h
  refine ⟨_, _, ?_, check_eq_ok.mp hstale, (Except.ok.inj h).symm⟩
  simp only [entry, howner, if_pos (check_eq_ok.mp hvalue)]

/-- A deposit is not recorded if it cannot be, is spent or is known; otherwise the trie has failed.
-/
theorem addDeposit_error {e : App.Err}
    (h : b.addDeposit st depositID accountType depositor amount = .error e) :
    (∃ msg, e = .invalid msg) ∧
      (∀ d x, b.entry (.depositReceived depositID accountType depositor amount) = some (d, x) →
        st.trieContains b.scheme d = .ok true ∨ d ∈ st.deposits) ∨
    st.trieContains b.scheme (b.utxoID depositID) = .error e := by
  unfold addDeposit at h
  cases howner : b.newOwner accountType depositor with
  | error e' =>
    rw [howner] at h
    obtain rfl := Except.error.inj h
    refine .inl ⟨?_, fun d x hentry => by simp [entry, howner] at hentry⟩
    unfold newOwner at howner
    split at howner
    · exact ⟨_, (Except.error.inj howner).symm⟩
    · split at howner
      · exact ⟨_, (Except.error.inj howner).symm⟩
      · cases howner
  | ok owner =>
    rw [howner] at h
    have hid {d x} (hentry : b.entry (.depositReceived depositID accountType depositor amount) =
        some (d, x)) : d = b.utxoID depositID ∧ amount < 2 ^ 256 := by
      simp only [entry, howner] at hentry
      split at hentry
      next hv => exact ⟨(Prod.mk.inj (some_inj.mp hentry)).1.symm, hv⟩
      next => cases hentry
    rw [Prog.ok_bind] at h
    rcases Prog.except_bind_eq_error.mp h with hv | ⟨_, -, h⟩
    · obtain ⟨hlarge, rfl⟩ := check_eq_error.mp hv
      exact .inl ⟨⟨_, rfl⟩, fun d x hentry => absurd (hid hentry).2 hlarge⟩
    rcases Prog.except_bind_eq_error.mp h with htrie | ⟨spent, htrie, h⟩
    · exact .inr htrie
    rcases Prog.except_bind_eq_error.mp h with hs | ⟨_, -, h⟩
    · obtain ⟨hspent, rfl⟩ := check_eq_error.mp hs
      refine .inl ⟨⟨_, rfl⟩, fun d x hentry => .inl ?_⟩
      rw [(hid hentry).1, htrie, Bool.eq_true_of_not_eq_false hspent]
    rcases Prog.except_bind_eq_error.mp h with hd | ⟨_, -, h⟩
    · obtain ⟨hknown, rfl⟩ := check_eq_error.mp hd
      refine .inl ⟨⟨_, rfl⟩, fun d x hentry => .inr ?_⟩
      rw [(hid hentry).1]
      exact not_not.mp hknown
    · cases h

end Add

/-! ## What a processed log leaves -/

/-- A deposit is handed to a node that takes itself for a validator. -/
def toValidator (s : Node ι) : Log → Bool
  | .depositReceived .. => s.isValidator
  | _ => true

/-- What a processor does with the deposit of a log. -/
inductive Handled (b : Bank ι) (log : Log) (s s' : Node ι) : Prop where
  | recorded (d : ι) (y : Except App.Err (TXOut ι)) : b.entry log = some (d, y) →
      d ∉ s.app.deposits → s'.app = { s.app with deposits := s.app.deposits.insert d y } →
      Handled b log s s'
  | kept : s'.app = s.app →
      (∀ d y, b.entry log = some (d, y) →
        s.app.trieContains b.scheme d = .ok true ∨ d ∈ s.app.deposits) → Handled b log s s'

variable {inp : Input} {s s' : Node ι}

/-- The processor of a deposit changes the state only if it records the deposit. -/
theorem processDepositReceived_cases (depositID accountType : Nat) (depositor : Address)
    (amount : Nat) (fault : Option Fault) (s : Node ι) :
    (∃ app, b.addDeposit s.app depositID accountType depositor amount = .ok app ∧
      b.processDepositReceived depositID accountType depositor amount fault s = .ok ()
      { s with app }) ∨
    (b.processDepositReceived depositID accountType depositor amount fault s = .ok () s ∧
      (s.isValidator = true → ∃ msg,
        b.addDeposit s.app depositID accountType depositor amount = .error (.invalid msg))) ∨
    ∃ e, b.processDepositReceived depositID accountType depositor amount fault s = .error e s := by
  unfold processDepositReceived
  cases hv : s.isValidator with
  | false => exact .inr (.inl ⟨rfl, nofun⟩)
  | true =>
    cases fault with
    | some e => exact .inr (.inr ⟨e, rfl⟩)
    | none =>
      cases happ : b.addDeposit s.app depositID accountType depositor amount with
      | ok app => exact .inl ⟨app, rfl, rfl⟩
      | error e =>
        cases e with
        | invalid msg => exact .inr (.inl ⟨rfl, fun _ => ⟨msg, rfl⟩⟩)
        | _ => exact .inr (.inr ⟨_, rfl⟩)

theorem process_ok {u : Unit} (h : b.process inp log s = .ok u s') (hv : toValidator s log = true) :
    Handled b log s s' := by
  cases log with
  | depositReceived depositID accountType depositor amount =>
    change b.processDepositReceived depositID accountType depositor amount inp.fault s = _ at h
    rcases processDepositReceived_cases (b := b) depositID accountType depositor amount inp.fault s
      with ⟨app, happ, hrun⟩ | ⟨hrun, herr⟩ | ⟨e, hrun⟩
    · rw [hrun] at h
      obtain ⟨d, y, hentry, hnew, rfl⟩ := addDeposit_ok happ
      obtain ⟨-, rfl⟩ := EStateM.Result.ok.inj h
      exact .recorded d y hentry hnew rfl
    · rw [hrun] at h
      obtain ⟨msg, he⟩ := herr hv
      obtain ⟨-, rfl⟩ := EStateM.Result.ok.inj h
      rcases addDeposit_error he with ⟨-, hknown⟩ | htrie
      · exact .kept rfl hknown
      · exact absurd htrie (State.trieContains_ne_invalid msg)
    · rw [hrun] at h
      cases h
  | registrationOpened =>
    change processRegistrationOpened inp s = _ at h
    unfold processRegistrationOpened at h
    split at h
    · cases h
    · cases h
    · obtain ⟨-, rfl⟩ := EStateM.Result.ok.inj h
      exact .kept rfl nofun
  | _ =>
    change processOther inp.fault s = _ at h
    unfold processOther at h
    split at h
    · cases h
    · obtain ⟨-, rfl⟩ := EStateM.Result.ok.inj h
      exact .kept rfl nofun

theorem process_error {e : Fault} (h : b.process inp log s = .error e s') : s' = s := by
  cases log with
  | depositReceived depositID accountType depositor amount =>
    change b.processDepositReceived depositID accountType depositor amount inp.fault s = _ at h
    rcases processDepositReceived_cases (b := b) depositID accountType depositor amount inp.fault s
      with ⟨app, -, hrun⟩ | ⟨hrun, -⟩ | ⟨e, hrun⟩
    · rw [hrun] at h
      cases h
    · rw [hrun] at h
      cases h
    · rw [hrun] at h
      exact (EStateM.Result.error.inj h).2.symm
  | registrationOpened =>
    change processRegistrationOpened inp s = _ at h
    unfold processRegistrationOpened at h
    split at h
    · exact (EStateM.Result.error.inj h).2.symm
    · exact (EStateM.Result.error.inj h).2.symm
    · cases h
  | _ =>
    change processOther inp.fault s = _ at h
    unfold processOther at h
    split at h
    · exact (EStateM.Result.error.inj h).2.symm
    · cases h

/-- The deposits are those of the book, and those that are not spent are all of it: `done` are the
logs that are processed. -/
structure Booked (b : Bank ι) (cfg : Setup Log Input (Node ι)) (first : Nat) (done : List Log)
    (s : Node ι) : Prop where
  consistent : ∀ d, s.app.trieContains b.scheme d = .ok false → ∀ y,
    s.app.deposits.lookup d = some y → ∀ l x, Initial cfg first l → b.book l d = some x → x = y
  recorded : ∀ d, s.app.trieContains b.scheme d = .ok false → ∀ x, b.book done d = some x →
    s.app.deposits.lookup d = some x

/-- What others do: they leave the deposits alone, and a deposit that is not spent afterwards was
not spent before. -/
def Moves (b : Bank ι) (s s' : Node ι) : Prop :=
  s'.app.deposits = s.app.deposits ∧
    ∀ depositID, s'.app.trieContains b.scheme (b.utxoID depositID) = .ok false →
      s.app.trieContains b.scheme (b.utxoID depositID) = .ok false

/-- A block moves the node so if it does not clash in the trie and no UTXO has the ID of a deposit.
-/
theorem moves_of_applied (hkey : Function.Injective b.scheme.key) {l : Ledger ι}
    {x : Radix.Tree Trie.Key (Trie.Digest ι) × (Trie.Key → Option (Trie.Digest ι))}
    {txs : List (Tx ι)}
    {root : Root ι} {st' : App.State ι} (h : s.app.Tracks b.scheme l x)
    (ha : UTXOHandler.Applied b.scheme s.app txs root st')
    (hdep : ∀ d ∈ TxVec.consumedUTXOIDOnlyDeposits b.scheme txs,
      s.app.trieContains b.scheme d = .ok false)
    (hclash : ¬Trie.Clashes Trie.Digest.hasher (l.Present b.scheme)
      ((UTXOHandler.trieWrites b.scheme txs).map (trieEntry b.scheme)))
    (hids : ∀ depositID, b.utxoID depositID ∉ l.unspent) : Moves b s { s with app := st' } := by
  obtain ⟨x', h'⟩ := h.applied hkey ha hdep hclash
  refine ⟨ha.deposits, fun depositID hid => ?_⟩
  rw [h'.refines.trieContains, Except.ok.injEq, decide_eq_false_iff_not, not_or] at hid
  rw [h.refines.trieContains, decide_eq_false]
  rintro (hmem | hmem)
  · exact hids depositID hmem
  · exact hid.2 (mem_append_left _ hmem)

section Keeps

variable {cfg : Setup Log Input (Node ι)} {first : Nat} {done : List Log}

theorem book_eq_of_initial {y : Except App.Err (TXOut ι)} (hl : Initial cfg first l)
    (hl' : Initial cfg first l') (hx : b.book l d = some x) (hy : b.book l' d = some y) :
    x = y := by
  rcases hl.comparable hl' with ⟨t, rfl⟩ | ⟨t, rfl⟩
  · exact some_inj.mp ((book_of_append hx).symm.trans hy)
  · exact some_inj.mp (hx.symm.trans (book_of_append hy))

theorem book_snoc_cases (h : b.book (done ++ [log]) d = some x) :
    b.book done d = some x ∨ b.book done d = none ∧ b.entry log = some (d, x) := by
  rw [book_append] at h
  cases hdone : b.book done d with
  | none => exact .inr ⟨rfl, book_singleton.mp (by rwa [hdone, none_or] at h)⟩
  | some y => exact .inl (by rwa [hdone, some_or] at h)

theorem Booked.snoc (h : Booked b cfg first done s) (hinit : Initial cfg first (done ++ [log]))
    (hs : Handled b log s s') : Booked b cfg first (done ++ [log]) s' := by
  cases hs with
  | recorded d y hentry hnew happ =>
    have hnone : s.app.deposits.lookup d = none := AList.lookup_eq_none.mpr hnew
    -- no earlier log has the ID, or it would be recorded
    have hfirst (hd : s.app.trieContains b.scheme d = .ok false) :
        b.book (done ++ [log]) d = some y := by
      rw [book_append, book_singleton.mpr hentry]
      cases hdone : b.book done d with
      | none => rfl
      | some z => cases hnone.symm.trans (h.recorded d hd z hdone)
    refine ⟨fun d' hd' y' hy' l x hl hx => ?_, fun d' hd' x hx => ?_⟩
    · rw [happ] at hd' hy'
      by_cases hdd : d' = d
      · subst hdd
        rw [AList.lookup_insert] at hy'
        cases hy'
        exact book_eq_of_initial hl hinit hx (hfirst hd')
      · rw [AList.lookup_insert_ne hdd] at hy'
        exact h.consistent d' hd' y' hy' l x hl hx
    · rw [happ] at hd' ⊢
      by_cases hdd : d' = d
      · subst hdd
        rw [AList.lookup_insert, ← hx, hfirst hd']
      · rw [AList.lookup_insert_ne hdd]
        refine h.recorded d' hd' x ((book_snoc_cases hx).resolve_right fun hnew' => hdd ?_)
        exact (Prod.mk.inj (some_inj.mp (hnew'.2.symm.trans hentry))).1
  | kept happ hknown =>
    refine ⟨by rw [happ]; exact h.consistent, fun d hd x hx => ?_⟩
    rw [happ] at hd ⊢
    rcases book_snoc_cases hx with hx' | ⟨-, hentry⟩
    · exact h.recorded d hd x hx'
    · have hmem := (hknown d x hentry).resolve_left fun hspent => by
        rw [hd] at hspent
        cases hspent
      obtain ⟨y, hy⟩ := isSome_iff_exists.mp (AList.lookup_isSome.mpr hmem)
      rw [hy, h.consistent d hd y hy _ x hinit hx]

theorem keeps_booked (b : Bank ι) (logs : Nat → List Log) (retryCount endpointMinimumPeers : UInt32)
    (batchSize first : Nat) :
    Keeps toValidator (b.monitor logs retryCount endpointMinimumPeers batchSize) first (Moves b)
      (Booked b (b.monitor logs retryCount endpointMinimumPeers batchSize) first) where
  mono h := ⟨h.consistent, fun d hd x hx => h.recorded d hd x (book_of_append hx)⟩
  skip := by
    intro done log s hlog h
    refine ⟨h.consistent, fun d hd x hx => h.recorded d hd x ?_⟩
    refine (book_snoc_cases hx).resolve_right fun hnew => ?_
    cases log with
    | other => cases hnew.2
    | _ => cases hlog
  ok := by
    intro done log s p inp u s' hinit hlog hv h hrun
    obtain rfl : b.process = p := by
      cases log with
      | other => cases hlog
      | _ => exact some_inj.mp hlog
    exact h.snoc hinit (process_ok hrun hv)
  error := by
    intro done log s p inp e s' hlog _ h hrun
    obtain rfl : b.process = p := by
      cases log with
      | other => cases hlog
      | _ => exact some_inj.mp hlog
    rw [process_error hrun]
    exact h
  change := by
    intro done s s' hQ h
    obtain ⟨hdeposits, hspent⟩ := hQ
    refine ⟨fun d hd y hy l x hl hx => ?_, fun d hd x hx => ?_⟩
    · obtain ⟨depositID, rfl⟩ := exists_of_book hx
      rw [hdeposits] at hy
      exact h.consistent _ (hspent depositID hd) y hy l x hl hx
    · obtain ⟨depositID, rfl⟩ := exists_of_book hx
      rw [hdeposits]
      exact h.recorded _ (hspent depositID hd) x hx

end Keeps

/-! ## Two nodes -/

theorem get_congr {S : Scheme ι} {st1 st2 : App.State ι} {utxoIDs : List ι}
    (htrie : ∀ d, st1.trieContains S d = st2.trieContains S d)
    (h : ∀ d ∈ utxoIDs, st1.deposits.lookup d = st2.deposits.lookup d) :
    get S st1 utxoIDs = get S st2 utxoIDs := by
  induction utxoIDs with
  | nil => rfl
  | cons d utxoIDs ih =>
    simp only [DepositHandler.get, h d mem_cons_self, htrie,
      ih fun d' hd' => h d' (mem_cons_of_mem _ hd')]

/-- The deposit is known and not spent, and a log of the blocks up to `bound` has it. -/
def Known (b : Bank ι) (logs : Nat → List Log) (first bound : Nat) (st : App.State ι) (d : ι)
    (y : Except App.Err (TXOut ι)) : Prop :=
  st.deposits.lookup d = some y ∧ st.trieContains b.scheme d = .ok false ∧
    ∃ block log, first < block ∧ block ≤ bound ∧ log ∈ logs block ∧ b.entry log = some (d, y)

def fetchedLogs (logs : Nat → List Log) (first bound : Nat) : List Log :=
  (List.range' (first + 1) (bound - first)).flatMap fun block =>
    (logs block).filter fun log => log.contract ∈ addresses

omit [DecidableEq ι] in
theorem contract_of_entry (h : b.entry log = some (d, x)) : log.contract ∈ addresses := by
  cases log with
  | depositReceived => simp [Log.contract, addresses]
  | _ => cases h

omit [DecidableEq ι] in
theorem mem_fetchedLogs {logs : Nat → List Log} {first bound : Nat}
    (h : b.entry log = some (d, x)) :
    log ∈ fetchedLogs logs first bound ↔ ∃ block, first < block ∧ block ≤ bound ∧
      log ∈ logs block := by
  simp only [fetchedLogs, mem_flatMap, mem_filter, mem_range'_1, decide_eq_true_eq,
    contract_of_entry h, and_true]
  refine exists_congr fun block => ?_
  constructor
  · rintro ⟨hrange, hlog⟩
    exact ⟨by omega, by omega, hlog⟩
  · rintro ⟨h₁, h₂, hlog⟩
    exact ⟨by omega, hlog⟩

/-- What happens at a node that starts without deposits. -/
structure History (b : Bank ι) where
  retryCount : UInt32
  endpointMinimumPeers : UInt32
  batchSize : Nat
  start : Node ι
  fresh : start.app.deposits = ∅
  events : List (Event Input (Node ι))

namespace History

variable {b : Bank ι} (h : History b) (logs : Nat → List Log) (first : Nat)

def monitor : Setup Log Input (Node ι) :=
  b.monitor logs h.retryCount h.endpointMinimumPeers h.batchSize

def final : MonitorState (Node ι) :=
  (exec (Trace.step (h.monitor logs)) (.start first h.start) h.events).state

/-- The node takes itself for a validator whenever a deposit is processed, and what others do to it
are `Moves`. -/
def AsValidator : Prop :=
  Along (fun r e => e.Hands toValidator (Moves b) (h.monitor logs) r) (Trace.step (h.monitor logs))
    (.start first h.start) h.events

variable {h logs first} {bound : Nat}

theorem known_iff (hv : h.AsValidator logs first)
    (hbound : bound ≤ (h.final logs first).highestBlockProcessed) {y : Except App.Err (TXOut ι)} :
    Known b logs first bound (h.final logs first).data.app d y ↔
      (h.final logs first).data.app.trieContains b.scheme d = .ok false ∧
        b.book (fetchedLogs logs first bound) d = some y := by
  have hstart : Booked b (h.monitor logs) first [] h.start := by
    refine ⟨fun d _ y hy => ?_, fun d _ x hx => nomatch hx⟩
    rw [h.fresh, AList.lookup_empty] at hy
    cases hy
  have hbooked : Booked b (h.monitor logs) first
      (fetchedLogs logs first (h.final logs first).highestBlockProcessed)
      (h.final logs first).data :=
    ((keeps_booked b logs _ _ _ first).run hstart hv).2
  have hseen : Initial (h.monitor logs) first (fetchedLogs logs first bound) :=
    ⟨bound, prefix_refl _⟩
  constructor
  · rintro ⟨hlookup, hspent, block, log, h₁, h₂, hlog, hentry⟩
    obtain ⟨z, hz⟩ := exists_book_of_mem ((mem_fetchedLogs hentry).mpr ⟨block, h₁, h₂, hlog⟩) hentry
    refine ⟨hspent, ?_⟩
    rw [hz, hbooked.consistent d hspent y hlookup _ z hseen hz]
  · rintro ⟨hspent, hbook⟩
    have hpre : fetchedLogs logs first bound <+:
        fetchedLogs logs first (h.final logs first).highestBlockProcessed :=
      seenLogs_mono (h.monitor logs) first hbound
    obtain ⟨t, ht⟩ := hpre
    obtain ⟨log, hlog, hentry⟩ := exists_entry_of_book hbook
    obtain ⟨block, h₁, h₂, hlog⟩ := (mem_fetchedLogs hentry).mp hlog
    refine ⟨hbooked.recorded d hspent y ?_, hspent, block, log, h₁, h₂, hlog, hentry⟩
    rw [← ht]
    exact book_of_append hbook

/-- Two nodes that take themselves for validators whenever they process a deposit, whatever fails
and is delivered again, know the same deposits, with the owner and the value that were logged, and
their checks of deposits agree. -/
theorem deposits_agree (b : Bank ι) (logs : Nat → List Log) (first bound : Nat) (h₁ h₂ : History b)
    (hv₁ : h₁.AsValidator logs first) (hv₂ : h₂.AsValidator logs first)
    (hbound₁ : bound ≤ (h₁.final logs first).highestBlockProcessed)
    (hbound₂ : bound ≤ (h₂.final logs first).highestBlockProcessed)
    (htrie : ∀ d, (h₁.final logs first).data.app.trieContains b.scheme d =
      (h₂.final logs first).data.app.trieContains b.scheme d) :
    (∀ d y, Known b logs first bound (h₁.final logs first).data.app d y ↔
      Known b logs first bound (h₂.final logs first).data.app d y) ∧
    (∀ block log d x, first < block → block ≤ bound → log ∈ logs block →
      b.entry log = some (d, x) →
      (h₁.final logs first).data.app.trieContains b.scheme d = .ok false →
      ∃ y, Known b logs first bound (h₁.final logs first).data.app d y) ∧
    ∀ txs : List (Tx ι),
      (∀ d ∈ TxVec.consumedUTXOIDOnlyDeposits b.scheme txs,
        ∃ y, Known b logs first bound (h₁.final logs first).data.app d y) →
      DepositHandler.isValid b.scheme (h₁.final logs first).data.app txs =
        DepositHandler.isValid b.scheme (h₂.final logs first).data.app txs := by
  have hagree (d : ι) (y : Except App.Err (TXOut ι)) :
      Known b logs first bound (h₁.final logs first).data.app d y ↔
        Known b logs first bound (h₂.final logs first).data.app d y := by
    rw [known_iff hv₁ hbound₁, known_iff hv₂ hbound₂, htrie]
  refine ⟨hagree, fun block log d x hlt hle hlog hentry hspent => ?_, fun txs hknown => ?_⟩
  · obtain ⟨y, hy⟩ :=
      exists_book_of_mem ((mem_fetchedLogs hentry).mpr ⟨block, hlt, hle, hlog⟩) hentry
    exact ⟨y, (known_iff hv₁ hbound₁).mpr ⟨hspent, hy⟩⟩
  · unfold DepositHandler.isValid
    rw [get_congr htrie fun d hd => ?_]
    obtain ⟨y, hy⟩ := hknown d hd
    rw [hy.1, ((hagree d y).mp hy).1]

/-- Block 2 has a deposit; before and after it a registration is opened. -/
def someLogs : Nat → List Log
  | 1 => [.registrationOpened 1 4 1 40 6]
  | 2 => [.depositReceived 7 1 0 1131]
  | 3 => [.registrationOpened 3 4 2 40 6]
  | _ => []

/-- A deposit ID is its own hash. -/
def plain : Bank Term :=
  { scheme := symbolic, chainID := 1, utxoID := .atom, account := fun _ => [] }

/-- One tick processes three blocks. The node is a validator from a block on. -/
def threeBlocks (since : Nat) : Env Input where
  endpoint := (true, 1, false)
  finalized := some 3
  fetched _ := true
  input block _ := { validator := some (decide (since ≤ block)), fault := none }
  started _ := true

def joining (since : Nat) : History plain where
  retryCount := 5
  endpointMinimumPeers := 1
  batchSize := 10
  start := { isValidator := false, app := .empty }
  fresh := rfl
  events := [.tick (threeBlocks since)]

open Storing in
theorem deposits_agree_sample :
    DepositHandler.isValid symbolic ((joining 0).final someLogs 0).data.app [tx 1 rfl] =
      DepositHandler.isValid symbolic ((joining 1).final someLogs 0).data.app [tx 1 rfl] := by
  have hands (since : Nat) (h : handedBlocks toValidator ((joining since).monitor someLogs).eventMap
      (threeBlocks since) 0 (toProcess ((joining since).monitor someLogs) (threeBlocks since) 0)
      (joining since).start = true) : (joining since).AsValidator someLogs 0 := ⟨h, trivial⟩
  obtain ⟨-, hknown, hvalid⟩ := deposits_agree plain someLogs 0 3 (joining 0) (joining 1)
    (hands 0 (by decide +kernel)) (hands 1 (by decide +kernel)) (by decide +kernel)
    (by decide +kernel)
    fun _ => rfl
  refine hvalid [tx 1 rfl] fun d hd => ?_
  obtain rfl : d = .atom 7 := mem_singleton.mp hd
  exact hknown 2 _ _ _ (by decide) (by decide) (mem_singleton.mpr rfl) rfl (by decide +kernel)

open Storing in
/-- The second node is not a validator when the deposit is logged, and becomes one later. Then it
rejects the transaction that consumes the deposit. -/
theorem deposit_missed :
    let s₁ := (joining 1).final someLogs 0
    let s₂ := (joining 3).final someLogs 0
    s₁.highestBlockProcessed = 3 ∧ s₂.highestBlockProcessed = 3 ∧
      s₁.data.isValidator = true ∧ s₂.data.isValidator = true ∧
      (∀ d, s₁.data.app.trieContains symbolic d = s₂.data.app.trieContains symbolic d) ∧
      (∃ y, Known plain someLogs 0 3 s₁.data.app (.atom 7) y) ∧
      s₂.data.app.deposits.lookup (.atom 7) = none ∧
      (∃ found, DepositHandler.isValid symbolic s₁.data.app [tx 1 rfl] = .ok found) ∧
      DepositHandler.isValid symbolic s₂.data.app [tx 1 rfl] =
        .error (.invalid "depositHandler.IsValid; a deposit is missing") := by
  exact ⟨rfl, rfl, rfl, rfl, fun _ => rfl, ⟨_, rfl, by decide +kernel, 2, _, by decide, by decide,
    mem_singleton.mpr rfl, rfl⟩, rfl, ⟨_, rfl⟩, rfl⟩

end History

end Bank

end MadNet.Monitor
