import PagedMap.Proofs.Pager.Faults
import PagedMap.Proofs.Pager.PageArrays

/-!
# Pagers fail as announced

A pager that fails on purpose is one that passes every call on, but for those whose failure was
announced. With rates that let all calls of a kind fail or none, the announcements alone say which
calls these are. What is announced is kept here as an outlook, which knows nothing of pagers: it
judges the calls of a run, and the run turns out as judged. The inner pager sees the other calls in
their order and gives the replies to them, and all calls are counted.
-/

namespace PagedMap

/-! ## Calls -/

namespace PagerCall

def isRead : PagerCall → Bool
  | read .. => true
  | _ => false

def isWrite : PagerCall → Bool
  | write .. => true
  | _ => false

def isSync : PagerCall → Bool
  | sync => true
  | _ => false

end PagerCall

/-- A rate at which all calls fail, or none. -/
def Rate.Decided (rate : Rate) : Prop := rate.isNever = true ∨ rate.isAlways = true

/-- Rates at which all calls of a kind fail, or none. -/
structure FaultRates.Decided (rates : FaultRates) : Prop where
  read : rates.read.Decided
  write : rates.write.Decided
  sync : rates.sync.Decided

theorem FaultRates.none_decided : FaultRates.none.Decided :=
  ⟨.inl rfl, .inl rfl, .inl rfl⟩

/-- No rate is both, because a fraction that is not positive is less than one. -/
theorem Rate.isAlways_of_isNever {rate : Rate} (never : rate.isNever = true) :
    rate.isAlways = false := by
  have positive : 0 < rate.scale := Nat.pow_pos (by decide)
  simp only [isNever, isAlways, decide_eq_true_eq, decide_eq_false_iff_not] at never ⊢
  omega

/-- Counts together. -/
def Tally.plus (first second : Tally) : Tally where
  reads := first.reads + second.reads
  writes := first.writes + second.writes
  syncs := first.syncs + second.syncs
  failedReads := first.failedReads + second.failedReads
  failedWrites := first.failedWrites + second.failedWrites
  failedSyncs := first.failedSyncs + second.failedSyncs

namespace Faulty

open Pager (onInner)

/-! ## What is announced -/

/-- What is done with a pager that fails on purpose. -/
inductive Deed where
  | call (call : PagerCall)
  | setRates (rates : FaultRates)
  | failWriteAfter (passing : Nat)
  | clearFaults

/-- A new announcement takes the place of the last one, and clearing takes it back. -/
def Deed.rearms : Deed → Bool
  | failWriteAfter _ | clearFaults => true
  | _ => false

/-- The failures that are announced: the rates, and how many writes pass before one fails, if one is
to. -/
structure Outlook where
  rates : FaultRates
  writesLeft : Option Nat

namespace Outlook

/-- Nothing is announced. -/
def quiet : Outlook := ⟨.none, none⟩

/-- Whether the next write fails: if a failure is announced for one, after as many writes as were to
pass, and otherwise at a rate of one. -/
def writeFails (outlook : Outlook) : Bool :=
  match outlook.writesLeft with
  | some left => left == 0
  | none => outlook.rates.write.isAlways

/-- The failure that is announced for a call. The number of pages is always given. -/
def failure? (outlook : Outlook) : PagerCall → Option PagerError
  | .read .. =>
    if outlook.rates.read.isAlways then some (.injectedFault "simulated read error") else none
  | .write .. => if outlook.writeFails then some (.injectedFault "simulated write error") else none
  | .sync =>
    if outlook.rates.sync.isAlways then some (.injectedFault "simulated sync error") else none
  | .pageCount => none

/-- The outlook after a deed. -/
def after (outlook : Outlook) : Deed → Outlook
  | .call (.write ..) => { outlook with writesLeft := match outlook.writesLeft with
      | some (left + 1) => some left
      | _ => none }
  | .call _ => outlook
  | .setRates rates => { outlook with rates }
  | .failWriteAfter passing => { outlook with writesLeft := some passing }
  | .clearFaults => quiet

def afterAll (outlook : Outlook) (deeds : List Deed) : Outlook := deeds.foldl after outlook

/-- The calls among deeds, each with the failure that is announced for it. -/
def judge (outlook : Outlook) : List Deed → List (PagerCall × Option PagerError)
  | [] => []
  | .call call :: later =>
    (call, outlook.failure? call) :: judge (outlook.after (.call call)) later
  | .setRates rates :: later => judge (outlook.after (.setRates rates)) later
  | .failWriteAfter passing :: later => judge (outlook.after (.failWriteAfter passing)) later
  | .clearFaults :: later => judge (outlook.after .clearFaults) later

end Outlook

/-- The calls for which no failure is announced. -/
def passing (judged : List (PagerCall × Option PagerError)) : List PagerCall :=
  (judged.filter fun entry => entry.2.isNone).map Prod.fst

/-- Which of the writes fail. -/
def writeFailures (judged : List (PagerCall × Option PagerError)) : List Bool :=
  (judged.filter fun entry => entry.1.isWrite).map fun entry => entry.2.isSome

/-- The counts of calls and of announced failures. -/
def tallyOf (judged : List (PagerCall × Option PagerError)) : Tally where
  reads := judged.countP fun entry => entry.1.isRead
  writes := judged.countP fun entry => entry.1.isWrite
  syncs := judged.countP fun entry => entry.1.isSync
  failedReads := judged.countP fun entry => entry.1.isRead && entry.2.isSome
  failedWrites := judged.countP fun entry => entry.1.isWrite && entry.2.isSome
  failedSyncs := judged.countP fun entry => entry.1.isSync && entry.2.isSome

theorem countP_passing (kind : PagerCall → Bool) (judged : List (PagerCall × Option PagerError)) :
    judged.countP (fun entry => kind entry.1) =
      judged.countP (fun entry => kind entry.1 && entry.2.isSome) +
        (passing judged).countP kind := by
  induction judged with
  | nil => rfl
  | cons entry judged ih =>
      obtain ⟨call, failure?⟩ := entry
      cases failure? <;> cases of_kind : kind call <;>
        simp [passing, of_kind] at ih ⊢ <;> omega

/-- An announcement that writes fail after some: so many pass, the next one fails, and after it
nothing is announced any more. -/
inductive OneShot (passing : Nat) : List Bool → Option Nat → Prop where
  | pending {written : Nat} (few : written ≤ passing) :
      OneShot passing (List.replicate written false) (some (passing - written))
  | spent (later : List Bool) : OneShot passing (List.replicate passing false ++ true :: later) none

theorem OneShot.pass {passing : Nat} {failures : List Bool} {left : Option Nat}
    (shot : OneShot passing failures left) : OneShot (passing + 1) (false :: failures) left := by
  cases shot with
  | @pending written few =>
      have shot : OneShot (passing + 1) (List.replicate (written + 1) false) _ :=
        .pending (Nat.succ_le_succ few)
      rwa [Nat.add_sub_add_right] at shot
  | spent later => exact .spent later

namespace Outlook

theorem afterAll_cons (outlook : Outlook) (deed : Deed) (later : List Deed) :
    outlook.afterAll (deed :: later) = (outlook.after deed).afterAll later :=
  rfl

theorem writeFailures_write (outlook : Outlook) (pages : List Page) (start : Option PageIndex)
    (later : List Deed) :
    writeFailures (outlook.judge (.call (.write pages start) :: later)) =
      outlook.writeFails ::
        writeFailures ((outlook.after (.call (.write pages start))).judge later) := by
  cases fails : outlook.writeFails <;>
    simp [writeFailures, judge, failure?, PagerCall.isWrite, fails]

/-- Without a new announcement no write fails by one. -/
theorem afterAll_disarmed {outlook : Outlook} (disarmed : outlook.writesLeft = none)
    {later : List Deed} (kept : ∀ deed ∈ later, deed.rearms = false) :
    (outlook.afterAll later).writesLeft = none := by
  induction later generalizing outlook with
  | nil => exact disarmed
  | cons deed later ih =>
      have keeps := kept deed List.mem_cons_self
      apply ih _ fun other member => kept other (List.mem_cons_of_mem _ member)
      cases deed with
      | call call => cases call <;> simp [after, disarmed]
      | setRates rates => exact disarmed
      | failWriteAfter passing => contradiction
      | clearFaults => contradiction

/-- An announced failure comes after as many writes as announced, and once. -/
theorem judge_armed {outlook : Outlook} {left : Nat} (armed : outlook.writesLeft = some left)
    {later : List Deed} (kept : ∀ deed ∈ later, deed.rearms = false) :
    OneShot left (writeFailures (outlook.judge later)) (outlook.afterAll later).writesLeft := by
  induction later generalizing outlook left with
  | nil =>
      rw [afterAll, List.foldl_nil, armed]
      exact .pending (Nat.zero_le left)
  | cons deed later ih =>
      have keeps := kept deed List.mem_cons_self
      have others : ∀ other ∈ later, other.rearms = false :=
        fun other member => kept other (List.mem_cons_of_mem _ member)
      have same (unchanged : (outlook.after deed).writesLeft = some left) := ih unchanged others
      cases deed with
      | setRates rates => exact same armed
      | failWriteAfter passing => contradiction
      | clearFaults => contradiction
      | call call =>
          cases call with
          | read start amount => exact same armed
          | sync => exact same armed
          | pageCount => exact same armed
          | write pages start =>
              rw [writeFailures_write, afterAll_cons]
              cases left with
              | zero =>
                  -- The failure is spent, and no later deed announces another one.
                  have fails : outlook.writeFails = true := by simp [writeFails, armed]
                  have disarmed : (outlook.after (.call (.write pages start))).writesLeft =
                      none := by simp [after, armed]
                  rw [fails, afterAll_disarmed disarmed others]
                  exact .spent _
              | succ left =>
                  have passes : outlook.writeFails = false := by simp [writeFails, armed]
                  have less : (outlook.after (.call (.write pages start))).writesLeft =
                      some left := by simp [after, armed]
                  rw [passes]
                  exact (ih less others).pass

theorem judge_append (outlook : Outlook) (before later : List Deed) :
    outlook.judge (before ++ later) =
      outlook.judge before ++ (outlook.afterAll before).judge later := by
  induction before generalizing outlook with
  | nil => rfl
  | cons deed before ih => cases deed <;> simp [judge, ih, afterAll_cons]

theorem afterAll_append (outlook : Outlook) (before later : List Deed) :
    outlook.afterAll (before ++ later) = (outlook.afterAll before).afterAll later :=
  List.foldl_append

end Outlook

/-! ## What a call does -/

variable {σ : Type}

/-- What is announced by a pager that fails on purpose. -/
def outlook (pager : Faulty σ) : Outlook := ⟨pager.rates, pager.writesLeft⟩

/-- A draw at a rate that lets all calls fail or none does not depend on chance. -/
theorem draw_eq {rate : Rate} (decided : rate.Decided) (pager : Faulty σ) :
    draw rate pager = .ok rate.isAlways pager := by
  rw [draw]
  rcases decided with never | always
  · rw [if_pos never, Rate.isAlways_of_isNever never]
    rfl
  · have sometimes : ¬ rate.isNever = true := by
      intro never
      rw [Rate.isAlways_of_isNever never] at always
      contradiction
    rw [if_neg sometimes, if_pos always, always]
    rfl

/-- A call with the draw that comes before it: it is counted, and either fails and is counted so, or
is passed on. -/
theorem perhaps_eq {α : Type} (operation : EStateM PagerError σ α) (called failed : Tally → Tally)
    (error : PagerError) {drawn : EStateM PagerError (Faulty σ) Bool} {pager after : Faulty σ}
    {fails : Bool} (draws : drawn { pager with tally := called pager.tally } = .ok fails after) :
    (do
      count called
      if ← drawn then
        count failed
        throw error
      onInner operation : EStateM PagerError (Faulty σ) α) pager =
    if fails then
      .error error { after with tally := failed after.tally }
    else
      onInner operation after := by
  have counted : count called pager = .ok () { pager with tally := called pager.tally } := rfl
  rw [bind_eq_of_ok counted, bind_eq_of_ok draws]
  cases fails <;> rfl

theorem rated_eq {rate : FaultRates → Rate} {pager : Faulty σ}
    (decided : (rate pager.rates).Decided) (tally : Tally) :
    (do draw (rate (← get).rates) : EStateM PagerError (Faulty σ) Bool) { pager with tally } =
      .ok (rate pager.rates).isAlways { pager with tally } :=
  draw_eq decided { pager with tally }

theorem drawWrite_decided {pager : Faulty σ} (decided : pager.rates.write.Decided) (tally : Tally)
    (pages : List Page) (start : Option PageIndex) :
    drawWrite { pager with tally } = .ok pager.outlook.writeFails
      { pager with
        tally
        writesLeft := (pager.outlook.after (.call (.write pages start))).writesLeft } := by
  rw [drawWrite_eq]
  rcases pager with ⟨inner, rates, _ | _ | left, counts, generator⟩
  · exact draw_eq decided _
  · rfl
  · rfl

/-- A call that fails or is passed on does the same with its answer wrapped. -/
theorem wrap_eq {α : Type} {called : EStateM PagerError (Faulty σ) α}
    {operation : EStateM PagerError σ α} {error : PagerError} {pager failed after : Faulty σ}
    {fails : Bool}
    (calls : called pager = if fails then .error error failed else onInner operation after)
    (wrap : α → PagerReply) :
    (do return wrap (← called) : EStateM PagerError (Faulty σ) PagerReply) pager =
      if fails then .error error failed else onInner (do return wrap (← operation)) after := by
  cases fails with
  | true => exact bind_eq_of_error calls _
  | false =>
      rw [if_neg (by simp)] at calls ⊢
      change EStateM.bind called (fun value => pure (wrap value)) pager =
        onInner (EStateM.bind operation fun value => pure (wrap value)) after
      simp only [EStateM.bind, onInner, calls]
      cases operation (Encloses.inner after) <;> rfl

theorem outcome_onInner {α : Type} (operation : EStateM PagerError σ α) (pager : Faulty σ) :
    outcome (onInner operation pager) = outcome (operation pager.inner) := by
  rw [onInner]
  cases operation pager.inner <;> rfl

theorem lastState_onInner {α : Type} (operation : EStateM PagerError σ α) (pager : Faulty σ) :
    lastState (onInner operation pager) =
      { pager with inner := lastState (operation pager.inner) } := by
  rw [onInner]
  cases operation pager.inner <;> rfl

/-- The pager once a call is counted and its failure decided. -/
def noted (pager : Faulty σ) (call : PagerCall) (failure? : Option PagerError) : Faulty σ :=
  { pager with
    writesLeft := (pager.outlook.after (.call call)).writesLeft
    tally := pager.tally.plus (tallyOf [(call, failure?)]) }

theorem noted_outlook (pager : Faulty σ) (call : PagerCall) (failure? : Option PagerError) :
    (pager.noted call failure?).outlook = pager.outlook.after (.call call) := by
  cases call <;> rfl

variable [Pager σ]

/-- What a call comes to: the failure that is announced for it, or else what it comes to on the
inner pager. -/
def relay (pager : Faulty σ) (call : PagerCall) :
    EStateM.Result PagerError (Faulty σ) PagerReply :=
  match pager.outlook.failure? call with
  | some failure => .error failure (pager.noted call (some failure))
  | none => onInner call.ask (pager.noted call none)

theorem ask_eq_of_perhaps {pager failed after : Faulty σ} {call : PagerCall} {fails : Bool}
    {error : PagerError}
    (announced : pager.outlook.failure? call = if fails then some error else none)
    (calls : call.ask pager =
      if fails then .error error failed else onInner call.ask after)
    (failed_eq : failed = pager.noted call (some error))
    (after_eq : after = pager.noted call none) :
    call.ask pager = pager.relay call := by
  rw [relay, calls, announced, failed_eq, after_eq]
  cases fails <;> rfl

/-- With rates of never and always, what becomes of a call can be told before it is made. -/
theorem ask_eq {pager : Faulty σ} (decided : pager.rates.Decided) (call : PagerCall) :
    call.ask pager = pager.relay call := by
  cases call with
  | read start amount =>
      have reads := wrap_eq (perhaps_eq (Pager.readPages start amount)
        (fun tally => { tally with reads := tally.reads + 1 })
        (fun tally => { tally with failedReads := tally.failedReads + 1 })
        (.injectedFault "simulated read error") (rated_eq decided.read _)) .pages
      exact ask_eq_of_perhaps rfl reads rfl rfl
  | write pages start =>
      have writes := wrap_eq (perhaps_eq (Pager.writePages pages start)
        (fun tally => { tally with writes := tally.writes + 1 })
        (fun tally => { tally with failedWrites := tally.failedWrites + 1 })
        (.injectedFault "simulated write error")
        (drawWrite_decided decided.write _ pages start)) .first
      exact ask_eq_of_perhaps rfl writes rfl rfl
  | sync =>
      have syncs := wrap_eq (perhaps_eq Pager.sync
        (fun tally => { tally with syncs := tally.syncs + 1 })
        (fun tally => { tally with failedSyncs := tally.failedSyncs + 1 })
        (.injectedFault "simulated sync error") (rated_eq decided.sync _)) fun _ => .done
      exact ask_eq_of_perhaps rfl syncs rfl rfl
  | pageCount =>
      have counts : (Pager.pageCount : EStateM PagerError (Faulty σ) Nat) pager =
          if false then .error .lockPoisoned pager else onInner Pager.pageCount pager := rfl
      exact wrap_eq counts .count

/-! ## What a run does -/

/-- How the calls among deeds end, and the pager after all deeds. -/
def run (pager : Faulty σ) : List Deed → List (Except PagerError PagerReply) × Faulty σ
  | [] => ([], pager)
  | .call call :: later =>
    let (replies, last) := run (lastState (call.ask pager)) later
    (outcome (call.ask pager) :: replies, last)
  | .setRates rates :: later => run (pager.setRates rates) later
  | .failWriteAfter passing :: later => run (pager.failWriteAfter passing) later
  | .clearFaults :: later => run pager.clearFaults later

/-- Calls turn out as they were judged: those with a failure end with it, the inner pager goes
through the others in their order and gives the replies to them, and all are counted. -/
structure TurnsOut (inner : σ) (tally : Tally) (judged : List (PagerCall × Option PagerError))
    (replies : List (Except PagerError PagerReply)) (last : Faulty σ) : Prop where
  length_eq : replies.length = judged.length
  fails : ∀ entry ∈ judged.zip replies, ∀ failure, entry.1.2 = some failure →
    entry.2 = .error failure
  passes :
    (((judged.zip replies).filter fun entry => entry.1.2.isNone).map Prod.snd, last.inner) =
      runAll ((passing judged).map PagerCall.ask) inner
  tally_eq : last.tally = tally.plus (tallyOf judged)

theorem plus_tallyOf_cons (tally : Tally) (entry : PagerCall × Option PagerError)
    (judged : List (PagerCall × Option PagerError)) :
    tally.plus (tallyOf (entry :: judged)) =
      (tally.plus (tallyOf [entry])).plus (tallyOf judged) := by
  simp only [Tally.plus, tallyOf, List.countP_cons, List.countP_nil, Tally.mk.injEq]
  omega

theorem plus_tallyOf_empty (judged : List (PagerCall × Option PagerError)) :
    ({} : Tally).plus (tallyOf judged) = tallyOf judged := by
  simp [Tally.plus, tallyOf]

namespace TurnsOut

variable {inner : σ} {tally : Tally} {judged : List (PagerCall × Option PagerError)}
  {replies : List (Except PagerError PagerReply)} {last : Faulty σ} {call : PagerCall}

theorem nil (pager : Faulty σ) : TurnsOut pager.inner pager.tally [] [] pager :=
  ⟨rfl, by simp, rfl, rfl⟩

theorem announced {failure : PagerError}
    (turnsOut : TurnsOut inner (tally.plus (tallyOf [(call, some failure)])) judged replies last) :
    TurnsOut inner tally ((call, some failure) :: judged) (.error failure :: replies) last where
  length_eq := congrArg (· + 1) turnsOut.length_eq
  fails := by
    rw [List.zip_cons_cons, List.forall_mem_cons]
    refine ⟨?_, turnsOut.fails⟩
    rintro _ ⟨⟩
    rfl
  passes := turnsOut.passes
  tally_eq := turnsOut.tally_eq.trans (plus_tallyOf_cons tally _ judged).symm

/-- A call that does not fail is answered by the inner pager, and the run goes on from there. -/
theorem unannounced
    (turnsOut : TurnsOut (lastState (call.ask inner)) (tally.plus (tallyOf [(call, none)])) judged
      replies last) :
    TurnsOut inner tally ((call, none) :: judged) (outcome (call.ask inner) :: replies) last where
  length_eq := congrArg (· + 1) turnsOut.length_eq
  fails := by
    rw [List.zip_cons_cons, List.forall_mem_cons]
    refine ⟨?_, turnsOut.fails⟩
    rintro _ ⟨⟩
  passes := by
    have passes := turnsOut.passes
    simp only [passing, List.filter_cons_of_pos, Option.isNone_none, List.map_cons,
      List.zip_cons_cons, runAll] at passes ⊢
    rw [← passes]
  tally_eq := turnsOut.tally_eq.trans (plus_tallyOf_cons tally _ judged).symm

end TurnsOut

/-- By induction on what is done: what is judged of the calls before is carried over to those
after. -/
theorem run_turnsOut (pager : Faulty σ) (decided : pager.rates.Decided) {deeds : List Deed}
    (all : ∀ rates, .setRates rates ∈ deeds → rates.Decided) :
    TurnsOut pager.inner pager.tally (pager.outlook.judge deeds) (run pager deeds).1
        (run pager deeds).2 ∧
      (run pager deeds).2.outlook = pager.outlook.afterAll deeds := by
  induction deeds generalizing pager with
  | nil => exact ⟨TurnsOut.nil pager, rfl⟩
  | cons deed later ih =>
      have others : ∀ rates, .setRates rates ∈ later → rates.Decided :=
        fun rates member => all rates (List.mem_cons_of_mem _ member)
      -- The outlook goes along with the pager, and judges the later calls as it is then.
      cases deed with
      | setRates rates => exact ih (pager.setRates rates) (all rates List.mem_cons_self) others
      | failWriteAfter passing => exact ih (pager.failWriteAfter passing) decided others
      | clearFaults => exact ih pager.clearFaults FaultRates.none_decided others
      | call call =>
          simp only [run, Outlook.judge, Outlook.afterAll_cons]
          cases judged : pager.outlook.failure? call with
          | some failure =>
              have asked : call.ask pager = .error failure (pager.noted call (some failure)) := by
                rw [ask_eq decided, relay, judged]
              rw [asked, ← noted_outlook]
              have ⟨turnsOut, outlook_eq⟩ := ih (pager.noted call (some failure)) decided others
              exact ⟨turnsOut.announced, outlook_eq⟩
          | none =>
              have asked : call.ask pager = onInner call.ask (pager.noted call none) := by
                rw [ask_eq decided, relay, judged]
              rw [asked, outcome_onInner, lastState_onInner, ← noted_outlook pager call none]
              have ⟨turnsOut, outlook_eq⟩ :=
                ih { pager.noted call none with inner := lastState (call.ask pager.inner) } decided
                  others
              exact ⟨turnsOut.unannounced, outlook_eq⟩

/-- From a pager that was just wrapped around an inner one, deeds lead to replies and a last pager
with the announced failures and no others.

The calls are judged by the announcements alone, which an outlook keeps. They turn out as they were
judged, all of them are counted, and the inner pager is reached by as many as did not fail. A
failure that was announced for a write and neither replaced nor taken back comes after as many
writes as announced, and once, whatever the rate. -/
structure Transparent (inner : σ) (deeds : List Deed)
    (replies : List (Except PagerError PagerReply)) (last : Faulty σ) : Prop where
  turns_out : TurnsOut inner {} (Outlook.quiet.judge deeds) replies last
  outlook_eq : last.outlook = Outlook.quiet.afterAll deeds
  reads_reached : last.tally.reads =
    last.tally.failedReads + (passing (Outlook.quiet.judge deeds)).countP PagerCall.isRead
  writes_reached : last.tally.writes =
    last.tally.failedWrites + (passing (Outlook.quiet.judge deeds)).countP PagerCall.isWrite
  syncs_reached : last.tally.syncs =
    last.tally.failedSyncs + (passing (Outlook.quiet.judge deeds)).countP PagerCall.isSync
  armed : ∀ before passing later, deeds = before ++ .failWriteAfter passing :: later →
    (∀ deed ∈ later, deed.rearms = false) →
    ∃ since, Outlook.quiet.judge deeds = Outlook.quiet.judge before ++ since ∧
      OneShot passing (writeFailures since) last.writesLeft

/-- Every call is passed on but those whose failure was announced. -/
theorem run_transparent (inner : σ) (seed : Nat) (deeds : List Deed)
    (decided : ∀ rates, .setRates rates ∈ deeds → rates.Decided) :
    Transparent inner deeds (run (wrap inner seed) deeds).1 (run (wrap inner seed) deeds).2 := by
  obtain ⟨turnsOut, outlook_eq⟩ : TurnsOut inner {} (Outlook.quiet.judge deeds) _ _ ∧ _ :=
    run_turnsOut (wrap inner seed) FaultRates.none_decided decided
  generalize run (wrap inner seed) deeds = ran at turnsOut outlook_eq ⊢
  have tally_eq : ran.2.tally = tallyOf (Outlook.quiet.judge deeds) :=
    turnsOut.tally_eq.trans (plus_tallyOf_empty _)
  have reached := fun kind => countP_passing kind (Outlook.quiet.judge deeds)
  refine ⟨turnsOut, outlook_eq, ?_, ?_, ?_, ?_⟩
  · rw [tally_eq]
    exact reached PagerCall.isRead
  · rw [tally_eq]
    exact reached PagerCall.isWrite
  · rw [tally_eq]
    exact reached PagerCall.isSync
  · rintro before passing later rfl kept
    let armed := (Outlook.quiet.afterAll before).after (.failWriteAfter passing)
    have last_eq : ran.2.outlook = armed.afterAll later :=
      outlook_eq.trans (Outlook.afterAll_append ..)
    have left_eq : ran.2.writesLeft = (armed.afterAll later).writesLeft :=
      congrArg Outlook.writesLeft last_eq
    refine ⟨armed.judge later, Outlook.judge_append .., ?_⟩
    rw [left_eq]
    exact Outlook.judge_armed rfl kept

/-- Of three writes after a failure is announced for the second, at a rate that lets all writes
fail, the first one passes. -/
theorem run_transparent_memory :
    let deeds : List Deed := [.failWriteAfter 1, .setRates ⟨.zero, ⟨1, 0⟩, .zero⟩,
      .call (.write [] none), .call (.write [] none), .call (.write [] none), .call .sync]
    let ran := run (wrap (⟨[]⟩ : Memory) 7) deeds
    writeFailures (Outlook.quiet.judge deeds) = [false, true, true] ∧
      Transparent ⟨[]⟩ deeds ran.1 ran.2 := by
  intro deeds ran
  refine ⟨rfl, run_transparent _ 7 deeds ?_⟩
  intro rates set
  simp only [deeds, List.mem_cons, reduceCtorEq, Deed.setRates.injEq, List.not_mem_nil, or_false,
    false_or] at set
  subst set
  exact ⟨.inl rfl, .inr rfl, .inl rfl⟩

end Faulty

end PagedMap
