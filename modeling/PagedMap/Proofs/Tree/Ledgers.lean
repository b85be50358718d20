import PagedMap.Proofs.Tree.Accounting

/-!
# Ledgers

Beside a client that begins transactions, inserts and commits, a ledger is kept: it says which pages
were appended to store values, and which ones as copies. As long as no transaction is undone, every
page has exactly one purpose, and long values have their overflow pages for themselves.
-/

namespace PagedMap

open PageList (fetch)

/-- What a page is there for. -/
inductive Purpose where
  | anchor
  | sentinel
  /-- A node or a leaf of the tree. -/
  | member
  /-- A part of a long value. -/
  | part
  /-- A copy of a page from before a transaction. -/
  | copy
deriving DecidableEq

/-- The purposes that there are. -/
def Purpose.all : List Purpose := [.anchor, .sentinel, .member, .part, .copy]

theorem Purpose.mem_all (purpose : Purpose) : purpose ∈ all := by
  cases purpose <;> decide

/-- The copies that a client's transaction has made so far. -/
def Client.shadows : Client → Shadows
  | .changing transaction => transaction.shadows
  | _ => []

/-- A client in its session, and for what pages have been appended: to store values when they were
encoded, and as copies by transactions that have ended. -/
structure Ledger (σ : Type) where
  client : Client
  session : Session σ
  spilled : PageIndex → Prop
  archived : PageIndex → Prop

namespace Ledger

variable {σ : Type} [Pager σ] [AtomicPager σ] {ledger start later : Ledger σ} {tree : Tree}
  {transaction : Transaction} {session : Session σ} {after : Holding Transaction σ}
  {outline : Outline} {contents : Contents} {spilled archived : PageIndex → Prop}
  {index : PageIndex}

/-- A page has a purpose, beside a tree. -/
def Serves (ledger : Ledger σ) (tree : Tree) : Purpose → PageIndex → Prop
  | .anchor, index => index = tree.anchorIndex
  | .sentinel, index => index = tree.anchor.sentinel
  | .member, index => ∃ path, Way ledger.session.pages tree.anchor.root path index
  | .part, index => ledger.spilled index ∧
    ∃ overflow : Overflow, fetch ledger.session.pages index = some overflow.toPage
  | .copy, index => Copied ledger.archived ledger.client.shadows index

/-- A transaction is begun, a key is inserted, or the transaction is committed. A key that is too
long is refused, and the transaction goes on. -/
inductive Entry : Ledger σ → Ledger σ → Prop where
  | started {tree : Tree} {transaction : Transaction} {session after : Session σ}
      {spilled archived : PageIndex → Prop}
      (starts : Transaction.start tree session = .ok transaction after) :
      Entry ⟨.resting tree, session, spilled, archived⟩
        ⟨.changing transaction, after, spilled, archived⟩
  | inserted {transaction : Transaction} {session : Session σ} {after : Holding Transaction σ}
      {spilled archived : PageIndex → Prop} {key : Bytes} {value : Addressable}
      (inserts : Transaction.attempt (.insert key value) ⟨transaction, session⟩ = .ok () after) :
      Entry ⟨.changing transaction, session, spilled, archived⟩
        ⟨.changing after.held, after.session, fun index => spilled index ∨
          Spills transaction.tree key value.val session after.session index, archived⟩
  | committed {transaction : Transaction} {session : Session σ} {after : Holding Transaction σ}
      {spilled archived : PageIndex → Prop}
      (commits : Transaction.commit ⟨transaction, session⟩ = .ok () after) :
      Entry ⟨.changing transaction, session, spilled, archived⟩
        ⟨.resting after.held.tree, after.session, spilled, Copied archived after.held.shadows⟩

/-- One operation after the other, none of which undoes a transaction. -/
inductive Run (start : Ledger σ) : Ledger σ → Prop where
  | none : Run start start
  | next {ledger later : Ledger σ} (earlier : Run start ledger) (entry : Entry ledger later) :
      Run start later

/-- Every page of a ledger has one purpose, and to each node and leaf there is one way. An overflow
page is on the chain of at most one value, and the chain of a value comes to an end. -/
structure Balanced (ledger : Ledger σ) (tree : Tree) : Prop where
  purpose : ∀ index page, fetch ledger.session.pages index = some page →
    ∃ purpose, ledger.Serves tree purpose index ∧
      ∀ other, ledger.Serves tree other index → other = purpose
  once : ∀ index path other, Way ledger.session.pages tree.anchor.root path index →
    Way ledger.session.pages tree.anchor.root other index → path = other
  alone : ∀ part index other record otherRecord,
    Live ledger.session.pages tree.anchor.root index record →
    Live ledger.session.pages tree.anchor.root other otherRecord →
    Value.Spans ledger.session.pages record.2 part →
    Value.Spans ledger.session.pages otherRecord.2 part → index = other ∧ record = otherRecord
  encoded : ∀ part index record, Live ledger.session.pages tree.anchor.root index record →
    Value.Spans ledger.session.pages record.2 part → ledger.spilled part
  ends : ∀ index record head, Live ledger.session.pages tree.anchor.root index record →
    Value.overflowHead? record.2 = some head → ∃ rest, Value.Chain ledger.session.pages head rest

/-! ## Kept ledgers -/

/-- The pages keep the client's tree, and they are accounted for. A transaction can be undone. -/
structure Correct (ledger : Ledger σ) (tree : Tree) (outline : Outline) (contents : Contents) :
    Prop where
  has : ledger.client.tree? = some tree
  anchorIndex_eq : tree.anchorIndex = 0
  keeps : Keeps 255 ledger.session.pages tree outline contents
  accounts : Accounts ledger.spilled (Copied ledger.archived ledger.client.shadows)
    ledger.session.pages tree outline
  changing : ∀ transaction, ledger.client = .changing transaction →
    transaction.phase = .active ∧ ∃ base,
      Transaction.Maintains base 255 outline contents ⟨transaction, ledger.session⟩

namespace Correct

/-- Pages of the tree are told apart by their kinds, and by their places in the outline. Copies have
no place there. -/
theorem apart (correct : ledger.Correct tree outline contents) (index : PageIndex) :
    Purpose.all.Pairwise fun left right =>
      ledger.Serves tree left index → ¬ ledger.Serves tree right index := by
  have keeps := correct.keeps
  have accounts := correct.accounts
  have sentinel_ne_anchor : tree.anchor.sentinel ≠ tree.anchorIndex :=
    ne_of_kind keeps.ended (Leaf.kind?_toPage _) keeps.anchored tree.anchor.kind?_toPage (by decide)
  simp only [Purpose.all, List.pairwise_cons, List.mem_cons, List.not_mem_nil, or_false,
    forall_eq_or_imp, forall_eq, Serves, false_imp_iff, implies_true, List.Pairwise.nil, and_true]
  refine ⟨⟨?_, ?_, ?_, ?_⟩, ⟨?_, ?_, ?_⟩, ⟨?_, ?_⟩, ?_⟩
  · rintro rfl isSentinel
    exact sentinel_ne_anchor isSentinel.symm
  · rintro rfl reached
    exact keeps.child_ne (keeps.way_iff.mp reached) keeps.anchored tree.anchor.kind?_toPage
      (by decide) (by decide) rfl
  · rintro rfl ⟨_, overflow, isOverflow⟩
    exact ne_of_kind keeps.anchored tree.anchor.kind?_toPage isOverflow overflow.kind?_toPage
      (by decide) rfl
  · rintro rfl copied
    exact accounts.notAnchor _ copied rfl
  · rintro rfl reached
    exact keeps.exempts_sentinel.notChild (keeps.reached_child (keeps.way_iff.mp reached))
  · rintro rfl ⟨_, overflow, isOverflow⟩
    exact ne_of_kind keeps.ended (Leaf.kind?_toPage _) isOverflow overflow.kind?_toPage
      (by decide) rfl
  · rintro rfl copied
    exact accounts.noPlace _ copied _ .sentinel
  · rintro reached ⟨_, overflow, isOverflow⟩
    exact keeps.child_ne (keeps.way_iff.mp reached) isOverflow overflow.kind?_toPage (by decide)
      (by decide) rfl
  · intro reached copied
    exact accounts.noPlace _ copied _ (keeps.way_iff.mp reached)
  · rintro ⟨spilled, _⟩ copied
    exact accounts.notSpilled _ copied spilled

theorem purpose_eq (correct : ledger.Correct tree outline contents) {purpose other : Purpose}
    (serves : ledger.Serves tree purpose index) (otherServes : ledger.Serves tree other index) :
    purpose = other :=
  eq_of_pairwise (correct.apart index) purpose.mem_all other.mem_all serves otherServes

theorem exists_purpose (correct : ledger.Correct tree outline contents) {page : Page}
    (fetched : fetch ledger.session.pages index = some page) :
    ∃ purpose, ledger.Serves tree purpose index := by
  rcases correct.accounts.covered index page fetched with
    isAnchor | isSentinel | belongs | spilled | copied
  · exact ⟨.anchor, isAnchor⟩
  · exact ⟨.sentinel, isSentinel⟩
  · exact ⟨.member, correct.keeps.way_iff.mpr belongs⟩
  · exact ⟨.part, spilled, correct.accounts.parts index spilled⟩
  · exact ⟨.copy, copied⟩

/-- What a value of the tree needs was written by a transaction that spilled it. -/
theorem spilled_of_part (correct : ledger.Correct tree outline contents)
    (belongs : Belongs ledger.session.pages tree.anchor.sentinel outline .part index) :
    ledger.spilled index := by
  have keeps := correct.keeps
  rcases belongs.exists_overflow with ⟨overflow, isOverflow⟩
  rcases correct.accounts.covered index _ isOverflow with
    isAnchor | isSentinel | isMember | spilled | copied
  · exact absurd isAnchor.symm (ne_of_kind keeps.anchored tree.anchor.kind?_toPage isOverflow
      overflow.kind?_toPage (by decide))
  · exact absurd isSentinel.symm (ne_of_kind keeps.ended (Leaf.kind?_toPage _) isOverflow
      overflow.kind?_toPage (by decide))
  · exact absurd rfl
      (keeps.child_ne isMember isOverflow overflow.kind?_toPage (by decide) (by decide))
  · exact spilled
  · exact absurd belongs (correct.accounts.noPlace _ copied _)

/-- A correct ledger is balanced: every page has a purpose, and it has no other. -/
theorem balanced (correct : ledger.Correct tree outline contents) : ledger.Balanced tree where
  purpose := by
    intro index page fetched
    rcases correct.exists_purpose fetched with ⟨purpose, serves⟩
    exact ⟨purpose, serves, fun other otherServes => correct.purpose_eq otherServes serves⟩
  once _ _ _ := correct.keeps.way_eq
  alone := by
    intro part index other record otherRecord live otherLive spans otherSpans
    rcases correct.keeps.sheet_of_live live with ⟨sheet, inSheets, rfl, member⟩
    rcases correct.keeps.sheet_of_live otherLive with ⟨otherSheet, otherInSheets, rfl, otherMember⟩
    obtain rfl := correct.accounts.alone record (List.mem_flatMap_of_mem inSheets member)
      otherRecord (List.mem_flatMap_of_mem otherInSheets otherMember) part spans otherSpans
    have ordered := correct.keeps.shelf.ordered
    rw [ordered.eq_of_record inSheets otherInSheets member otherMember]
    exact ⟨rfl, rfl⟩
  encoded := by
    intro part index record live spans
    rcases correct.keeps.sheet_of_live live with ⟨sheet, inSheets, rfl, member⟩
    exact correct.spilled_of_part (.part inSheets member spans)
  ends := by
    intro index record head live headed
    rcases correct.keeps.sheet_of_live live with ⟨sheet, inSheets, rfl, member⟩
    rcases correct.keeps.means.decoded record (List.mem_flatMap_of_mem inSheets member) with
      ⟨value, _, decodes⟩
    exact decodes.exists_chain headed

end Correct

/-! ## One operation -/

/-- Nothing is written when a transaction starts, so the ledger stays correct. -/
theorem Correct.started {next : Session σ}
    (correct : Correct ⟨.resting tree, session, spilled, archived⟩ tree outline contents)
    (starts : Transaction.start tree session = .ok transaction next) :
    Correct ⟨.changing transaction, next, spilled, archived⟩ tree outline contents ∧
      session.pages.length ≤ next.pages.length := by
  rcases (Transaction.start_ends tree session).of_ok starts with ⟨rfl, still, room⟩
  have keeps : Keeps 255 session.pages tree outline contents := correct.keeps
  have maintains := (Transaction.Maintains.of_keeps keeps room).of_still still
  refine ⟨⟨rfl, correct.anchorIndex_eq, maintains.keeps, ?_, ?_⟩, still.longer.length_le⟩
  · change Accounts _ _ next.pages _ _
    rw [still.pages_eq]
    exact correct.accounts
  · intro transaction same
    injection same with same
    rw [← same]
    exact ⟨rfl, _, maintains⟩

/-- An insertion enters the pages that it has spilled. -/
theorem Correct.inserted {key : Bytes} {value : Addressable}
    (correct : Correct ⟨.changing transaction, session, spilled, archived⟩ tree outline contents)
    (inserts : Transaction.attempt (.insert key value) ⟨transaction, session⟩ = .ok () after) :
    ∃ grown now, Correct ⟨.changing after.held, after.session, fun index => spilled index ∨
        Spills transaction.tree key value.val session after.session index, archived⟩
        after.held.tree grown now ∧ session.pages.length ≤ after.session.pages.length := by
  rcases correct.changing transaction rfl with ⟨active, base, maintains⟩
  injection correct.has with same
  subst same
  have attempts := Transaction.attemptInsert_ends maintains active (Nat.le_refl _)
    transaction.tree.config.maxEntries_le key value
  rcases attempts.of_ok inserts with rfl | entered
  · have unchanged : (fun index => spilled index ∨
        Spills transaction.tree key value.val session session index) = spilled := by
      funext index
      simp [not_spills]
    refine ⟨outline, contents, ?_, Nat.le_refl _⟩
    rw [unchanged]
    exact correct
  · rcases entered.adjusts correct.accounts with ⟨later, maintainsLater, adjusts⟩
    refine ⟨later, _, ⟨rfl, adjusts.anchorIndex_eq.trans correct.anchorIndex_eq,
      maintainsLater.keeps, correct.accounts.adjust correct.keeps adjusts, ?_⟩, adjusts.longer⟩
    intro transaction same
    injection same with same
    rw [← same]
    exact ⟨entered.continues.advances.phase_eq.trans active, base, maintainsLater⟩

/-- A commit enters the copies of the transaction as archived. -/
theorem Correct.committed
    (correct : Correct ⟨.changing transaction, session, spilled, archived⟩ tree outline contents)
    (commits : Transaction.commit ⟨transaction, session⟩ = .ok () after) :
    Correct ⟨.resting after.held.tree, after.session, spilled, Copied archived after.held.shadows⟩
      after.held.tree outline contents ∧ session.pages.length ≤ after.session.pages.length := by
  rcases correct.changing transaction rfl with ⟨active, base, maintains⟩
  injection correct.has with same
  subst same
  have committed := (Transaction.commit_ends maintains active).of_ok commits
  have adjusts := committed.adjusts maintains.keeps correct.accounts
  refine ⟨⟨rfl, adjusts.anchorIndex_eq.trans correct.anchorIndex_eq, committed.keeps, ?_, ?_⟩,
    adjusts.longer⟩
  · change Accounts _ (Copied _ []) _ _ _
    rw [copied_nil]
    exact correct.accounts.adjust correct.keeps adjusts
  · intro transaction same
    contradiction

/-! ## Runs -/

/-- An operation leaves the pages accounted for, and gives up none. -/
theorem Correct.entry (correct : ledger.Correct tree outline contents)
    (entry : Entry ledger later) : ∃ grown wider now, later.Correct grown wider now ∧
      ledger.session.pages.length ≤ later.session.pages.length := by
  cases entry with
  | started starts =>
      injection correct.has with same
      subst same
      exact ⟨_, _, _, correct.started starts⟩
  | inserted inserts => exact ⟨_, correct.inserted inserts⟩
  | committed commits => exact ⟨_, _, _, correct.committed commits⟩

theorem Correct.run (correct : start.Correct tree outline contents) (run : start.Run ledger) :
    ∃ grown wider now, ledger.Correct grown wider now ∧
      start.session.pages.length ≤ ledger.session.pages.length := by
  induction run with
  | none => exact ⟨tree, outline, contents, correct, Nat.le_refl _⟩
  | next _ entry ih =>
      rcases ih with ⟨_, _, _, correctBefore, longer⟩
      rcases correctBefore.entry entry with ⟨grown, wider, now, correctLater, longerStill⟩
      exact ⟨grown, wider, now, correctLater, Nat.le_trans longer longerStill⟩

/-- When a tree has been made, no page has been appended to store a value, and none as a copy. -/
def opened (tree : Tree) (session : Session σ) : Ledger σ :=
  ⟨.resting tree, session, fun _ => False, fun _ => False⟩

/-- The three pages of an empty tree are accounted for. -/
theorem correct_opened {config : Config} {session after : Session σ} (empty : session.pages = [])
    (made : Opened 0 config session tree after) :
    (opened tree after).Correct tree (Outline.empty tree.anchor) .empty where
  has := rfl
  anchorIndex_eq := made.anchorIndex_eq
  keeps := made.fresh.keeps
  accounts := {
    covered := by
      intro index page fetched
      have missing : fetch session.pages index = none := by
        rw [empty, fetch]
        split <;> rfl
      rcases made.adds index page missing fetched with isAnchor | isSentinel | rfl
      · exact Or.inl isAnchor
      · exact Or.inr (Or.inl isSentinel)
      · have inSheets : (⟨[], tree.anchor.root, [], tree.anchor.sentinel⟩ : Sheet) ∈
            (Outline.empty tree.anchor).sheets := List.mem_singleton_self _
        exact Or.inr (Or.inr (Or.inl (.leaf inSheets)))
    parts := fun _ => False.elim
    present := by simp [opened, Copied, Client.shadows]
    notAnchor := by simp [opened, Copied, Client.shadows]
    notSpilled := fun _ _ => id
    noPlace := by simp [opened, Copied, Client.shadows]
    alone := by
      intro record member
      contradiction }
  changing transaction same := by contradiction

end Ledger

/-- A tree is made in a pager without pages, and transactions are begun and committed, none of which
is undone. Then at every point each page has one purpose, and pages only become more. -/
theorem ledger_balanced {σ : Type} [Pager σ] [AtomicPager σ] {config : Config} {tree : Tree}
    {session after : Session σ} {ledger later : Ledger σ} (empty : session.pages = [])
    (opens : Tree.openOrCreate 0 config session = .ok tree after)
    (run : (Ledger.opened tree after).Run ledger) (further : ledger.Run later) :
    ∃ current, ledger.client.tree? = some current ∧ current.anchorIndex = 0 ∧
      ledger.Balanced current ∧ ledger.session.pages.length ≤ later.session.pages.length := by
  have creatable : Creatable session.pages 0 := by
    rw [empty]
    exact Or.inl rfl
  have made := (Tree.openOrCreate_ends config creatable).of_ok opens
  rcases (Ledger.correct_opened empty made).run run with ⟨current, _, _, correct, _⟩
  rcases correct.run further with ⟨_, _, _, _, longer⟩
  exact ⟨current, correct.has, correct.anchorIndex_eq, correct.balanced, longer⟩

/-- A value that is too long for a leaf. -/
def longValue : Addressable := ⟨List.replicate 1100 2, by rw [List.length_replicate]; decide⟩

/-- In an empty memory, a key with a long value is inserted and committed. Then there are the anchor
and two leaves, an overflow page, and two copies: of the leaf and of the anchor. -/
theorem ledger_balanced_memory : ∃ (tree current : Tree) (after : Session Memory)
    (ledger : Ledger Memory), Tree.openOrCreate 0 .default ⟨⟨[]⟩, []⟩ = .ok tree after ∧
      (Ledger.opened tree after).Run ledger ∧ ledger.client = .resting current ∧
      ledger.session.pages.length = 6 ∧ ledger.Balanced current := by
  have runs : Ends (Tree.openOrCreate 0 .default (⟨⟨[]⟩, []⟩ : Session Memory))
      (fun tree after => Ends (Transaction.start tree after)
        (fun transaction begun => Ends
          (Transaction.attempt (.insert [1] longValue) ⟨transaction, begun⟩)
          (fun _ changed => Ends (Transaction.commit changed)
            (fun _ last => last.session.device.pages.length = 6) (fun _ _ => False))
          (fun _ _ => False))
        (fun _ _ => False))
      (fun _ _ => False) := by
    decide +kernel
  rcases runs.exists_ok (fun _ _ => id) with ⟨tree, after, opens, starting⟩
  rcases starting.exists_ok (fun _ _ => id) with ⟨transaction, begun, starts, inserting⟩
  rcases inserting.exists_ok (fun _ _ => id) with ⟨_, changed, inserts, committing⟩
  rcases committing.exists_ok (fun _ _ => id) with ⟨_, last, commits, length_eq⟩
  have run : (Ledger.opened tree after).Run _ :=
    ((Ledger.Run.none.next (.started starts)).next (.inserted inserts)).next (.committed commits)
  rcases ledger_balanced rfl opens run .none with ⟨current, has, _, balanced, _⟩
  injection has with same
  exact ⟨tree, current, after, _, opens, run, congrArg _ same, length_eq, balanced⟩

end PagedMap
