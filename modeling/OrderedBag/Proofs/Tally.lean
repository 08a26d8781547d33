import OrderedBag.Proofs.BrokenViews
import OrderedBag.Proofs.Extending

/-!
# The books of a run

Whoever issues commands and reads the answers can keep the books of a source: an insertion is
written down as it is asked for, and a removal if the answer tells of one. The contents are what can
be told from these books at every moment, whatever else happens, as long as there is room for what
is inserted. So are the answers.

* `Session.events` — what is written down for a command and its outcome
* `Session.Recorded` — the books of a source in a run
* `Session.Recorded.accounts` — the contents are what the books tell
* `Session.recorded_spec` — and so are the answers
-/

namespace OrderedBag

open Std OrderedBag.Action

variable {α : Type}

/-! ## What is written down -/

/-- The entries that a bag shows, if it can be visited. -/
def Session.shown (s : Session α) (name : String) : List (Entry α) :=
  match s.watch name with
  | some (.ok es) => es
  | _ => []

/-- What a change does to its source. The occurrences in a bag are those that it shows. -/
def Change.events (s : Session α) (o : Except Failure (Answer α)) : Change α → History α
  | insert x => [.inserted x 1]
  | insertMany x n => [.inserted x n]
  | extend xs => .arrivals xs
  | absorb name => .arrivals ((s.shown name).flatMap Entry.occurrences)
  | remove x =>
    match o with
    | .ok (.maybeCount n?) => (n?.map fun _ => .removed x 1).toList
    | _ => []
  | removeAll x =>
    match o with
    | .ok (.maybeCount n?) => (n?.map (.removed x)).toList
    | _ => []
  | clear => [.cleared]

/-- How many occurrences a change inserts. -/
def Change.arriving (s : Session α) : Change α → Nat
  | insert _ => 1
  | insertMany _ n => n
  | extend xs => xs.length
  | absorb name => ((s.shown name).flatMap Entry.occurrences).length
  | remove _ | removeAll _ | clear => 0

/-- What a question does to the source behind a bag. -/
def BagQuery.events (o : Except Failure (Answer α)) : BagQuery α → History α
  | poll _ | take _ =>
    match o with
    | .ok (.maybeEntry e?) => (e?.map fun e => .removed e.element e.count).toList
    | _ => []
  | _ => []

/-- What a question does to the source behind an element set. The answer tells no count. -/
def ElementQuery.events (o : Except Failure (Answer α)) : ElementQuery α → History α
  | poll _ =>
    match o with
    | .ok (.maybeElement x?) => (x?.map .emptied).toList
    | _ => []
  | remove x =>
    match o with
    | .ok (.flag found) => if found then [.emptied x] else []
    | _ => []
  | _ => []

/-- The source which a command is about, directly or through a view. -/
def Command.source? (t : Table α) : Command α → Option (Source α)
  | change name _ =>
    match t.find? name with
    | some (.bag (.source s)) => some s
    | _ => none
  | askBag name _ =>
    match t.find? name with
    | some (.bag v) => some v.root
    | _ => none
  | askElements name _ =>
    match t.find? name with
    | some (.elements u) => some u.view.root
    | _ => none
  | _ => none

/-- What a command does to the source that it is about. -/
def Command.events (s : Session α) (o : Except Failure (Answer α)) : Command α → History α
  | change _ ch => ch.events s o
  | askBag _ q => q.events o
  | askElements _ q => q.events o
  | _ => []

/-- What is written down for a source when a command has the given outcome. -/
def Session.events (s : Session α) (b : Source α) (c : Command α)
    (o : Except Failure (Answer α)) : History α :=
  match c.source? s.table with
  | some s' => if s'.bag = b.bag then c.events s o else []
  | none => []

/-! ## Removals -/

section

variable {reg : Registry α} {v : View α} {past : History α}

/-- The removal of an entry through a view, in the books. -/
theorem View.accounts_without (ha : (reg.contents v.root.bag).Accounts v.root.comparator past)
    {e? : Option (Entry α)} (he : ∀ e, e? = some e → e ∈ v.listing reg.contents) :
    (v.without reg.contents e? v.root.bag).Accounts v.root.comparator
      ((e?.map fun e => Event.removed e.element e.count).toList ++ past) := by
  cases e? with
  | none => exact ha
  | some e =>
    show (if v.root.bag = v.root.bag then _ else _ : Histogram α).Accounts _ _
    rw [if_pos rfl]
    exact ha.eraseEntry (mem_listing.mp (he e rfl)).1 (Comparator.compare_self _ _)

/-- The same, if no more than an element that compares equal is known of the entry. -/
theorem View.accounts_without_emptied
    (ha : (reg.contents v.root.bag).Accounts v.root.comparator past) (e : Entry α) {x : α}
    (hex : v.root.comparator.compare e.element x = .eq) :
    (v.without reg.contents (some e) v.root.bag).Accounts v.root.comparator
      (.emptied x :: past) := by
  show (if v.root.bag = v.root.bag then _ else _ : Histogram α).Accounts _ _
  rw [if_pos rfl, Histogram.erase_congr hex]
  exact ha.erase x

/-- A view shows the entries that it lets through. -/
theorem View.mem_listing_iff_entry?
    (ha : (reg.contents v.root.bag).Accounts v.root.comparator past) {e : Entry α} :
    e ∈ v.listing reg.contents ↔
      v.admits e.element = true ∧ past.entry? v.root.comparator e.element = some e := by
  rw [mem_listing, and_comm, ← ha.find?_eq]
  refine and_congr_right fun _ => ⟨fun he => ?_, fun he => (Comparator.mem_of_find? he).1⟩
  exact Comparator.find?_eq_some ha.valid.sorted he (Comparator.compare_self _ _)

/-- It shows none if there is no occurrence of any element that it lets through. -/
theorem View.extreme?_eq_none_iff
    (ha : (reg.contents v.root.bag).Accounts v.root.comparator past) (d : Direction) :
    d.extreme? (v.listing reg.contents) = none ↔
      ∀ x, v.admits x = true → past.balance v.root.comparator x = 0 := by
  have hnil : d.extreme? (v.listing reg.contents) = none ↔ v.listing reg.contents = [] := by
    cases d
    · exact List.head?_eq_none_iff
    · exact List.getLast?_eq_none_iff
  rw [hnil]
  refine ⟨fun h x hx => ?_, fun h => List.eq_nil_iff_forall_not_mem.mpr fun e he => ?_⟩
  · have hfind := View.find?_listing ha.valid.sorted x
    rw [h, if_pos hx, ha.find?_eq] at hfind
    exact (ha.entry?_eq_none_iff x).mp hfind.symm
  · obtain ⟨hadm, he⟩ := View.mem_listing_iff_entry? ha |>.mp he
    rw [(ha.entry?_eq_none_iff e.element).mpr (h _ hadm)] at he
    cases he

end

/-- What the action does to the source is written down, whether it fails or not. -/
def Action.Enters (a : Action α (Answer α)) (b : Source α) (past : History α) (reg : Registry α)
    (events : Except Failure (Answer α) → History α) : Prop :=
  ∃ o k, a.Gives reg o k ∧ (k b.bag).Accounts b.comparator (events o ++ past)

section

variable {reg : Registry α} {past : History α}

theorem ElementSet.bag_fails {u : ElementSet α} {e : Failure} {β : Type} {f : View α → Action α β}
    (h : reg.follow u.link u.view = .error e) :
    (u.bag >>= f).Gives reg (.error e) reg.contents := by
  have hfollow := answers_follow reg u.link u.view
  rw [h] at hfollow
  exact hfollow.bind_error.bind_error.gives

variable [Shown α]

theorem BagQuery.poll_enters (hs : reg.Sound) {v : View α} (hh : reg.Houses v)
    (ha : (reg.contents v.root.bag).Accounts v.root.comparator past) (d : Direction) :
    ((BagQuery.poll d).run v).Enters v.root past reg fun o => (BagQuery.poll d).events o := by
  cases hreach : reg.canReach v with
  | true =>
    exact ⟨_, _, (View.poll_gives hs hh hreach d).map Answer.maybeEntry,
      View.accounts_without ha fun e he => Direction.mem_of_extreme? he⟩
  | false =>
    -- the poll fails before it takes anything, and a failure tells of no removal
    exact ⟨_, _, (View.poll_of_canReach hreach d).bind, ha⟩

theorem BagQuery.take_enters (hs : reg.Sound) {v : View α} (hh : reg.Houses v)
    (ha : (reg.contents v.root.bag).Accounts v.root.comparator past) (x : α) :
    ((BagQuery.take x).run v).Enters v.root past reg fun o => (BagQuery.take x).events o := by
  cases hreach : reg.canReach v with
  | true =>
    exact ⟨_, _, (View.take_gives hs hh hreach x).map Answer.maybeEntry,
      View.accounts_without ha fun e he => (Comparator.mem_of_find? he).1⟩
  | false => exact ⟨_, _, (View.take_of_canReach hreach x).bind, ha⟩

theorem ElementQuery.poll_enters (hs : reg.Sound) {u : ElementSet α} (hh : reg.Houses u.view)
    (ha : (reg.contents u.view.root.bag).Accounts u.view.root.comparator past) (d : Direction) :
    ((ElementQuery.poll d).run u).Enters u.view.root past reg fun o =>
      (ElementQuery.poll d).events o := by
  cases hf : reg.follow u.link u.view with
  | error e => exact ⟨_, _, Gives.bind_error (ElementSet.bag_fails hf), ha⟩
  | ok _ =>
    have hbag := ElementSet.perform_bag hf
    cases hreach : reg.canReach u.view with
    | true =>
      have hpoll : (u.poll d).Gives reg _ _ :=
        .after hbag ((View.poll_gives hs hh hreach d).map fun e? => e?.map Entry.element)
      refine ⟨_, _, hpoll.map Answer.maybeElement, ?_⟩
      cases d.extreme? (u.view.listing reg.contents) with
      | none => exact ha
      | some e => exact View.accounts_without_emptied ha e (Comparator.compare_self _ _)
    | false =>
      have hpoll : (u.poll d).Breaks reg := .after hbag (View.poll_of_canReach hreach d).bind
      exact ⟨_, _, hpoll.bind, ha⟩

theorem ElementQuery.remove_enters (hs : reg.Sound) {u : ElementSet α} (hh : reg.Houses u.view)
    (ha : (reg.contents u.view.root.bag).Accounts u.view.root.comparator past) (x : α) :
    ((ElementQuery.remove x).run u).Enters u.view.root past reg fun o =>
      (ElementQuery.remove x).events o := by
  cases hf : reg.follow u.link u.view with
  | error e => exact ⟨_, _, Gives.bind_error (ElementSet.bag_fails hf), ha⟩
  | ok _ =>
    have hbag := ElementSet.perform_bag hf
    cases hreach : reg.canReach u.view with
    | true =>
      have hremove : (u.remove x).Gives reg _ _ :=
        .after hbag ((View.take_gives hs hh hreach x).map Option.isSome)
      refine ⟨_, _, hremove.map Answer.flag, ?_⟩
      cases hfind : u.view.order.find? (u.view.listing reg.contents) x with
      | none => exact ha
      | some e =>
        have hex := (View.order_compare_eq_iff _ _ _).mp (Comparator.mem_of_find? hfind).2
        exact View.accounts_without_emptied ha e hex
    | false =>
      have hremove : (u.remove x).Breaks reg := .after hbag (View.take_of_canReach hreach x).bind
      exact ⟨_, _, hremove.bind, ha⟩

end

/-! ## Changes -/

namespace Session

variable {s : Session α} {b : Source α} {past : History α}

/-- A bag that can be visited shows its listing. -/
theorem Sound.watch_eq (hs : s.Sound) {name : String} {es : List (Entry α)}
    (h : s.watch name = some (.ok es)) :
    ∃ v, s.table.find? name = some (.bag v) ∧ v.Usable s.registry ∧
      es = v.listing s.registry.contents := by
  unfold watch at h
  split at h
  next v hname =>
    have h := Option.some.inj h
    have hu := hs.registry.usable (hs.live.find? hname).1 (View.canReach_of_entries h)
    rw [View.entries_eq hu] at h
    exact ⟨v, hname, hu, (Except.ok.inj h).symm⟩
  next => cases h

/-- A bag that shows nothing cannot be reached. -/
theorem Sound.unreachable_of_watch (hs : s.Sound) {name : String} {e : Failure}
    (h : s.watch name = some (.error e)) :
    ∃ v, s.table.find? name = some (.bag v) ∧ s.fresh.canReach v = false := by
  unfold watch at h
  split at h
  next v hname =>
    refine ⟨v, hname, Bool.eq_false_iff.mpr fun hreach => ?_⟩
    rw [Session.fresh, Registry.canReach_withLog] at hreach
    rw [View.entries_eq (hs.registry.usable (hs.live.find? hname).1 hreach)] at h
    cases h
  next => cases h

/-- A name that is not watched stands for no bag. -/
theorem perform_bag_of_watch (s : Session α) {name : String} (h : s.watch name = none)
    (reg : Registry α) :
    (s.table.bag name).perform reg = (.error (.unsuitableHandle name), reg) := by
  unfold watch at h
  rw [Table.bag, Table.perform_expect]
  generalize s.table.find? name = found at h ⊢
  rcases found with _ | _ | _ | _ | _ | _ | _ <;> first | rfl | cases h

/-- While the occurrences in a bag are inserted, the bag must be visited. -/
def Readable (s : Session α) : Change α → Prop
  | .absorb name => ∃ es, s.watch name = some (.ok es)
  | _ => True

end Session

/-- What a change answers. -/
def Change.answer (c : Comparator α) (past : History α) : Change α → Answer α
  | insert x | insertMany x _ | remove x | removeAll x => .maybeCount (History.previous? c x past)
  | extend _ | absorb _ | clear => .done

namespace Change

variable {s : Session α} {b : Source α} {past : History α}

/-- The occurrences in a bag are inserted as those which it shows at the start, also if it is a view
of the very source that is extended. -/
theorem absorb_run_eq (hs : s.Sound) (hh : s.registry.Houses (.source b)) {name : String}
    {es : List (Entry α)} (h : s.watch name = some (.ok es)) :
    ((absorb name).run s.table b).perform s.fresh =
      ((extend (es.flatMap Entry.occurrences)).run s.table b).perform s.fresh := by
  obtain ⟨v, hname, hu, rfl⟩ := hs.watch_eq h
  have hroot : v.root.bag = b.bag → v.root = b :=
    hs.fresh.stocked.distinct _ _ ((hs.live_fresh.find? hname).1.root hs.fresh.wellFormed)
      (hh.moves s.moves_fresh)
  have hu : v.Usable s.fresh := hu.withLog []
  obtain ⟨t, hscan, habsorb⟩ := Source.absorb_view hu hroot rfl
  have hread : (reading fun reg => v.scan reg .ascending).perform s.fresh = (.ok t, s.fresh) := by
    rw [perform_reading]
    exact congrArg (·, s.fresh) hscan
  refine (perform_bind_ok (Table.perform_bag hname s.fresh)).trans ?_
  refine (perform_bind_ok hread).trans ?_
  show (b.absorb t >>= fun _ => pure Answer.done).perform s.fresh =
    (b.extend _ >>= fun _ => pure Answer.done).perform s.fresh
  rw [perform_bind, perform_bind, habsorb]
  rfl

/-- A change is answered as the books say, and can be written down, if there is room. -/
theorem run_posts (hs : s.Sound) (hh : s.registry.Houses (.source b))
    (hindexed : b.access = .indexed)
    (ha : (s.registry.contents b.bag).Accounts b.comparator past) {ch : Change α} (hc : ch.Valid)
    (hread : s.Readable ch)
    (hroom : (s.registry.contents b.bag).total + ch.arriving s ≤ maxCount) :
    (ch.run s.table b).Posts s.fresh b (ch.answer b.comparator past)
      (ch.events s (.ok (ch.answer b.comparator past)) ++ past) := by
  have hreg := hs.fresh
  have hhouses := hh
  have hh := hh.moves s.moves_fresh
  have ha : (s.fresh.contents b.bag).Accounts b.comparator past := ha
  cases ch with
  | insert x =>
    simp only [run, hindexed]
    exact (Source.insert_posts hreg hh ha x (Nat.le_refl 1) hroom).map Answer.maybeCount
  | insertMany x n => exact (Source.insert_posts hreg hh ha x hc.1 hroom).map Answer.maybeCount
  | extend xs => exact (Source.extend_posts hreg hh ha hroom).map fun _ => Answer.done
  | absorb name =>
    obtain ⟨es, hes⟩ := hread
    have hshown : s.shown name = es := by rw [Session.shown, hes]
    simp only [arriving, events, hshown] at hroom ⊢
    obtain ⟨reg', hp, hm, ha'⟩ := (Source.extend_posts hreg hh ha hroom).map fun _ => Answer.done
    exact ⟨reg', (absorb_run_eq hs hhouses hes).trans hp, hm, ha'⟩
  | remove x => exact (Source.remove_posts hreg hh ha x).map Answer.maybeCount
  | removeAll x => exact (Source.removeAll_posts hreg hh ha x).map Answer.maybeCount
  | clear => exact (Source.clear_posts hreg hh past).map fun _ => Answer.done

/-- The occurrences in a bag that cannot be visited are not inserted. -/
theorem absorb_fails (hs : s.Sound) {name : String} (h : ¬ s.Readable (.absorb name)) :
    (∃ e, ((absorb name).run s.table b).Gives s.fresh (.error e) s.fresh.contents) ∧
      s.shown name = [] := by
  cases hwatch : s.watch name with
  | none =>
    have hbag := s.perform_bag_of_watch hwatch s.fresh
    have hshown : s.shown name = [] := by rw [Session.shown, hwatch]
    exact ⟨⟨_, s.fresh, perform_bind_error hbag, .refl, rfl⟩, hshown⟩
  | some shown =>
    cases shown with
    | ok es => exact absurd ⟨es, hwatch⟩ h
    | error e =>
      obtain ⟨v, hname, hreach⟩ := hs.unreachable_of_watch hwatch
      have hscan : v.scan s.fresh .ascending = .error .ownerDropped :=
        View.scan_of_canReach hreach _
      have hshown : s.shown name = [] := by rw [Session.shown, hwatch]
      exact ⟨⟨_, .after (Table.perform_bag hname s.fresh) (breaks_reading hscan).bind⟩, hshown⟩

/-- A change can be written down, whether it succeeds or not. -/
theorem run_enters (hs : s.Sound) (hh : s.registry.Houses (.source b))
    (hindexed : b.access = .indexed)
    (ha : (s.registry.contents b.bag).Accounts b.comparator past) {ch : Change α} (hc : ch.Valid)
    (hroom : (s.registry.contents b.bag).total + ch.arriving s ≤ maxCount) :
    (ch.run s.table b).Enters b past s.fresh fun o => ch.events s o := by
  by_cases hread : s.Readable ch
  · obtain ⟨k, hk, ha'⟩ := (run_posts hs hh hindexed ha hc hread hroom).gives
    exact ⟨_, k, hk, ha'⟩
  · cases ch with
    | absorb name =>
      obtain ⟨⟨e, he⟩, hshown⟩ := absorb_fails (b := b) hs hread
      refine ⟨_, _, he, ?_⟩
      dsimp only [events]
      rw [hshown]
      exact ha
    | _ => exact absurd trivial hread

end Change

/-! ## Commands -/

namespace Command

variable {s : Session α} {b : Source α} {c : Command α}

theorem source?_askBag {t : Table α} {name : String} {q : BagQuery α} :
    (askBag name q).source? t = some b ↔ ∃ v, t.find? name = some (.bag v) ∧ v.root = b := by
  simp only [source?]
  split <;> simp_all

theorem source?_askElements {t : Table α} {name : String} {q : ElementQuery α} :
    (askElements name q).source? t = some b ↔
      ∃ u, t.find? name = some (.elements u) ∧ u.view.root = b := by
  simp only [source?]
  split <;> simp_all

/-- A command is about the source that it edits. -/
theorem source?_of_edits (h : c.Edits s.table b) : c.source? s.table = some b := by
  cases c with
  | change name ch =>
    have hname : s.table.find? name = some (.bag (.source b)) := h
    rw [source?, hname]
  | askBag name q => exact source?_askBag.mpr (bag_of_edits h)
  | askElements name q => exact source?_askElements.mpr (elements_of_edits h)
  | _ => cases h

/-- If it does not edit that source, nothing is written down. -/
theorem events_eq_nil (h : c.source? s.table = some b) (hedit : ¬ c.Edits s.table b)
    (o : Except Failure (Answer α)) : c.events s o = [] := by
  cases c with
  | change name ch =>
    simp only [source?] at h
    split at h
    next s' hname =>
      obtain rfl := Option.some.inj h
      exact absurd hname hedit
    next => cases h
  | askBag name q =>
    have hroot := source?_askBag.mp h
    cases q <;> first | rfl | exact absurd hroot hedit
  | askElements name q =>
    have hroot := source?_askElements.mp h
    cases q <;> first | rfl | exact absurd hroot hedit
  | _ => rfl

end Command

namespace Session

variable {s : Session α} {b : Source α} {past : History α} {c : Command α}

theorem events_of_edits (h : c.Edits s.table b) (o : Except Failure (Answer α)) :
    s.events b c o = c.events s o := by
  rw [events, Command.source?_of_edits h]
  exact if_pos rfl

/-- Nothing is written down for a command that does not edit the source. -/
theorem events_eq_nil (hedit : ∀ s', c.Edits s.table s' → s'.bag ≠ b.bag)
    (o : Except Failure (Answer α)) : s.events b c o = [] := by
  unfold events
  split
  next s' hs' =>
    split
    next hbag => exact Command.events_eq_nil hs' (fun h => hedit s' h hbag) o
    next => rfl
  next => rfl

/-- There is room for what a command inserts into the source. -/
def HasRoom (s : Session α) (b : Source α) : Command α → Prop
  | .change name ch => s.table.find? name = some (.bag (.source b)) →
    (s.registry.contents b.bag).total + ch.arriving s ≤ maxCount
  | _ => True

variable [Ord α] [TransOrd α] [Shown α]

/-- What a command does to the source that it edits is written down. -/
theorem step_enters {a : Action α (Answer α)} (hedit : c.Edits s.table b)
    (ha : a.Enters b past s.fresh fun o => c.events s o)
    (hrun : ∀ o k, a.Gives s.fresh o k →
      (c.run s.table).Gives s.fresh (o.map fun answer => (answer, s.table)) k)
    (watched : List String) :
    ((s.step watched c).2.registry.contents b.bag).Accounts b.comparator
      (s.events b c (s.step watched c).1.outcome ++ past) := by
  obtain ⟨o, k, hgives, hk⟩ := ha
  obtain ⟨hout, -, hcontents⟩ := step_of_answer (hrun o k hgives) watched
  rw [hcontents, hout, events_of_edits hedit]
  exact hk

/-- The contents are what the books tell after a command, if they were before. -/
theorem Sound.step_accounts (hs : s.Sound) (hh : s.registry.Houses (.source b))
    (hindexed : b.access = .indexed)
    (ha : (s.registry.contents b.bag).Accounts b.comparator past) (hc : c.Valid)
    (hroom : s.HasRoom b c) (watched : List String) :
    ((s.step watched c).2.registry.contents b.bag).Accounts b.comparator
      (s.events b c (s.step watched c).1.outcome ++ past) := by
  by_cases hedit : ∃ s', c.Edits s.table s' ∧ s'.bag = b.bag
  · -- no two sources share a bag, so what is edited is `b`
    obtain ⟨s', hs', hbag⟩ := hedit
    have hsame (h : s.registry.Houses (.source s')) : s' = b :=
      hs.registry.stocked.distinct s' b h hh hbag
    cases c with
    | change name ch =>
      have hname : s.table.find? name = some (.bag (.source s')) := hs'
      obtain rfl := hsame (hs.live.find? hname).1
      have henters := Change.run_enters hs hh hindexed ha hc (hroom hname)
      refine step_enters hs' henters (fun o k h => ?_) watched
      exact .after (Table.perform_source hname s.fresh) (h.map _)
    | askBag name q =>
      obtain ⟨v, hname, hroot⟩ := Command.bag_of_edits hs'
      have hv := (hs.live.find? hname).1
      subst hroot
      obtain rfl := hsame (hv.root hs.registry.wellFormed)
      have henters : (q.run v).Enters v.root past s.fresh fun o => q.events o := by
        have hv := hv.moves s.moves_fresh
        cases q with
        | poll d => exact BagQuery.poll_enters hs.fresh hv ha d
        | take x => exact BagQuery.take_enters hs.fresh hv ha x
        | _ => cases hs'
      refine step_enters hs' henters (fun o k h => ?_) watched
      exact .after (Table.perform_bag hname s.fresh) (h.map _)
    | askElements name q =>
      obtain ⟨u, hname, hroot⟩ := Command.elements_of_edits hs'
      have hu := (hs.live.find? hname).1
      subst hroot
      obtain rfl := hsame (hu.root hs.registry.wellFormed)
      have henters : (q.run u).Enters u.view.root past s.fresh fun o => q.events o := by
        have hu := hu.moves s.moves_fresh
        cases q with
        | poll d => exact ElementQuery.poll_enters hs.fresh hu ha d
        | remove x => exact ElementQuery.remove_enters hs.fresh hu ha x
        | _ => cases hs'
      refine step_enters hs' henters (fun o k h => ?_) watched
      exact .after (Table.perform_elements hname s.fresh) (h.map _)
    | _ => cases hs'
  · have hedit (s' : Source α) (hs' : c.Edits s.table s') : s'.bag ≠ b.bag :=
      fun hbag => hedit ⟨s', hs', hbag⟩
    rw [events_eq_nil hedit, contents_step (hs.registry.stocked.stocks b hh).1 hedit]
    exact ha

/-! ## Answers -/

/-- A bag answers what it shows. -/
theorem Sound.outcome_askBag (hs : s.Sound) {name : String} {v : View α}
    (hname : s.table.find? name = some (.bag v)) (hreach : s.registry.canReach v = true)
    (hatt : v.root.access ≠ .detached) (q : BagQuery α) (watched : List String) :
    (s.step watched (.askBag name q)).1.outcome =
      q.answer v.order (v.listing s.registry.contents) (v.vacant s.registry.contents) := by
  have hv : v.Intact s.registry := ⟨(hs.live.find? hname).1, hreach, hatt⟩
  have hask := q.run_gives hs.fresh (hv.moves s.moves_fresh)
  exact (step_of_answer (.after (Table.perform_bag hname s.fresh) (hask.map _)) watched).1

/-- So does a set. -/
theorem Sound.outcome_askElements (hs : s.Sound) {name : String} {u : ElementSet α}
    (hname : s.table.find? name = some (.elements u)) (hreach : s.registry.canReach u.view = true)
    (hatt : u.view.root.access ≠ .detached) (hfollow : s.registry.follow u.link u.view = .ok ())
    (q : ElementQuery α) (watched : List String) :
    (s.step watched (.askElements name q)).1.outcome =
      q.answer u.view.order (u.view.listing s.registry.contents)
        (u.view.vacant s.registry.contents) := by
  have hv : u.view.Intact s.registry := ⟨(hs.live.find? hname).1, hreach, hatt⟩
  have hask := q.run_gives hs.fresh ⟨hv.moves s.moves_fresh, hfollow⟩
  exact (step_of_answer (.after (Table.perform_elements hname s.fresh) (hask.map _)) watched).1

/-- A change answers what the books tell. -/
theorem Sound.outcome_change (hs : s.Sound) (hh : s.registry.Houses (.source b))
    (hindexed : b.access = .indexed)
    (ha : (s.registry.contents b.bag).Accounts b.comparator past) {name : String}
    (hname : s.table.find? name = some (.bag (.source b))) {ch : Change α} (hc : ch.Valid)
    (hread : s.Readable ch)
    (hroom : (s.registry.contents b.bag).total + ch.arriving s ≤ maxCount)
    (watched : List String) :
    (s.step watched (.change name ch)).1.outcome = .ok (ch.answer b.comparator past) := by
  obtain ⟨k, hk, -⟩ := (Change.run_posts hs hh hindexed ha hc hread hroom).gives
  exact (step_of_answer (.after (Table.perform_source hname s.fresh) (hk.map _)) watched).1

/-! ## Runs -/

/-- The books of a source, from the moment when they are opened. Whatever the source holds then is
written down as if it came just now, and there was room for it. -/
inductive Recorded (b : Source α) : Session α → History α → Prop
  | opened {s : Session α} (hs : s.Reachable) {name : String}
      (hname : s.table.find? name = some (.bag (.source b)))
      (hle : totalCount (s.registry.contents b.bag).entries ≤ maxCount) :
      Recorded b s (.opening (s.registry.contents b.bag).entries)
  | step {s : Session α} {past : History α} (h : Recorded b s past) {c : Command α} (hc : c.Valid)
      (hroom : s.HasRoom b c) (watched : List String) :
      Recorded b (s.step watched c).2 (s.events b c (s.step watched c).1.outcome ++ past)

theorem Recorded.reachable (h : s.Recorded b past) : s.Reachable := by
  induction h with
  | opened hs _ _ => exact hs
  | step _ hc _ watched ih => exact ih.next hc watched

theorem Recorded.houses (h : s.Recorded b past) : s.registry.Houses (.source b) := by
  induction h with
  | opened hs hname _ => exact (hs.sound.live.find? hname).1
  | step h hc _ watched ih => exact ih.grow (h.reachable.sound.grows hc watched)

/-- The contents are what the books tell, throughout a run. -/
theorem Recorded.accounts (h : s.Recorded b past) (hindexed : b.access = .indexed) :
    (s.registry.contents b.bag).Accounts b.comparator past := by
  induction h with
  | opened hs hname hle =>
    have hh := (hs.sound.live.find? hname).1
    exact .opening (hs.sound.registry.stocked.stocks b hh).2 hle
  | step h hc hroom watched ih =>
    exact h.reachable.sound.step_accounts h.houses hindexed ih hc hroom watched

/-- What the books of a source tell: its contents, and what is answered about them. -/
structure Balanced (s : Session α) (b : Source α) (past : History α) : Prop where
  /-- The elements are strictly increasing, and no count is zero. -/
  valid : (s.registry.contents b.bag).Valid b.comparator
  /-- The total is the sum of the counts. -/
  total : (s.registry.contents b.bag).total = totalCount (s.registry.contents b.bag).entries
  /-- No count is more than the total, of which it is taken when the entry goes. -/
  counts : ∀ e ∈ (s.registry.contents b.bag).entries,
    1 ≤ e.count ∧ e.count ≤ (s.registry.contents b.bag).total
  /-- There is what came less what went. -/
  balance : ∀ x, (s.registry.contents b.bag).multiplicity b.comparator x +
    past.removed b.comparator x = past.inserted b.comparator x
  /-- An entry keeps the element that came when there was none. -/
  entry : ∀ x, (s.registry.contents b.bag).find? b.comparator x = past.entry? b.comparator x
  /-- There is no entry if as much went as came. -/
  absent : ∀ x, past.entry? b.comparator x = none ↔ past.balance b.comparator x = 0
  /-- A change tells how many occurrences there were. -/
  changes : ∀ name, s.table.find? name = some (.bag (.source b)) → ∀ ch : Change α, ch.Valid →
    s.Readable ch → (s.registry.contents b.bag).total + ch.arriving s ≤ maxCount →
    ∀ watched : List String,
      (s.step watched (.change name ch)).1.outcome = .ok (ch.answer b.comparator past)
  /-- The total is told, and whether there is any entry. -/
  sizes : ∀ name, s.table.find? name = some (.bag (.source b)) → ∀ watched : List String,
    (s.step watched (.askBag name .size)).1.outcome =
      .ok (.number (totalCount (s.registry.contents b.bag).entries)) ∧
    (s.step watched (.askBag name .isEmpty)).1.outcome =
      .ok (.flag (s.registry.contents b.bag).entries.isEmpty) ∧
    ∀ x, (s.step watched (.askBag name (.count x))).1.outcome =
      .ok (.number (past.balance b.comparator x))
  /-- A view shows the entries that it lets through. -/
  shown : ∀ v : View α, v.root = b → ∀ e, e ∈ v.listing s.registry.contents ↔
    v.admits e.element = true ∧ past.entry? b.comparator e.element = some e
  /-- The entry of an element is taken through a view that lets it through. -/
  takes : ∀ name v, s.table.find? name = some (.bag v) → v.root = b →
    s.registry.canReach v = true → ∀ (watched : List String) (x : α),
      (s.step watched (.askBag name (.take x))).1.outcome =
        .ok (.maybeEntry (if v.admits x then past.entry? b.comparator x else none))
  /-- The first entry that a view shows is polled, unless it shows none. -/
  polls : ∀ name v, s.table.find? name = some (.bag v) → v.root = b →
    s.registry.canReach v = true → ∀ (watched : List String) (d : Direction),
      (s.step watched (.askBag name (.poll d))).1.outcome =
        .ok (.maybeEntry (d.extreme? (v.listing s.registry.contents))) ∧
      (d.extreme? (v.listing s.registry.contents) = none ↔
        ∀ x, v.admits x = true → past.balance b.comparator x = 0)
  /-- So is the entry of an element of a set. -/
  removes : ∀ name u, s.table.find? name = some (.elements u) → u.view.root = b →
    s.registry.canReach u.view = true → s.registry.follow u.link u.view = .ok () →
      ∀ watched : List String,
        (∀ x, (s.step watched (.askElements name (.remove x))).1.outcome =
          .ok (.flag (u.view.admits x && (past.entry? b.comparator x).isSome))) ∧
        ∀ d : Direction, (s.step watched (.askElements name (.poll d))).1.outcome =
          .ok (.maybeElement ((d.extreme? (u.view.listing s.registry.contents)).map Entry.element))

/-- In every run, as long as there is room for what is inserted, the contents of an indexed source
are what its books tell, and so is every answer. -/
theorem recorded_spec (h : s.Recorded b past) (hindexed : b.access = .indexed) :
    s.Balanced b past := by
  have hs := h.reachable.sound
  have ha := h.accounts hindexed
  have hatt : b.access ≠ .detached := by simp [hindexed]
  constructor
  case valid => exact ha.valid
  case total => exact ha.total_eq
  case counts => exact fun e he => ⟨(ha.valid.counts e he).1, ha.count_le_total e he⟩
  case balance => exact ha.balance
  case entry => exact ha.find?_eq
  case absent => exact ha.entry?_eq_none_iff
  case changes =>
    intro name hname ch hc hread hroom watched
    exact hs.outcome_change h.houses hindexed ha hname hc hread hroom watched
  case sizes =>
    intro name hname watched
    have hask (q : BagQuery α) := hs.outcome_askBag hname rfl hatt q watched
    refine ⟨?_, ?_, fun x => ?_⟩
    · rw [hask, BagQuery.answer, View.listing, wrap_of_le ha.inRange]
    · -- the total is in range, so nobody who looks at it is misled
      have hcounts := View.not_miscounts_of_le (v := .source b) ha.valid ha.inRange
      rw [hask, BagQuery.answer, (View.vacant_eq_iff (v := .source b) ha.valid).mpr hcounts]
      rfl
    · rw [hask, ← ha.multiplicity_eq]
      rfl
  case shown =>
    rintro v rfl e
    exact View.mem_listing_iff_entry? ha
  case takes =>
    rintro name v hname rfl hreach watched x
    rw [hs.outcome_askBag hname hreach hatt, BagQuery.answer, View.find?_listing ha.valid.sorted,
      ha.find?_eq]
  case polls =>
    rintro name v hname rfl hreach watched d
    exact ⟨hs.outcome_askBag hname hreach hatt _ watched, View.extreme?_eq_none_iff ha d⟩
  case removes =>
    rintro name u hname rfl hreach hfollow watched
    have hask (q : ElementQuery α) := hs.outcome_askElements hname hreach hatt hfollow q watched
    refine ⟨fun x => ?_, fun d => hask (.poll d)⟩
    rw [hask, ElementQuery.answer, View.find?_listing ha.valid.sorted, ha.find?_eq]
    cases u.view.admits x <;> rfl

/-- Three numbers, of which the three came twice more. -/
def threeMore : Session Int :=
  (threeReversed.step [] (.change "s" (.insertMany 3 2))).2

theorem recorded_spec_threeMore :
    (threeMore.step [] (.change "s" (.remove 3))).1.outcome = .ok (.maybeCount (some 3)) ∧
    (threeMore.step [] (.askBag "s" .size)).1.outcome = .ok (.number 5) ∧
    (threeMore.step [] (.askBag "d" (.take 4))).1.outcome = .ok (.maybeEntry none) ∧
    (threeMore.step [] (.askBag "d" (.poll .ascending))).1.outcome =
      .ok (.maybeEntry (some ⟨5, 1⟩)) := by
  let b : Source Int := ⟨0, 0, ⟨0, .natural, false⟩, .indexed⟩
  let c : Command Int := .change "s" (.insertMany 3 2)
  have hs : threeReversed.table.find? "s" = some (.bag (.source b)) := rfl
  have hc : c.Valid := ⟨by decide, by decide⟩
  have hroom : threeReversed.HasRoom b c := fun _ => by decide
  have h := recorded_spec (.step (.opened threeReversed_reachable hs (by decide)) hc hroom []) rfl
  refine ⟨?_, ?_, ?_, ?_⟩
  · exact h.changes "s" rfl (.remove 3) trivial trivial (by decide) []
  · exact (h.sizes "s" rfl []).1
  · exact h.takes "d" _ rfl rfl rfl [] 4
  · exact (h.polls "d" _ rfl rfl rfl [] .ascending).1

end Session

end OrderedBag
