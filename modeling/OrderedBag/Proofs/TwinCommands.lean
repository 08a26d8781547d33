import OrderedBag.Proofs.Emptiness
import OrderedBag.Proofs.TwinQueries

/-!
# Commands on twins

Two tables are paired if every name stands for handles that differ only in how sources answer, and
the names of a client stand for nothing that shows more than the scope. A command of that client
does the same on both sides, and all that it gives a name is again no more than the scope shows.

* `Handle.core`, `Table.core` — handles without the way in which sources answer
* `Table.Paired` — two tables with handles of the same shape
* `Command.names` — the names that a command mentions
* `Making.run_matches`, `Change.run_matches`, `Command.ask_matches` — making, changing, asking
-/

namespace OrderedBag

open OrderedBag.Action

variable {α β γ δ : Type} {S : Scope α} {reg reg' : Registry α}

/-! ## Handles -/

namespace Handle

/-- The handle, without the way in which sources answer. Open iterators are not told apart. -/
def core : Handle α → Handle α
  | bag v => bag v.core
  | elements u => elements u.core
  | entries u => entries u.core
  | walk _ => walk (.entries (.direct (.copied [])))
  | comparator c => comparator c
  | weak v => weak v.core

/-- The handle shows nothing outside of the scope, and is no open iterator. -/
def Shared (S : Scope α) : Handle α → Prop
  | bag v => v.Shared S
  | elements u => u.view.Shared S
  | entries u => u.view.Shared S
  | walk _ => False
  | comparator _ | weak _ => True

@[simp] theorem held_core (h : Handle α) : h.core.held = h.held := by
  cases h with
  | bag v => exact v.node?_core
  | elements u => exact u.view.node?_core
  | entries u => exact u.view.node?_core
  | walk w => rfl
  | comparator c => rfl
  | weak v => rfl

end Handle

/-! ## Tables -/

namespace Table

variable {t t' : Table α} {name : String}

/-- The table, without the way in which sources answer. -/
def core (t : Table α) : Table α :=
  t.map fun entry => (entry.1, entry.2.core)

theorem find?_core (t : Table α) (name : String) :
    t.core.find? name = (t.find? name).map Handle.core := by
  unfold core find?
  induction t with
  | nil => rfl
  | cons entry t ih =>
    rw [List.map_cons, List.lookup_cons, List.lookup_cons, ih]
    cases name == entry.1 <;> rfl

theorem core_erase (t : Table α) (name : String) : (t.erase name).core = t.core.erase name := by
  unfold core erase
  rw [List.filter_map]
  rfl

theorem core_bind (t : Table α) (name : String) (h : Handle α) :
    (t.bind name h).core = t.core.bind name h.core :=
  congrArg ((name, h.core) :: ·) (t.core_erase name)

theorem held_core (t : Table α) : t.core.held = t.held := by
  unfold core held
  simp only [List.filterMap_map, Function.comp_def, Handle.held_core]

/-- What a name stands for on one side, it stands for on the other. -/
theorem find?_of_core (h : t'.core = t.core) (name : String) :
    (t'.find? name).map Handle.core = (t.find? name).map Handle.core := by
  rw [← find?_core, h, find?_core]

/-- Handles of one kind are found on both sides, or on none. -/
theorem expect_matches (hr : reg.Twins S reg') (h : t'.core = t.core) {pick : Handle α → Option β}
    (hpick : ∀ h h', h'.core = h.core → (pick h').isSome = (pick h).isSome) :
    (t.expect pick name).Matches S (fun b b' => ∃ h h', t.find? name = some h ∧
      t'.find? name = some h' ∧ h'.core = h.core ∧ pick h = some b ∧ pick h' = some b')
      (t'.expect pick name) reg reg' := by
  have hfind := find?_of_core h name
  refine ⟨?_, ?_⟩
  · rw [perform_expect, perform_expect]
    exact hr
  · rw [perform_expect, perform_expect]
    cases hfound : t.find? name with
    | none =>
      rw [hfound, Option.map_none, Option.map_eq_none_iff] at hfind
      rw [hfind]
      exact .error _
    | some h =>
      rw [hfound, Option.map_some, Option.map_eq_some_iff] at hfind
      obtain ⟨h', hfound', hcore⟩ := hfind
      have hsome := hpick h h' hcore
      rw [hfound', Option.bind_some, Option.bind_some]
      cases hp : pick h with
      | none =>
        have hnone : pick h' = none := by simpa [hp] using hsome
        rw [hnone]
        exact .error _
      | some b =>
        rw [hp] at hsome
        obtain ⟨b', hp'⟩ := Option.isSome_iff_exists.mp hsome
        rw [hp']
        exact .ok ⟨h, h', rfl, rfl, hcore, hp, hp'⟩

/-- What follows a look-up. -/
theorem expect_bind_matches (hr : reg.Twins S reg') (h : t'.core = t.core)
    {pick : Handle α → Option β}
    (hpick : ∀ h h', h'.core = h.core → (pick h').isSome = (pick h).isSome) {P : γ → δ → Prop}
    {f : β → Action α γ} {f' : β → Action α δ}
    (hf : ∀ h h' b b', t.find? name = some h → t'.find? name = some h' → h'.core = h.core →
      pick h = some b → pick h' = some b' → (f b).Matches S P (f' b') reg reg') :
    (t.expect pick name >>= f).Matches S P (t'.expect pick name >>= f') reg reg' := by
  refine (expect_matches hr h hpick).bind_run fun b b' reg₁ reg₁' hp hp' hfound _ => ?_
  obtain ⟨h, h', hfind, hfind', hcore, hb, hb'⟩ := hfound
  rw [perform_expect] at hp hp'
  obtain ⟨-, rfl⟩ := Prod.mk.inj hp
  obtain ⟨-, rfl⟩ := Prod.mk.inj hp'
  exact hf h h' b b' hfind hfind' hcore hb hb'

/-- Two tables with handles of the same shape, each in a registry of its own. The names of `N` show
nothing outside of the scope. -/
structure Paired (S : Scope α) (N : String → Prop) (reg reg' : Registry α) (t t' : Table α) :
    Prop where
  core : t'.core = t.core
  live : t.Live reg
  live' : t'.Live reg'
  shared : ∀ name, N name → ∀ h, t.find? name = some h → h.Shared S

namespace Paired

variable {N : String → Prop} {P : γ → δ → Prop}

theorem bag_matches (ht : Paired S N reg reg' t t') (hr : reg.Twins S reg') (hname : N name)
    {f : View α → Action α γ} {f' : View α → Action α δ}
    (hf : ∀ v w, t.find? name = some (.bag v) → t'.find? name = some (.bag w) →
      View.Paired S reg reg' v w → (f v).Matches S P (f' w) reg reg') :
    (t.bag name >>= f).Matches S P (t'.bag name >>= f') reg reg' := by
  refine expect_bind_matches hr ht.core ?_ fun h h' v w hfind hfind' hcore hp hp' => ?_
  · rintro h h' hcore
    cases h <;> cases h' <;> first | rfl | cases hcore
  · cases h <;> cases hp
    cases h' <;> cases hp'
    exact hf v w hfind hfind' ⟨Handle.bag.inj hcore, ht.shared name hname _ hfind,
      ht.live.find? hfind, ht.live'.find? hfind'⟩

theorem source_matches (ht : Paired S N reg reg' t t') (hr : reg.Twins S reg') (hname : N name)
    {f : Source α → Action α γ} {f' : Source α → Action α δ}
    (hf : ∀ s s', View.Paired S reg reg' (.source s) (.source s') →
      (f s).Matches S P (f' s') reg reg') :
    (t.source name >>= f).Matches S P (t'.source name >>= f') reg reg' := by
  refine expect_bind_matches hr ht.core ?_ fun h h' s s' hfind hfind' hcore hp hp' => ?_
  · rintro h h' hcore
    cases h <;> cases h' <;> first | rfl | cases hcore | skip
    rename_i v w
    have hview := Handle.bag.inj hcore
    cases v <;> cases w <;> first | rfl | cases hview
  · rcases h with v | _ | _ | _ | _ | _ <;> try cases hp
    rcases h' with w | _ | _ | _ | _ | _ <;> try cases hp'
    cases v <;> cases hp
    cases w <;> cases hp'
    exact hf s s' ⟨Handle.bag.inj hcore, ht.shared name hname _ hfind, ht.live.find? hfind,
      ht.live'.find? hfind'⟩

theorem elements_matches (ht : Paired S N reg reg' t t') (hr : reg.Twins S reg') (hname : N name)
    {f : ElementSet α → Action α γ} {f' : ElementSet α → Action α δ}
    (hf : ∀ u u', t.find? name = some (.elements u) → t'.find? name = some (.elements u') →
      u'.core = u.core → View.Paired S reg reg' u.view u'.view →
      (f u).Matches S P (f' u') reg reg') :
    (t.elements name >>= f).Matches S P (t'.elements name >>= f') reg reg' := by
  refine expect_bind_matches hr ht.core ?_ fun h h' u u' hfind hfind' hcore hp hp' => ?_
  · rintro h h' hcore
    cases h <;> cases h' <;> first | rfl | cases hcore
  · cases h <;> cases hp
    cases h' <;> cases hp'
    have hset : u'.core = u.core := Handle.elements.inj hcore
    exact hf u u' hfind hfind' hset ⟨congrArg ElementSet.view hset,
      ht.shared name hname _ hfind, ht.live.find? hfind, ht.live'.find? hfind'⟩

theorem entries_matches (ht : Paired S N reg reg' t t') (hr : reg.Twins S reg') (hname : N name)
    {f : EntrySet α → Action α γ} {f' : EntrySet α → Action α δ}
    (hf : ∀ u u', t.find? name = some (.entries u) → t'.find? name = some (.entries u') →
      u'.core = u.core → View.Paired S reg reg' u.view u'.view →
      (f u).Matches S P (f' u') reg reg') :
    (t.entries name >>= f).Matches S P (t'.entries name >>= f') reg reg' := by
  refine expect_bind_matches hr ht.core ?_ fun h h' u u' hfind hfind' hcore hp hp' => ?_
  · rintro h h' hcore
    cases h <;> cases h' <;> first | rfl | cases hcore
  · cases h <;> cases hp
    cases h' <;> cases hp'
    have hset : u'.core = u.core := Handle.entries.inj hcore
    exact hf u u' hfind hfind' hset ⟨congrArg EntrySet.view hset, ht.shared name hname _ hfind,
      ht.live.find? hfind, ht.live'.find? hfind'⟩

theorem weak_matches (ht : Paired S N reg reg' t t') (hr : reg.Twins S reg')
    {f : View α → Action α γ} {f' : View α → Action α δ}
    (hf : ∀ v w, w.core = v.core → (f v).Matches S P (f' w) reg reg') :
    (t.weak name >>= f).Matches S P (t'.weak name >>= f') reg reg' := by
  refine expect_bind_matches hr ht.core ?_ fun h h' v w _ _ hcore hp hp' => ?_
  · rintro h h' hcore
    cases h <;> cases h' <;> first | rfl | cases hcore
  · cases h <;> cases hp
    cases h' <;> cases hp'
    exact hf v w (Handle.weak.inj hcore)

theorem comparator_matches (ht : Paired S N reg reg' t t') (hr : reg.Twins S reg') :
    (t.comparator name).Matches S Eq (t'.comparator name) reg reg' := by
  refine (expect_matches hr ht.core ?_).mono ?_
  · rintro h h' hcore
    cases h <;> cases h' <;> first | rfl | cases hcore
  · rintro c c' ⟨h, h', -, -, hcore, hp, hp'⟩
    cases h <;> cases hp
    cases h' <;> cases hp'
    exact (Handle.comparator.inj hcore).symm

end Paired

end Table

/-! ## Names -/

/-- The names that the choice of a comparator mentions. -/
def Sorting.names : Sorting α → List String
  | evaluated _ => []
  | named name => [name]

/-- The names from which something is made. -/
def Making.names : Making α → List String
  | source _ sorting => sorting.names
  | ofElements _ | ofEntries _ | comparator _ => []
  | copyEntries name | copyElements name | weak name | walk name _ | walkElements name _
  | walkEntries name | view name _ | comparatorOf name | elementSet name | entrySet name
  | elements name _ | bagOfElements name | comparatorOfElements name | bagOfEntries name
  | reversedComparator name => [name]

/-- The names that a change of a source mentions. -/
def Change.names : Change α → List String
  | absorb name => [name]
  | insert _ | insertMany _ _ | extend _ | remove _ | removeAll _ | clear => []

/-- The names that a question to a comparator mentions. -/
def ComparatorQuery.names : ComparatorQuery α → List String
  | equals name => [name]
  | compare _ _ | debug => []

/-- The names that a command mentions, the one which it gives among them. -/
def Command.names : Command α → List String
  | bind name m => name :: m.names
  | change name c => name :: c.names
  | askComparator name q => name :: q.names
  | same first second => [first, second]
  | drop name | isAlive name | next name _ | askBag name _ | askElements name _
  | askEntries name _ => [name]

/-- What is made is an iterator. -/
def Making.OpensIterator : Making α → Prop
  | walk _ _ | walkElements _ _ | walkEntries _ => True
  | _ => False

/-- An iterator is opened or asked. -/
def Command.UsesIterator : Command α → Prop
  | bind _ m => m.OpensIterator
  | next _ _ => True
  | _ => False

/-! ## Making -/

/-- What leaves every bag as it was may be done one after the other. -/
theorem Registry.contents_unlogged :
    Registry.Unlogged fun reg reg' : Registry α => reg'.contents = reg.contents where
  refl _ := rfl
  trans h h' := h'.trans h
  log _ _ := rfl

/-- Handles of the same shape that show nothing outside of the scope. -/
structure Handle.Alike (S : Scope α) (h h' : Handle α) : Prop where
  core : h'.core = h.core
  shared : h.Shared S

theorem Handle.ofView_matches (hr : reg.Twins S reg') {v w : View α} (h : w.core = v.core)
    (hv : v.Shared S) : (ofView v).Matches S (Alike S) (ofView w) reg reg' := by
  refine (View.enroll_matches hr h).bind_run fun v' w' _ _ hp _ hcore hr => ?_
  obtain ⟨hv', -⟩ := Prod.mk.inj hp
  obtain rfl : (reg.enroll v).1 = v' := Except.ok.inj hv'
  exact matches_pure hr ⟨congrArg bag hcore, hv.enroll reg⟩

theorem Handle.ofElements_matches (hr : reg.Twins S reg') {u u' : ElementSet α}
    (h : u'.core = u.core) (hv : u.view.Shared S) :
    (ofElements u).Matches S (Alike S) (ofElements u') reg reg' := by
  have hview : u'.view.core = u.view.core := congrArg ElementSet.view h
  refine (View.enroll_matches hr hview).bind_run fun v' w' _ _ hp _ hcore hr => ?_
  obtain ⟨hv', -⟩ := Prod.mk.inj hp
  obtain rfl : (reg.enroll u.view).1 = v' := Except.ok.inj hv'
  refine matches_pure hr ⟨?_, hv.enroll reg⟩
  show elements ⟨u'.link, w'.core⟩ = elements ⟨u.link, (reg.enroll u.view).1.core⟩
  rw [hcore, ElementSet.link_of_core h]

section

variable [Ord α] [Std.TransOrd α]

/-- Sources that have just been made and are then filled, when nothing of a new bag lies outside of
the scope. -/
theorem filled_matches (hr : reg.Twins S reg') (hnew : ∀ x, S reg.bags.size x = true)
    {fill fill' : Source α → Action α Unit}
    (hfill : ∀ s reg₁ reg₁', s.bag = reg.bags.size → reg₁.contents = reg.contents →
      reg₁'.contents = reg'.contents → reg₁.Twins S reg₁' →
      (fill s).Matches S Eq (fill' s) reg₁ reg₁') :
    (do
      let s ← Source.makeNatural
      fill s
      return .bag (.source s) : Action α (Handle α)).Matches S (Handle.Alike S)
      (do
        let s ← Source.makeNatural
        fill' s
        return .bag (.source s)) reg reg' := by
  refine (Source.makeNatural_matches hr).bind_run fun s s' reg₁ reg₁' hp hp' hsame hr => ?_
  obtain ⟨rfl, hbag, haccess⟩ := hsame
  have hk := Source.contents_makeNatural reg
  have hk' := Source.contents_makeNatural reg'
  rw [hp] at hk
  rw [hp'] at hk'
  refine (hfill s' reg₁ reg₁' hbag hk hk' hr).bind fun _ _ _ _ _ hr => ?_
  refine matches_pure hr ⟨rfl, ?_, fun x _ => ?_⟩
  · show s'.access ≠ .detached
    rw [haccess]
    exact nofun
  · show S s'.bag x = true
    rw [hbag]
    exact hnew x

/-- A new source that takes in the occurrences in a view. -/
theorem copied_matches (hr : reg.Twins S reg') (hs : reg.Sound) (hs' : reg'.Sound) {v w : View α}
    (h : View.Paired S reg reg' v w) (hnew : ∀ x, S reg.bags.size x = true) :
    (do
      let walk ← Action.reading fun reg => v.scan reg .ascending
      let s ← Source.makeNatural
      s.absorb walk
      return .bag (.source s) : Action α (Handle α)).Matches S (Handle.Alike S)
      (do
        let walk ← Action.reading fun reg => w.scan reg .ascending
        let s ← Source.makeNatural
        s.absorb walk
        return .bag (.source s)) reg reg' := by
  refine .reading hr (View.scan_ahead hr hs hs' h .ascending) fun walk walk' hscan => ?_
  obtain ⟨⟨hwalk, hwalk'⟩, hahead⟩ := hscan
  refine filled_matches hr hnew fun s _ _ hbag hk hk' hr₁ => ?_
  -- what is visited lies in a bag that was there before
  have hother {reg : Registry α} {v : View α} (hs : reg.Sound) (hv : reg.Houses v)
      (hbag : s.bag = reg.bags.size) : v.root.bag = s.bag → v.root = s := by
    intro heq
    have hlt := (hs.stocks_root hv).1
    rw [heq, hbag] at hlt
    exact absurd hlt (Nat.lt_irrefl _)
  have hbag' : s.bag = reg'.bags.size := by rw [hbag, hr.bags]
  have hwhole (x : α) : S s.bag x = true := by
    rw [hbag]
    exact hnew x
  refine Source.absorb_matches hr₁ rfl hwhole (View.scan_agrees (hother hs h.live.1 hbag) hwalk)
    (View.scan_agrees (hother hs' h.live'.1 hbag') hwalk') ?_ ?_ ?_
  · rw [hk]
    exact hahead.fits
  · rw [hk']
    exact hahead.fits'
  · rw [hk, hk']
    exact hahead.remaining

omit [Ord α] [Std.TransOrd α] in
theorem Sorting.run_matches {N : String → Prop} {t t' : Table α}
    (ht : Table.Paired S N reg reg' t t') (hr : reg.Twins S reg') (sorting : Sorting α) :
    (sorting.run t).Matches S Eq (sorting.run t') reg reg' := by
  cases sorting with
  | evaluated o => exact matches_evaluate hr o
  | named name => exact ht.comparator_matches hr

omit [Ord α] [Std.TransOrd α] in
/-- Choosing a comparator makes no bag. -/
theorem Sorting.bags_run (t : Table α) (sorting : Sorting α) (reg : Registry α) :
    ((sorting.run t).perform reg).2.bags = reg.bags := by
  cases sorting with
  | evaluated o => rfl
  | named name => rw [run, Table.comparator, Table.perform_expect]

namespace Making

variable {N : String → Prop} {t t' : Table α}

/-- New sources, which answer alike. -/
theorem source_matches (ht : Table.Paired S N reg reg' t t') (hr : reg.Twins S reg')
    (hnew : ∀ x, S reg.bags.size x = true) (sorting : Sorting α) {a a' : Access}
    (ha : S.alike a a') (hattached : a ≠ .detached) :
    ((source a sorting).run t).Matches S (Handle.Alike S) ((source a' sorting).run t')
      reg reg' := by
  refine (sorting.run_matches ht hr).bind_run fun c c' reg₁ reg₁' hp _ hc hr => ?_
  subst hc
  have hbags := sorting.bags_run t reg
  rw [hp] at hbags
  refine (matches_addSource hr c ha).map fun s s' hsource => ?_
  obtain ⟨hcore, hbag, haccess⟩ := hsource
  refine ⟨congrArg (Handle.bag ∘ View.source) hcore, ?_, fun x _ => ?_⟩
  · show s.access ≠ .detached
    rw [haccess]
    exact hattached
  · show S s.bag x = true
    rw [hbag, hbags]
    exact hnew x

variable (ht : Table.Paired S N reg reg' t t') (hr : reg.Twins S reg') (hs : reg.Sound)
  (hs' : reg'.Sound)
include ht hr hs hs'

/-- Whatever a client makes that is no iterator is alike on both sides. -/
theorem run_matches {m : Making α} (hnames : ∀ name ∈ m.names, N name)
    (hnew : ∀ x, S reg.bags.size x = true) (hclosed : ¬ m.OpensIterator)
    (hattached : ∀ sorting, m ≠ .source .detached sorting) :
    (m.run t).Matches S (Handle.Alike S) (m.run t') reg reg' := by
  have hwhole {s : Source α} (hbag : s.bag = reg.bags.size) (x : α) : S s.bag x = true := by
    rw [hbag]
    exact hnew x
  cases m with
  | source a sorting =>
    refine source_matches ht hr hnew sorting (S.alike_refl a) ?_
    rintro rfl
    exact hattached sorting rfl
  | ofElements xs =>
    exact filled_matches hr hnew fun s _ _ hbag _ _ hr =>
      s.extend_matches hr rfl (hwhole hbag) xs
  | ofEntries es =>
    exact filled_matches hr hnew fun s _ _ hbag _ _ hr =>
      s.insertEntries_matches hr rfl (hwhole hbag) es
  | copyEntries name =>
    refine ht.bag_matches hr (hnames name (by simp [names])) fun v w _ _ h => ?_
    refine .reading hr (View.entries_outcome hr hs hs' h) fun es es' hes => ?_
    subst hes
    exact filled_matches hr hnew fun s _ _ hbag _ _ hr =>
      s.insertEntries_matches hr rfl (hwhole hbag) es
  | copyElements name =>
    refine ht.bag_matches hr (hnames name (by simp [names])) fun v w _ _ h => ?_
    exact copied_matches hr hs hs' h hnew
  | comparator o =>
    refine (matches_evaluate hr o).map ?_
    rintro c _ rfl
    exact ⟨rfl, trivial⟩
  | weak name =>
    exact ht.bag_matches hr (hnames name (by simp [names])) fun v w _ _ h =>
      matches_pure hr ⟨congrArg Handle.weak h.core, trivial⟩
  | walk name visit => exact absurd trivial hclosed
  | walkElements name d => exact absurd trivial hclosed
  | walkEntries name => exact absurd trivial hclosed
  | view name st =>
    refine ht.bag_matches hr (hnames name (by simp [names])) fun v w _ _ h => ?_
    exact (st.run_matches hr hs h).bind fun _ _ _ _ hvw hr =>
      Handle.ofView_matches hr hvw.1 hvw.2
  | comparatorOf name =>
    refine ht.bag_matches hr (hnames name (by simp [names])) fun v w _ _ h => ?_
    refine (View.comparator_matches hr h.core).map ?_
    rintro c _ rfl
    exact ⟨rfl, trivial⟩
  | elementSet name =>
    refine ht.bag_matches hr (hnames name (by simp [names])) fun v w _ _ h => ?_
    exact (View.elementSet_matches hr h).map fun _ _ hu => ⟨congrArg Handle.elements hu.1, hu.2⟩
  | entrySet name =>
    refine ht.bag_matches hr (hnames name (by simp [names])) fun v w _ _ h => ?_
    exact (View.entrySet_matches hr h).map fun _ _ hu => ⟨congrArg Handle.entries hu.1, hu.2⟩
  | elements name st =>
    refine ht.elements_matches hr (hnames name (by simp [names])) fun u u' _ _ hcore h => ?_
    exact (st.run_matches hr hcore h.shared).bind fun _ _ _ _ hu hr =>
      Handle.ofElements_matches hr hu.1 hu.2
  | bagOfElements name =>
    refine ht.elements_matches hr (hnames name (by simp [names])) fun u u' _ _ hcore h => ?_
    exact ElementSet.bag_matches hr hcore (Handle.ofView_matches hr h.core h.shared)
  | comparatorOfElements name =>
    refine ht.elements_matches hr (hnames name (by simp [names])) fun u u' _ _ hcore h => ?_
    refine (ElementSet.comparator_matches hr hcore).map ?_
    rintro c _ rfl
    exact ⟨rfl, trivial⟩
  | bagOfEntries name =>
    refine ht.entries_matches hr (hnames name (by simp [names])) fun u u' _ _ hcore h => ?_
    exact EntrySet.bag_matches hr hcore (Handle.ofView_matches hr h.core h.shared)
  | reversedComparator name =>
    refine (ht.comparator_matches hr).map ?_
    rintro c _ rfl
    exact ⟨rfl, trivial⟩

omit [Ord α] [Std.TransOrd α] ht hr hs hs' in
/-- Opening an iterator changes no bag. -/
theorem opens_respects [Ord α] [Std.TransOrd α] {m : Making α} (hopens : m.OpensIterator)
    (t : Table α) :
    (m.run t).Respects fun reg reg' : Registry α => reg'.contents = reg.contents := by
  have hR := Registry.contents_unlogged (α := α)
  cases m with
  | walk name visit =>
    refine Table.bag_respects hR.toChained fun v _ => ?_
    refine (visit.run_respects hR fun _ _ _ => ?_).map hR.toChained _
    exact v.comparator_respects hR.toChained fun reg v _ => reg.contents_updateNode v _
  | walkElements name d =>
    exact Table.elements_respects hR.toChained fun u _ =>
      (u.scanTowards_respects hR d).map hR.toChained _
  | walkEntries name =>
    exact Table.expect_respects hR.toChained fun _ u _ _ =>
      (u.scan_respects hR.toChained).map hR.toChained _
  | _ => exact hopens.elim

/-- Iterators that are opened yield the same. -/
theorem opens_matches {m : Making α} (hnames : ∀ name ∈ m.names, N name)
    (hopens : m.OpensIterator) :
    (m.run t).Matches S (fun h h' => ∃ w w', h = .walk w ∧ h' = .walk w' ∧
      w.SameItems reg.contents reg'.contents w') (m.run t') reg reg' := by
  cases m with
  | walk name visit =>
    refine ht.bag_matches hr (hnames name (by simp [names])) fun v w _ _ h => ?_
    exact (visit.run_matches hr hs hs' h).map fun w w' hw => ⟨w, w', rfl, rfl, hw⟩
  | walkElements name d =>
    refine ht.elements_matches hr (hnames name (by simp [names])) fun u u' _ _ _ h => ?_
    exact (ElementSet.scanTowards_matches hr hs hs' h d).map fun _ _ hahead =>
      ⟨_, _, rfl, rfl, .elements hahead⟩
  | walkEntries name =>
    refine ht.entries_matches hr (hnames name (by simp [names])) fun u u' _ _ _ h => ?_
    exact (EntrySet.scan_matches hr hs hs' h).map fun _ _ hahead =>
      ⟨_, _, rfl, rfl, .entries hahead⟩
  | _ => exact hopens.elim

end Making

end

/-! ## Changing and asking -/

section

variable {N : String → Prop} {t t' : Table α} (ht : Table.Paired S N reg reg' t t')
  (hr : reg.Twins S reg') (hs : reg.Sound) (hs' : reg'.Sound)
include ht hr hs hs'

/-- Sources of which nothing lies outside of the scope are changed alike. -/
theorem Change.run_matches {s s' : Source α} (h : View.Paired S reg reg' (.source s) (.source s'))
    {c : Change α} (hnames : ∀ name ∈ c.names, N name) :
    (c.run t s).Matches S Eq (c.run t' s') reg reg' := by
  have hcore : s'.core = s.core := View.source.inj h.core
  have hwhole (x : α) : S s.bag x = true := h.shared.inside x rfl
  cases c with
  | insert x =>
    have haccess : s'.access.core = s.access.core := congrArg Source.access hcore
    refine (s.insert_matches hr hcore hwhole x 1).bind fun previous _ _ _ heq hr => ?_
    subst heq
    -- indexed and sequential sources both tell what was there before
    revert haccess
    cases s.access <;> cases s'.access <;> intro haccess <;>
      first | exact matches_pure hr rfl | cases haccess
  | insertMany x n =>
    exact (s.insert_matches hr hcore hwhole x n).map fun _ _ => congrArg Answer.maybeCount
  | extend xs => exact (s.extend_matches hr hcore hwhole xs).map fun _ _ _ => rfl
  | absorb name =>
    refine ht.bag_matches hr (hnames name (by simp [names])) fun v w _ _ hvw => ?_
    refine .reading hr (View.scan_ahead hr hs hs' hvw .ascending) fun walk walk' hscan => ?_
    obtain ⟨⟨hwalk, hwalk'⟩, hahead⟩ := hscan
    -- a view of the bag that is changed is a view of the source that is changed
    have hagrees := View.scan_agrees
      (hs.stocked.distinct _ _ (hvw.live.1.root hs.wellFormed) h.live.1) hwalk
    have hagrees' := View.scan_agrees
      (hs'.stocked.distinct _ _ (hvw.live'.1.root hs'.wellFormed) h.live'.1) hwalk'
    exact (Source.absorb_matches hr hcore hwhole hagrees hagrees' hahead.fits hahead.fits'
      hahead.remaining).map fun _ _ _ => rfl
  | remove x =>
    exact (s.remove_matches hr hcore hwhole x).map fun _ _ => congrArg Answer.maybeCount
  | removeAll x =>
    exact (s.removeAll_matches hr hcore hwhole x).map fun _ _ => congrArg Answer.maybeCount
  | clear => exact (s.clear_matches hr hcore).map fun _ _ _ => rfl

omit hs hs' in
theorem Table.same_matches {first second : String} (hfirst : N first) (hsecond : N second) :
    (t.same first second).Matches S Eq (t'.same first second) reg reg' := by
  have hbags : (do
      let v ← t.bag first
      let w ← t.bag second
      return v.node? == w.node? : Action α Bool).Matches S Eq (do
        let v ← t'.bag first
        let w ← t'.bag second
        return v.node? == w.node?) reg reg' := by
    refine ht.bag_matches hr hfirst fun v v' _ _ hv => ?_
    refine ht.bag_matches hr hsecond fun w w' _ _ hw => matches_pure hr ?_
    rw [View.node?_of_core hv.core, View.node?_of_core hw.core]
  have hfind := Table.find?_of_core ht.core first
  unfold same
  cases hh : t.find? first with
  | none =>
    rw [hh, Option.map_none, Option.map_eq_none_iff] at hfind
    rw [hfind]
    exact hbags
  | some h =>
    rw [hh, Option.map_some, Option.map_eq_some_iff] at hfind
    obtain ⟨h', hfind', hcore⟩ := hfind
    rw [hfind']
    cases h <;> cases h' <;> first | exact hbags | cases hcore | skip
    · rename_i u u'
      have hset : u'.core = u.core := Handle.elements.inj hcore
      refine ht.elements_matches hr hsecond fun e e' _ _ hcore' _ => matches_pure hr ?_
      rw [ElementSet.link_of_core hset, ElementSet.link_of_core hcore',
        View.node?_of_core (congrArg ElementSet.view hset),
        View.node?_of_core (congrArg ElementSet.view hcore')]
    · rename_i u u'
      have hset : u'.core = u.core := Handle.entries.inj hcore
      refine ht.entries_matches hr hsecond fun e e' _ _ hcore' _ => matches_pure hr ?_
      rw [View.node?_of_core (congrArg EntrySet.view hset),
        View.node?_of_core (congrArg EntrySet.view hcore')]

/-- The command gives and takes no name, and asks no iterator. -/
def Command.KeepsNames : Command α → Prop
  | bind _ _ | drop _ | next _ _ => False
  | _ => True

/-- If a view of which the command asks whether it is empty miscounts, so does the one of which it
asks that on the other side. -/
def Command.Concurs (c : Command α) (t t' : Table α) (k k' : BagId → Histogram α) : Prop :=
  ∀ v w, c.probed? t = some v → c.probed? t' = some w → v.Concurs k k' w

omit ht hr hs hs' in
/-- A command that is not misled concurs with any other. -/
theorem Command.concurs_of_not_misled {s : Session α} {c : Command α} (h : ¬ s.Misled c)
    (t' : Table α) (k' : BagId → Histogram α) :
    c.Concurs s.table t' s.registry.contents k' :=
  fun v _ hv _ hm => (h ⟨v, hv, hm⟩).elim

omit ht hr hs hs' in
/-- Nobody who asks whether a view of an own name is empty asks anything but twins. -/
theorem Table.Paired.probed (ht : Table.Paired S N reg reg' t t') {c : Command α}
    (hnames : ∀ name ∈ c.names, N name) {v w : View α} (hv : c.probed? t = some v)
    (hw : c.probed? t' = some w) : View.Paired S reg reg' v w := by
  have hcores {name : String} {h h' : Handle α} (hfind : t.find? name = some h)
      (hfind' : t'.find? name = some h') : h'.core = h.core := by
    have hsame := Table.find?_of_core ht.core name
    rw [hfind, hfind'] at hsame
    exact Option.some.inj hsame
  cases c with
  | askBag name q =>
    have hfind := (Command.probed?_askBag.mp hv).2
    have hfind' := (Command.probed?_askBag.mp hw).2
    exact ⟨Handle.bag.inj (hcores hfind hfind'),
      ht.shared name (hnames name (by simp [Command.names])) _ hfind, ht.live.find? hfind,
      ht.live'.find? hfind'⟩
  | askElements name q =>
    obtain ⟨-, u, hfind, rfl⟩ := Command.probed?_askElements.mp hv
    obtain ⟨-, u', hfind', rfl⟩ := Command.probed?_askElements.mp hw
    have hset : u'.core = u.core := Handle.elements.inj (hcores hfind hfind')
    exact ⟨congrArg ElementSet.view hset, ht.shared name (hnames name (by simp [Command.names])) _
      hfind, ht.live.find? hfind, ht.live'.find? hfind'⟩
  | askEntries name q =>
    obtain ⟨-, u, hfind, rfl⟩ := Command.probed?_askEntries.mp hv
    obtain ⟨-, u', hfind', rfl⟩ := Command.probed?_askEntries.mp hw
    have hset : u'.core = u.core := Handle.entries.inj (hcores hfind hfind')
    exact ⟨congrArg EntrySet.view hset, ht.shared name (hnames name (by simp [Command.names])) _
      hfind, ht.live.find? hfind, ht.live'.find? hfind'⟩
  | _ => cases hv

/-- Twins that answer in the same way are told the same, whether anybody is misled or not. -/
theorem Command.concurs_of_exact (hS : S.Exact) {c : Command α}
    (hnames : ∀ name ∈ c.names, N name) :
    c.Concurs t t' reg.contents reg'.contents :=
  fun _ _ hv hw => (ht.probed hnames hv hw).concurs_of_exact hr hs hs' hS

/-- Two answers that are the same if the command concurs, and two tables of the same shape. The
names of `M` show nothing outside of the scope. -/
structure Command.SameResult (S : Scope α) (M : String → Prop) (concurs : Prop)
    (p p' : Answer α × Table α) : Prop where
  answer : p.1.SameWhen concurs p'.1
  core : p'.2.core = p.2.core
  shared : ∀ name, M name → ∀ h, p.2.find? name = some h → h.Shared S

/-- A command that leaves the table as it is answers the same on both sides. -/
theorem Command.ask_matches [Ord α] [Std.TransOrd α] [Shown α] {c : Command α}
    (hc : c.KeepsNames) (hnames : ∀ name ∈ c.names, N name) :
    (c.run t).Matches S (SameResult S N (c.Concurs t t' reg.contents reg'.contents)) (c.run t')
      reg reg' := by
  have hsame {C : Prop} (answer : Answer α) : SameResult S N C (answer, t) (answer, t') :=
    ⟨.inl rfl, ht.core, ht.shared⟩
  cases c with
  | bind name m => exact hc.elim
  | drop name => exact hc.elim
  | next name n => exact hc.elim
  | isAlive name =>
    refine ht.weak_matches hr fun v w h => ?_
    refine .after (perform_get reg) (perform_get reg') (matches_pure hr ?_)
    rw [View.node?_of_core h, hr.isAlive]
    exact hsame _
  | same first second =>
    refine (Table.same_matches ht hr (hnames first (by simp [names]))
      (hnames second (by simp [names]))).map ?_
    rintro b _ rfl
    exact hsame _
  | change name ch =>
    refine ht.source_matches hr (hnames name (by simp [names])) fun s s' h => ?_
    refine (Change.run_matches ht hr hs hs' h fun n hn => hnames n (by simp [names, hn])).map ?_
    rintro a _ rfl
    exact hsame _
  | askBag name q =>
    refine ht.bag_matches hr (hnames name (by simp [names])) fun v w hfind hfind' h => ?_
    refine (q.run_matches hr hs hs' h hfind hfind').map fun a a' ha => ⟨ha.imp ?_, ht.core,
      ht.shared⟩
    rintro hc rfl
    exact hc v w (probed?_askBag.mpr ⟨rfl, hfind⟩) (probed?_askBag.mpr ⟨rfl, hfind'⟩)
  | askElements name q =>
    refine ht.elements_matches hr (hnames name (by simp [names])) fun u u' hfind hfind' _ h => ?_
    refine (q.run_matches hr hs hs' h hfind hfind').map fun a a' ha => ⟨ha.imp ?_, ht.core,
      ht.shared⟩
    rintro hc rfl
    exact hc _ _ (probed?_askElements.mpr ⟨rfl, u, hfind, rfl⟩)
      (probed?_askElements.mpr ⟨rfl, u', hfind', rfl⟩)
  | askEntries name q =>
    refine ht.entries_matches hr (hnames name (by simp [names])) fun u u' hfind hfind' _ h => ?_
    refine (q.run_matches hr hs hs' h).map fun a a' ha => ⟨ha.imp ?_, ht.core, ht.shared⟩
    rintro hc rfl
    exact hc _ _ (probed?_askEntries.mpr ⟨rfl, u, hfind, rfl⟩)
      (probed?_askEntries.mpr ⟨rfl, u', hfind', rfl⟩)
  | askComparator name q =>
    have hask (c : Comparator α) : (q.run t c).Matches S Eq (q.run t' c) reg reg' := by
      cases q with
      | compare a b => exact matches_pure hr rfl
      | equals other =>
        refine (ht.comparator_matches hr).map ?_
        rintro d _ rfl
        rfl
      | debug => exact matches_pure hr rfl
    refine (ht.comparator_matches hr).bind_run fun c c' reg₁ reg₁' hp hp' hc _ => ?_
    subst hc
    rw [Table.comparator, Table.perform_expect] at hp hp'
    obtain ⟨-, rfl⟩ := Prod.mk.inj hp
    obtain ⟨-, rfl⟩ := Prod.mk.inj hp'
    refine (hask c).map ?_
    rintro a _ rfl
    exact hsame _

omit hr hs hs' in
/-- A name is given to what is alike on both sides. -/
theorem Command.bind_matches [Ord α] [Std.TransOrd α] [Shown α] {name : String} {m m' : Making α}
    {C : Prop} (hm : (m.run t).Matches S (Handle.Alike S) (m'.run t') reg reg') :
    ((Command.bind name m).run t).Matches S (SameResult S N C) ((Command.bind name m').run t')
      reg reg' := by
  refine hm.map fun h h' hh => ⟨.inl rfl, ?_, fun other hother handle hfind => ?_⟩
  · rw [Table.core_bind, Table.core_bind, ht.core, hh.core]
  · by_cases hname : other = name
    · rw [hname, Table.find?_bind_self] at hfind
      rw [← Option.some.inj hfind]
      exact hh.shared
    · rw [Table.find?_bind_of_ne t hname] at hfind
      exact ht.shared other hother handle hfind

omit hr hs hs' in
/-- A name is given to an iterator, which is not to be told apart from another one. -/
theorem Command.bind_walk_result {name : String} {w w' : Walk α} {C : Prop} (answer : Answer α) :
    SameResult S (fun other => N other ∧ other ≠ name) C (answer, t.bind name (.walk w))
      (answer, t'.bind name (.walk w')) := by
  refine ⟨.inl rfl, ?_, fun other hother handle hfind => ?_⟩
  · rw [Table.core_bind, Table.core_bind, ht.core]
    rfl
  · rw [Table.find?_bind_of_ne t hother.2] at hfind
    exact ht.shared other hother.1 handle hfind

omit hs hs' in
/-- An iterator that yields the same is asked on both sides. -/
theorem Command.next_matches [Ord α] [Std.TransOrd α] [Shown α] {name : String} {n : Nat}
    {C : Prop}
    (hwalk : ∀ w w', t.find? name = some (.walk w) → t'.find? name = some (.walk w') →
      (w'.nexts reg'.contents n).1 = (w.nexts reg.contents n).1) :
    ((Command.next name n).run t).Matches S (SameResult S (fun other => N other ∧ other ≠ name) C)
      ((Command.next name n).run t') reg reg' := by
  refine Table.expect_bind_matches hr ht.core ?_ fun h h' w w' hfind hfind' _ hp hp' => ?_
  · rintro h h' hcore
    cases h <;> cases h' <;> first | rfl | cases hcore
  · cases h <;> cases hp
    cases h' <;> cases hp'
    refine .after (perform_get reg) (perform_get reg') (matches_pure hr ?_)
    rw [hwalk w w' hfind hfind']
    exact bind_walk_result ht _

omit hs hs' in
/-- A name is forgotten on both sides. -/
theorem Command.drop_matches [Ord α] [Std.TransOrd α] [Shown α] {name : String}
    {M : String → Prop} {C : Prop} (hM : ∀ other, M other → other ≠ name → N other) :
    ((Command.drop name).run t).Matches S (SameResult S M C) ((Command.drop name).run t')
      reg reg' := by
  refine matches_pure hr ⟨.inl rfl, ?_, fun other hother handle hfind => ?_⟩
  · rw [Table.core_erase, Table.core_erase, ht.core]
  · by_cases hname : other = name
    · rw [hname, Table.find?_erase_self] at hfind
      cases hfind
    · rw [Table.find?_erase_of_ne t hname] at hfind
      exact ht.shared other (hM other hother hname) handle hfind

end

end OrderedBag
