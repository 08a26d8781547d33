import OrderedBag.Proofs.Partitions

/-!
# Evaluations of ordering functions

Every command that evaluates an ordering function raises the number of evaluations, and no command
lowers it. So the number by which a comparator is told apart belongs to one command, and comparators
are equal exactly if the same command evaluated their function and they were reversed equally often,
counting modulo two. Whatever comparator a session comes to hold goes back to a command in this way,
and so does the one that a view hands out: it is that of the source, reversed once for each
descending view on the way down.

* `View.order_eq_layers` — the order of a view, by the number of its descending layers
* `Registry.evaluations_steady` — no command lowers the number of evaluations
* `Session.Stems` — a comparator goes back to the evaluation by a command, and to some reversals
* `Session.Stems.beq_iff` — comparators are equal if the commands are the same and the reversals
  agree modulo two
* `Session.comparators_stem` — the comparators of a session, of its bags and of its sets
-/

namespace OrderedBag

open OrderedBag.Action

variable {α : Type}

/-! ## Layers -/

theorem Comparator.towards_ofParity (c : Comparator α) (k : Nat) :
    c.towards (.ofParity k) = if k % 2 = 0 then c else c.reversed := by
  unfold Direction.ofParity
  split <;> rfl

theorem Comparator.origin_towards (c : Comparator α) (d : Direction) :
    (c.towards d).origin = c.origin := by
  cases d <;> rfl

theorem Comparator.beq_iff {c d : Comparator α} :
    (c == d) = true ↔ c.origin = d.origin ∧ c.backwards = d.backwards := by
  show (c.origin == d.origin && c.backwards == d.backwards) = true ↔ _
  simp

namespace View

/-- How many descending views there are on the way down, the view itself included. -/
def layers : View α → Nat
  | source _ | range _ _ _ => 0
  | descending _ _ f => f.layers + 1

theorem facing_eq_layers (v : View α) : v.facing = .ofParity v.layers := by
  induction v with
  | source s => rfl
  | range n s r => rfl
  | descending n link f ih =>
    exact (congrArg Direction.flip ih).trans (Direction.ofParity_succ _).symm

/-- The comparator of the source, or its reverse after an odd number of layers. -/
theorem order_eq_layers (v : View α) :
    v.order = if v.layers % 2 = 0 then v.root.comparator else v.root.comparator.reversed := by
  rw [order_eq, facing_eq_layers, Comparator.towards_ofParity]

/-- A view that goes back to its source by a sequence of steps has as many layers, counting modulo
two, as steps of the sequence turn the order around. -/
theorem Means.layers_mod_two {v : View α} {b : Source α} {path : List (ViewStep α)}
    (h : v.Means b path) : path.countP ViewStep.turns % 2 = v.layers % 2 := by
  have hsame : Direction.ofParity v.layers = .ofParity (path.countP ViewStep.turns) :=
    (facing_eq_layers v).symm.trans h.facing
  unfold Direction.ofParity at hsame
  split at hsame <;> split at hsame <;> simp at hsame <;> omega

end View

/-! ## The number of evaluations -/

namespace Registry

/-- No fewer ordering functions have been evaluated. -/
def Later (reg reg' : Registry α) : Prop :=
  reg.evaluations ≤ reg'.evaluations

theorem evaluations_updateNode (reg : Registry α) (v : View α) (f : Node α → Node α) :
    (reg.updateNode v f).evaluations = reg.evaluations := by
  unfold updateNode
  cases v.node? <;> rfl

/-- Nothing that commands do lowers the number of evaluations. -/
theorem evaluations_steady : Steady (Later (α := α)) where
  refl _ := Nat.le_refl _
  trans h h' := Nat.le_trans h h'
  log _ _ := Nat.le_refl _
  evaluated _ _ := Nat.le_succ _
  push _ _ := Nat.le_refl _
  source _ _ _ := Nat.le_refl _
  filled _ _ h := h
  update reg v {_} _ := Nat.le_of_eq (evaluations_updateNode reg v _).symm

end Registry

/-- The comparator that a handle carries, or that of the source behind its view. -/
def Handle.comparator? : Handle α → Option (Comparator α)
  | bag v | weak v => some v.root.comparator
  | elements s => some s.view.root.comparator
  | entries s => some s.view.root.comparator
  | walk _ => none
  | comparator c => some c

theorem Handle.comparator?_of_view? {h : Handle α} {v : View α} (hv : h.view? = some v) :
    h.comparator? = some v.root.comparator := by
  cases h with
  | walk w => cases hv
  | comparator c => cases hv
  | _ =>
    cases hv
    rfl

/-- If the action makes a handle, that carries a new comparator of the order. -/
def Action.Mints (a : Action α (Handle α)) (o : Order α) : Prop :=
  ∀ reg h reg', a.perform reg = (.ok h, reg') →
    h.comparator? = some (reg.evaluate o).1 ∧ reg.evaluations < reg'.evaluations

theorem Action.Mints.read {β : Type} {a : Action α β} {f : β → Action α (Handle α)} {o : Order α}
    (ha : ∀ reg, (a.perform reg).2 = reg) (hf : ∀ b, (f b).Mints o) : (a >>= f).Mints o := by
  intro reg h reg' hrun
  have hsame := ha reg
  rw [perform_bind] at hrun
  rcases hp : a.perform reg with ⟨_ | b, reg₁⟩
  · rw [hp] at hrun
    cases hrun
  · rw [hp] at hrun hsame
    obtain rfl : reg₁ = reg := hsame
    exact hf b reg₁ h reg' hrun

/-- The comparator of a handle of the table, or the reverse of one. -/
def Table.Carries (t : Table α) (c : Comparator α) : Prop :=
  ∃ name h d, t.find? name = some h ∧ h.comparator? = some d ∧ (c = d ∨ c = d.reversed)

theorem Table.carries_order {t : Table α} {name : String} {h : Handle α} {v : View α}
    (hname : t.find? name = some h) (hv : h.comparator? = some v.root.comparator) :
    t.Carries v.order := by
  refine ⟨name, h, _, hname, hv, ?_⟩
  rw [v.order_eq_layers]
  split
  · exact .inl rfl
  · exact .inr rfl

/-- A comparator that a view hands out is its order. -/
theorem View.comparator_ends {reg : Registry α} {v : View α} (hs : reg.Sound) (hv : reg.Houses v) :
    v.comparator.Ends reg fun c _ => c = v.order := by
  rcases comparator_spec hs hv with h | ⟨-, h⟩
  · exact h.ends fun c _ ho _ _ => (Except.ok.inj ho).symm
  · exact h.ends nofun

section

variable [Ord α] [Std.TransOrd α]

/-- The order that is evaluated, if any. -/
def Making.evaluated? : Making α → Option (Order α)
  | source _ (.evaluated o) => some o
  | comparator o => some o
  | ofElements _ | ofEntries _ | copyEntries _ | copyElements _ => some .natural
  | _ => none

/-- A new source in natural order carries a new comparator, however it is filled. -/
theorem filled_mints {fill : Source α → Action α Unit}
    (hfill : ∀ s, (fill s).Respects Registry.Later) :
    (do
      let s ← Source.makeNatural
      fill s
      return .bag (.source s) : Action α (Handle α)).Mints .natural := by
  intro reg h reg' hrun
  obtain ⟨s, reg₁, hmake, hs, hreg₁⟩ : ∃ s reg₁,
      (Source.makeNatural : Action α (Source α)).perform reg = (.ok s, reg₁) ∧
        s.comparator = (reg.evaluate .natural).1 ∧ reg₁.evaluations = reg.evaluations + 1 :=
    ⟨_, _, rfl, rfl, rfl⟩
  rw [perform_bind_ok hmake, perform_bind] at hrun
  have hlater := hfill s reg₁
  rcases hp : (fill s).perform reg₁ with ⟨_ | _, reg₂⟩
  · rw [hp] at hrun
    cases hrun
  · rw [hp] at hrun hlater
    obtain ⟨rfl, rfl⟩ : Handle.bag (.source s) = h ∧ reg₂ = reg' := by
      obtain ⟨hh, hreg⟩ := Prod.mk.inj hrun
      exact ⟨Except.ok.inj hh, hreg⟩
    refine ⟨congrArg some hs, ?_⟩
    have hle : reg₁.evaluations ≤ reg₂.evaluations := hlater
    omega

/-- What evaluates an order makes a handle with a comparator of that evaluation. -/
theorem Making.run_mints {t : Table α} {m : Making α} {o : Order α} (hm : m.evaluated? = some o) :
    (m.run t).Mints o := by
  have hR := (Registry.evaluations_steady (α := α)).toChained
  have hset (b : BagId) : Registry.Ignores (Registry.Later (α := α)) b := fun _ _ => Nat.le_refl _
  have hbag (name : String) (reg : Registry α) : ((t.bag name).perform reg).2 = reg := by
    rw [Table.bag, Table.perform_expect]
  have hreading {β : Type} (f : Registry α → Except Failure β) (reg : Registry α) :
      ((Action.reading f).perform reg).2 = reg := by
    rw [perform_reading]
  cases m with
  | source a sorting =>
    cases sorting with
    | named name => cases hm
    | evaluated o' =>
      obtain rfl := Option.some.inj hm
      rintro reg h reg' ⟨⟩
      exact ⟨rfl, Nat.lt_succ_self _⟩
  | comparator o' =>
    obtain rfl := Option.some.inj hm
    rintro reg h reg' ⟨⟩
    exact ⟨rfl, Nat.lt_succ_self _⟩
  | ofElements xs =>
    obtain rfl := Option.some.inj hm
    exact filled_mints fun s => s.extend_respects hR (hset _) xs
  | ofEntries es =>
    obtain rfl := Option.some.inj hm
    exact filled_mints fun s => s.insertEntries_respects hR (hset _) es
  | copyEntries name =>
    obtain rfl := Option.some.inj hm
    exact .read (hbag name) fun v => .read (hreading _) fun es =>
      filled_mints fun s => s.insertEntries_respects hR (hset _) es
  | copyElements name =>
    obtain rfl := Option.some.inj hm
    exact .read (hbag name) fun v => .read (hreading _) fun w =>
      filled_mints fun s => s.absorb_respects hR (hset _) w
  | _ => cases hm

/-- What evaluates nothing makes handles with the comparators of other handles. -/
theorem Making.run_carries {t : Table α} {reg : Registry α} (hs : reg.Sound) (ht : t.Live reg)
    {m : Making α} (hm : m.evaluated? = none) :
    (m.run t).Ends reg fun h _ => ∀ c, h.comparator? = some c → t.Carries c := by
  have hsame {name : String} {h h' : Handle α} (hname : t.find? name = some h)
      (hh : h'.comparator? = h.comparator?) (c : Comparator α) (hc : h'.comparator? = some c) :
      t.Carries c :=
    ⟨name, h, c, hname, hh ▸ hc, .inl rfl⟩
  cases m with
  | source a sorting =>
    cases sorting with
    | evaluated o => cases hm
    | named name =>
      refine Table.expect_bind fun h c hfind hpick => ?_
      cases h <;> cases hpick
      refine Ends.bind (P := fun s _ => s.comparator = c)
        (ends_updating (.single (.source reg c a)) rfl) fun s reg' _ hs' => ?_
      obtain rfl := hs'
      exact ends_pure (hsame hfind rfl)
  | weak name => exact Table.bag_bind ht fun v hname _ => ends_pure (hsame hname rfl)
  | walk name visit =>
    exact Table.bag_bind ht fun v _ hl => (visit_orderly hs hl visit).bind fun _ _ _ _ =>
      ends_pure nofun
  | walkElements name d =>
    exact Table.elements_bind ht fun s _ hl => (ElementSet.scanTowards_orderly hl d).bind
      fun _ _ _ _ => ends_pure nofun
  | walkEntries name =>
    exact Table.entries_bind ht fun s _ hl => (s.scan_orderly reg).bind fun _ _ _ _ =>
      ends_pure nofun
  | view name st =>
    refine (view_ends hs ht name st).mono ?_
    rintro h reg' ⟨-, v, w, reg'', hname, -, -, hmakes, rfl⟩
    refine hsame hname (congrArg (some ∘ Source.comparator) ?_)
    exact (Registry.root_enroll reg'' w).trans hmakes.leaves.root
  | comparatorOf name =>
    refine Table.bag_bind ht fun v hname hl => ?_
    refine (View.comparator_ends hs hl.1).bind fun c reg' _ hc => ends_pure ?_
    rintro _ ⟨⟩
    exact hc ▸ Table.carries_order hname rfl
  | elementSet name =>
    refine Table.bag_bind ht fun v hname hl => ?_
    have hset : v.elementSet.Ends reg fun s _ => s.view = v :=
      (View.elementSet_gives hl.1).ends fun s _ ho _ _ => by rw [← Except.ok.inj ho]
    refine hset.bind fun s reg' _ hview => ends_pure ?_
    obtain rfl := hview
    exact hsame hname rfl
  | entrySet name =>
    refine Table.bag_bind ht fun v hname hl => ?_
    have hset : v.entrySet.Ends reg fun s _ => s.view = v :=
      (View.entrySet_gives hl.1).ends fun s _ ho _ _ => by rw [← Except.ok.inj ho]
    refine hset.bind fun s reg' _ hview => ends_pure ?_
    obtain rfl := hview
    exact hsame hname rfl
  | elements name st =>
    refine (elements_ends hs ht name st).mono ?_
    rintro h reg' ⟨-, s, u, reg'', hname, -, -, hmakes, rfl⟩
    refine hsame hname (congrArg (some ∘ Source.comparator) ?_)
    exact (Registry.root_enroll reg'' u.view).trans hmakes.leaves.root
  | bagOfElements name =>
    refine Table.elements_bind ht fun s hname hl => ElementSet.bag_bind ?_
    refine (Handle.ofView_ends hl.supports).mono ?_
    rintro h reg' ⟨-, rfl⟩
    exact hsame hname (congrArg (some ∘ Source.comparator) (Registry.root_enroll reg s.view))
  | comparatorOfElements name =>
    refine Table.elements_bind ht fun s hname hl => ?_
    have hcomp : s.comparator.Ends reg fun c _ => c = s.view.order :=
      ElementSet.bag_bind (View.comparator_ends hs hl.1)
    refine hcomp.bind fun c reg' _ hc => ends_pure ?_
    rintro _ ⟨⟩
    exact hc ▸ Table.carries_order hname rfl
  | bagOfEntries name =>
    refine Table.entries_bind ht fun s hname hl => EntrySet.bag_bind ?_
    refine (Handle.ofView_ends hl.supports).mono ?_
    rintro h reg' ⟨-, rfl⟩
    exact hsame hname (congrArg (some ∘ Source.comparator) (Registry.root_enroll reg s.view))
  | reversedComparator name =>
    refine Table.expect_bind fun h c hfind hpick => ?_
    cases h <;> cases hpick
    refine ends_pure ?_
    rintro _ ⟨⟩
    exact ⟨name, _, c, hfind, rfl, .inr rfl⟩
  | _ => cases hm

end

namespace Session

variable [Ord α] [Std.TransOrd α] [Shown α] {s : Session α}

/-- No command lowers the number of evaluations. -/
theorem evaluations_step (s : Session α) (c : Command α) (watched : List String) :
    s.registry.evaluations ≤ (s.step watched c).2.registry.evaluations := by
  have hrun : (c.run s.table).Respects Registry.Later := by
    have hR := Registry.evaluations_steady (α := α)
    refine Command.run_respects hR.toPlacid (fun _ _ _ _ => Nat.le_refl _) ?_
      fun k v _ => k.respected hR v
    exact fun v _ => View.comparator_respects hR.toChained
      (fun reg v _ => Nat.le_of_eq (Registry.evaluations_updateNode reg v _).symm) v
  have hafter : (s.step watched c).2.registry.evaluations =
      ((c.run s.table).perform s.fresh).2.evaluations := Registry.evaluations_release _ _
  rw [hafter]
  exact hrun s.fresh

/-! ## Sequences of commands -/

/-- The session after a sequence of commands, from the empty one on. -/
def after (cs : List (Command α)) : Session α :=
  (run [] (empty .wrapping) cs).2

theorem after_concat (cs : List (Command α)) (c : Command α) :
    after (cs ++ [c]) = ((after cs).step [] c).2 := by
  rw [after, run_append]
  rfl

theorem reachable_after {cs : List (Command α)} (hcs : ∀ c ∈ cs, c.Valid) :
    (after cs).Reachable :=
  Reachable.initial.run hcs []

theorem evaluations_after (cs ds : List (Command α)) :
    (after cs).registry.evaluations ≤ (after (cs ++ ds)).registry.evaluations := by
  induction ds using List.reverseRecOn with
  | nil => rw [List.append_nil]
  | append_singleton ds d ih =>
    rw [← List.append_assoc, after_concat]
    exact Nat.le_trans ih (evaluations_step _ d [])

/-- In the course of the commands, the comparator came about: command number `i` evaluated its
ordering function, and it was reversed `k` times since. Whoever has a copy of a comparator has the
comparator itself. -/
inductive Stems : List (Command α) → Nat → Nat → Comparator α → Prop
  /-- The last command has evaluated the function for the handle it has made. -/
  | evaluated {cs : List (Command α)} {name : String} {m : Making α} {o : Order α} {h : Handle α}
      {c : Comparator α} (heval : m.evaluated? = some o)
      (hdone : ((after cs).step [] (.bind name m)).1.outcome = .ok .done)
      (hname : ((after cs).step [] (.bind name m)).2.table.find? name = some h)
      (hc : h.comparator? = some c) : Stems (cs ++ [.bind name m]) cs.length 0 c
  /-- It is the reverse of such a comparator. -/
  | reversed {cs : List (Command α)} {i k : Nat} {c : Comparator α} (h : Stems cs i k c) :
      Stems cs i (k + 1) c.reversed
  /-- Anything else happens. -/
  | later {cs : List (Command α)} {i k : Nat} {c : Comparator α} (h : Stems cs i k c)
      (d : Command α) : Stems (cs ++ [d]) i k c

variable {cs : List (Command α)} {i j k l : Nat} {c d : Comparator α}

/-- A comparator has the number which the evaluations had reached before the command, and which they
have passed after it. -/
theorem Stems.spec (h : Stems cs i k c) :
    i < cs.length ∧
      (after (cs.take i)).registry.evaluations < (after (cs.take (i + 1))).registry.evaluations ∧
      ∃ name m o, cs[i]? = some (.bind name m) ∧ m.evaluated? = some o ∧
        c = (⟨(after (cs.take i)).registry.evaluations, o, false⟩ : Comparator α).towards
          (.ofParity k) := by
  induction h with
  | @evaluated cs name m o h c heval hdone hname hc =>
    obtain ⟨made, reg, hrun, -, hafter⟩ := made_of_outcome hdone
    obtain ⟨hmade, hlt⟩ := Making.run_mints heval _ _ _ hrun
    rw [hafter, Table.find?_bind_self] at hname
    obtain rfl := Option.some.inj hname
    have hlength : (cs ++ [Command.bind name m]).length = cs.length + 1 := List.length_append
    rw [hlength, List.take_left' rfl, List.take_of_length_le (Nat.le_of_eq hlength), after_concat,
      hafter, List.getElem?_append_right (Nat.le_refl _), Nat.sub_self]
    refine ⟨Nat.lt_succ_self _, ?_, name, m, o, rfl, heval,
      Option.some.inj (hc.symm.trans hmade)⟩
    rw [Registry.evaluations_release]
    exact hlt
  | reversed h ih =>
    obtain ⟨hi, hlt, name, m, o, hcs, hm, rfl⟩ := ih
    refine ⟨hi, hlt, name, m, o, hcs, hm, ?_⟩
    rw [Direction.ofParity_succ, Comparator.towards_flip]
  | @later cs i k c h d ih =>
    obtain ⟨hi, hlt, name, m, o, hcs, hm, hc⟩ := ih
    rw [List.length_append, List.take_append_of_le_length (Nat.le_of_lt hi),
      List.take_append_of_le_length hi, List.getElem?_append_left hi]
    exact ⟨Nat.lt_of_lt_of_le hi (Nat.le_add_right _ _), hlt, name, m, o, hcs, hm, hc⟩

/-- Different commands have raised the number of evaluations from different numbers. -/
theorem evaluations_take_lt
    (hlt : (after (cs.take i)).registry.evaluations <
      (after (cs.take (i + 1))).registry.evaluations) (hij : i < j) :
    (after (cs.take i)).registry.evaluations < (after (cs.take j)).registry.evaluations := by
  obtain ⟨ds, hds⟩ : cs.take (i + 1) <+: cs.take j := List.take_prefix_take_left hij
  rw [← hds]
  exact Nat.lt_of_lt_of_le hlt (evaluations_after _ ds)

/-- Comparators of the same evaluation differ in their direction at most. -/
theorem Stems.eq_ite (h : Stems cs i k c) (h' : Stems cs i l d) :
    c = if k % 2 = l % 2 then d else d.reversed := by
  obtain ⟨-, -, name, m, o, hcs, hm, rfl⟩ := h.spec
  obtain ⟨-, -, name', m', o', hcs', hm', rfl⟩ := h'.spec
  obtain ⟨-, rfl⟩ := Command.bind.inj (Option.some.inj (hcs.symm.trans hcs'))
  obtain rfl : o = o' := Option.some.inj (hm.symm.trans hm')
  rw [Comparator.towards_ofParity, Comparator.towards_ofParity]
  rcases Nat.mod_two_eq_zero_or_one k with hk | hk <;>
    rcases Nat.mod_two_eq_zero_or_one l with hl | hl <;> simp [hk, hl]

/-- Equal comparators stem from the same command. -/
theorem Stems.command_eq (h : Stems cs i k c) (h' : Stems cs j l d)
    (horigin : c.origin = d.origin) : i = j := by
  obtain ⟨-, hi, -, -, o, -, -, rfl⟩ := h.spec
  obtain ⟨-, hj, -, -, o', -, -, rfl⟩ := h'.spec
  rw [Comparator.origin_towards, Comparator.origin_towards] at horigin
  simp only at horigin
  rcases Nat.lt_trichotomy i j with hlt | heq | hgt
  · have := evaluations_take_lt hi hlt
    omega
  · exact heq
  · have := evaluations_take_lt hj hgt
    omega

/-- Comparators are equal exactly if the same command evaluated their function and they were
reversed equally often, counting modulo two. -/
theorem Stems.beq_iff (h : Stems cs i k c) (h' : Stems cs j l d) :
    (c == d) = true ↔ i = j ∧ k % 2 = l % 2 := by
  rw [Comparator.beq_iff]
  constructor
  · rintro ⟨horigin, hbackwards⟩
    obtain rfl := h.command_eq h' horigin
    refine ⟨rfl, ?_⟩
    by_contra hne
    rw [h.eq_ite h', if_neg hne] at hbackwards
    simp [Comparator.reversed] at hbackwards
  · rintro ⟨rfl, hparity⟩
    rw [h.eq_ite h', if_pos hparity]
    exact ⟨rfl, rfl⟩

/-- Equal comparators agree on every two elements. -/
theorem Stems.eq_of_beq (h : Stems cs i k c) (h' : Stems cs j l d) (heq : (c == d) = true) :
    c = d := by
  obtain ⟨rfl, hparity⟩ := (h.beq_iff h').mp heq
  rw [h.eq_ite h', if_pos hparity]

/-! ## The comparators of a session -/

/-- Every comparator that a handle carries stems from a command. -/
theorem stems_of_handle (hcs : ∀ c ∈ cs, c.Valid) {name : String} {h : Handle α}
    (hname : (after cs).table.find? name = some h) (hc : h.comparator? = some c) :
    ∃ i k, Stems cs i k c := by
  induction cs using List.reverseRecOn generalizing name h c with
  | nil => cases hname
  | append_singleton cs cmd ih =>
    have hcs' : ∀ c ∈ cs, c.Valid := fun c hmem => hcs c (List.mem_append_left _ hmem)
    have hs := (reachable_after hcs').sound
    rw [after_concat] at hname
    rcases handle_of_step hname with hold | ⟨w, rfl⟩ | ⟨m, reg, rfl, hrun, hdone⟩
    · obtain ⟨i, k, hstems⟩ := ih hcs' hold hc
      exact ⟨i, k, hstems.later cmd⟩
    · cases hc
    · cases heval : m.evaluated? with
      | some o => exact ⟨cs.length, 0, .evaluated heval hdone hname hc⟩
      | none =>
        have hcarries := (Making.run_carries hs.fresh hs.live_fresh heval).2 h (by rw [hrun]) c hc
        obtain ⟨name', h', d, hname', hd, hor⟩ := hcarries
        obtain ⟨i, k, hstems⟩ := ih hcs' hname' hd
        rcases hor with rfl | rfl
        · exact ⟨i, k, hstems.later _⟩
        · exact ⟨i, k + 1, hstems.reversed.later _⟩

/-- If a handle can only be this one, a command that succeeds gives it the name. -/
theorem find?_of_ends {m : Making α} {h : Handle α} {new : String} {watched : List String}
    (hends : (m.run s.table).Ends s.fresh fun h' _ => h' = h)
    (hdone : (s.step watched (.bind new m)).1.outcome = .ok .done) :
    (s.step watched (.bind new m)).2.table.find? new = some h := by
  obtain ⟨made, reg, hrun, -, hafter⟩ := made_of_outcome hdone
  obtain rfl : made = h := hends.2 made (by rw [hrun])
  rw [hafter]
  exact Table.find?_bind_self s.table new made

omit [Shown α] in
/-- A bag hands out its order, or nothing. -/
theorem Sound.comparator_of_bag (hs : s.Sound) {name : String} {v : View α}
    (hname : s.table.find? name = some (.bag v)) :
    ((Making.comparatorOf name).run s.table).Ends s.fresh fun h _ => h = .comparator v.order := by
  refine .after (Table.perform_bag hname s.fresh) ?_
  refine (View.comparator_ends hs.fresh (hs.live_fresh.find? hname).1).bind fun c reg' _ hc => ?_
  exact ends_pure (congrArg Handle.comparator hc)

omit [Shown α] in
/-- So does a set. -/
theorem Sound.comparator_of_elements (hs : s.Sound) {name : String} {u : ElementSet α}
    (hname : s.table.find? name = some (.elements u)) :
    ((Making.comparatorOfElements name).run s.table).Ends s.fresh
      fun h _ => h = .comparator u.view.order := by
  refine .after (Table.perform_elements hname s.fresh) ?_
  have hcomp : u.comparator.Ends s.fresh fun c _ => c = u.view.order :=
    ElementSet.bag_bind (View.comparator_ends hs.fresh (hs.live_fresh.find? hname).1)
  exact hcomp.bind fun c reg' _ hc => ends_pure (congrArg Handle.comparator hc)

/-- What a question to a comparator answers, if it needs no more than the table. -/
theorem reads_comparator {name : String} (hname : s.table.find? name = some (.comparator c))
    {q : ComparatorQuery α} {answer : Answer α}
    (hq : (q.run s.table c).perform s.fresh = (.ok answer, s.fresh)) :
    s.Reads (.askComparator name q) answer := by
  have hrun : ((Command.askComparator name q).run s.table).Answers s.fresh
      (.ok (answer, s.table)) :=
    .after (Table.perform_comparator hname _) (.after hq (answers_pure (answer, s.table)))
  exact step_of_answer (o := .ok answer) hrun.gives

/-- If the comparator of the view is handed out by this, it is that of the source, or its reverse if
the view has an odd number of layers. -/
def HandsOutLayered (s : Session α) (m : Making α) (v : View α) : Prop :=
  ∀ new watched, (s.step watched (.bind new m)).1.outcome = .ok .done →
    (s.step watched (.bind new m)).2.table.find? new = some (.comparator
      (if v.layers % 2 = 0 then v.root.comparator else v.root.comparator.reversed))

/-- Comparators are equal exactly if they stem from the evaluation by the same command and were
reversed equally often, counting modulo two. Equal ones compare alike, and those of one evaluation
that are not equal compare the other way around. All comparators in a session stem from a command,
those of bags and sets included. Whenever a bag or a set is asked for its comparator and hands it
out, this is the comparator of the source behind it, or its reverse if there is an odd number of
descending views on the way down; so there is after every chain of steps from the source which turns
the order around an odd number of times. -/
theorem comparators_stem (hcs : ∀ c ∈ cs, c.Valid) :
    (∀ i k c j l d, Stems cs i k c → Stems cs j l d →
      ((c == d) = true ↔ i = j ∧ k % 2 = l % 2) ∧
      ((c == d) = true → ∀ x y, c.compare x y = d.compare x y) ∧
      (i = j → k % 2 ≠ l % 2 → ∀ x y, c.compare x y = (d.compare x y).swap)) ∧
    (∀ name c, (after cs).table.find? name = some (.comparator c) →
      (∃ i k, Stems cs i k c) ∧
      (after cs).HandsOut (.reversedComparator name) c.reversed ∧
      (∀ x y, (after cs).Reads (.askComparator name (.compare x y))
        (.ordering (c.compare x y))) ∧
      ∀ other d, (after cs).table.find? other = some (.comparator d) →
        (after cs).Reads (.askComparator name (.equals other)) (.flag (c == d))) ∧
    (∀ name v, (after cs).table.find? name = some (.bag v) →
      (after cs).HandsOutLayered (.comparatorOf name) v) ∧
    (∀ name u, (after cs).table.find? name = some (.elements u) →
      (after cs).HandsOutLayered (.comparatorOfElements name) u.view) ∧
    ∀ name h v, (after cs).table.find? name = some h → h.view? = some v →
      (∃ i k, Stems cs i k v.root.comparator) ∧
      (∃ path, Derived v.root (after cs) v path) ∧
      ∀ path, Derived v.root (after cs) v path →
        path.countP ViewStep.turns % 2 = v.layers % 2 := by
  have hreach := reachable_after hcs
  have hs := hreach.sound
  refine ⟨?_, ?_, ?_, ?_, ?_⟩
  · intro i k c j l d h h'
    refine ⟨h.beq_iff h', fun heq x y => by rw [h.eq_of_beq h' heq], ?_⟩
    rintro rfl hne x y
    rw [h.eq_ite h', if_neg hne, Comparator.compare_reversed]
  · intro name c hname
    refine ⟨stems_of_handle hcs hname rfl, ?_, fun x y => reads_comparator hname rfl, ?_⟩
    · have hmake : ((Making.reversedComparator name).run (after cs).table).Answers (after cs).fresh
          (.ok (.comparator c.reversed)) :=
        .after (Table.perform_comparator hname _) (answers_pure _)
      exact handsOut_of_gives hmake.gives
    · intro other d hother
      exact reads_comparator hname (perform_bind_ok (Table.perform_comparator hother _))
  · intro name v hname new watched hdone
    rw [← View.order_eq_layers]
    exact find?_of_ends (hs.comparator_of_bag hname) hdone
  · intro name u hname new watched hdone
    rw [← View.order_eq_layers]
    exact find?_of_ends (hs.comparator_of_elements hname) hdone
  · intro name h v hname hv
    exact ⟨stems_of_handle hcs hname (Handle.comparator?_of_view? hv), hreach.derived hname hv,
      fun path hpath => hpath.spec.2.2.layers_mod_two⟩

/-- The natural order is evaluated twice. The comparator of the reversed numbers goes back to the
first evaluation, and the other evaluation does not make the reverse of it. -/
theorem comparators_stem_threeReversed :
    let cs : List (Command Int) := [.bind "s" (.ofElements [1, 3, 5]),
      .bind "n" (.comparator .natural), .bind "d" (.view "s" .reversed)]
    let first : Comparator Int := ⟨0, .natural, false⟩
    let second : Comparator Int := ⟨1, .natural, false⟩
    Stems cs 0 0 first ∧ Stems cs 1 0 second ∧
      (first.reversed == second.reversed) = false ∧
      (first.reversed.reversed == first) = true ∧
      (after cs).Reads (.askComparator "n" (.equals "n")) (.flag true) ∧
      ((after cs).step [] (.bind "c" (.comparatorOf "d"))).2.table.find? "c" =
        some (.comparator first.reversed) := by
  intro cs first second
  have hcs : ∀ c ∈ cs, c.Valid := by
    simp [cs, Command.Valid, Making.Valid]
  obtain ⟨hequal, hhandles, hbags, -, -⟩ := comparators_stem hcs
  have hmade : Stems ([] ++ [.bind "s" (.ofElements [1, 3, 5])]) 0 0 first :=
    .evaluated (h := .bag (.source ⟨0, 0, first, .indexed⟩)) rfl rfl rfl rfl
  have hmade' : Stems ([.bind "s" (.ofElements [1, 3, 5])] ++ [.bind "n" (.comparator .natural)])
      1 0 second := .evaluated (h := .comparator second) rfl rfl rfl rfl
  let b : Source Int := ⟨0, 0, first, .indexed⟩
  have hs := (reachable_after hcs).sound
  have hb : (after cs).table.find? "s" = some (.bag (.source b)) := rfl
  have hd : (after cs).table.find? "d" = some (.bag (.descending (some 1) .weak (.source b))) := rfl
  have hn : (after cs).table.find? "n" = some (.comparator second) := rfl
  have hreach : (after cs).registry.canReach (.descending (some 1) .weak (.source b)) = true := by
    rw [Registry.canReach, View.canUpgrade_of_live (hs.live.find? hb) (by decide)]
    rfl
  have hfirst : Stems cs 0 0 first := (hmade.later _).later _
  have hsecond : Stems cs 1 0 second := hmade'.later _
  refine ⟨hfirst, hsecond, ?_, ?_, ?_, ?_⟩
  · rw [← Bool.not_eq_true, (hequal _ _ _ _ _ _ hfirst.reversed hsecond.reversed).1]
    simp
  · exact (hequal _ _ _ _ _ _ hfirst.reversed.reversed hfirst).1.mpr ⟨rfl, rfl⟩
  · exact (hhandles "n" second hn).2.2.2 "n" second hn
  · exact hbags "d" _ hd "c" [] (hs.handsOut hd hreach "c" []).1

end Session

end OrderedBag
