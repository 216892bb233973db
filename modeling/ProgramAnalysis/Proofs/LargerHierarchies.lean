import ProgramAnalysis.Proofs.CallGraphs

/-!
# Call graphs over larger hierarchies

A registry says of a class what is below it, and with more classes registered there is more below
it. The search for the classes below the target of a call passes over names that it has met. An
additional class cannot hide another one by this: registered classes have different names, and a
class with the name of the target is passed over in any case, be it the only one registered.

So calls resolve to more methods, and since a call graph is a least closure, it has more methods and
more edges. Two registries with the same classes are larger than each other: the order in which they
were registered shows in the order of the methods and the edges only.
-/

namespace ProgramAnalysis

section

variable {t : ClassTable} {r r' : Registry} {call : Call} {entry : MethodRef} {g g' : CallGraph}
  (hr : r.Filled t) (hr' : r'.Filled t) (h : ∀ c, r.contains c = true → r'.contains c = true)

include hr hr' h

/-! ## What more classes add -/

namespace Registry

open Relation

theorem below_subset (d : ClassId) : r.below d ⊆ r'.below d := by
  intro x hx
  obtain ⟨hcontains, hextends⟩ := hr.mem_below_iff.mp hx
  exact hr'.mem_below_iff.mpr ⟨h x hcontains, hextends⟩

theorem cone_subset (c : ClassId) : r.cone c ⊆ r'.cone c := by
  intro x hx
  refine hr'.mem_cone_iff.mpr ((hr.mem_cone_iff.mp hx).imp_right ?_)
  rintro ⟨hname, hpath⟩
  exact ⟨hname, ReflTransGen.mono (fun a _ hb ↦ below_subset hr hr' h a hb) _ _ hpath⟩

theorem receivers_subset (call : Call) : r.receivers call ⊆ r'.receivers call := by
  rw [receivers, receivers]
  split
  · exact cone_subset hr hr' h call.target.owner
  · exact List.Subset.refl _

theorem resolve_subset {l l' : List MethodRef} (hl : r.resolve t call = .ok l)
    (hl' : r'.resolve t call = .ok l') : l ⊆ l' := by
  intro m hm
  obtain ⟨x, hx, hdispatch⟩ := ((of_resolve_eq_ok hl).2 m).mp hm
  exact ((of_resolve_eq_ok hl').2 m).mpr ⟨x, receivers_subset hr hr' h call hx, hdispatch⟩

end Registry

namespace CallGraph.Exact

/-- The closure over more classes is closed under the calls that are resolved over fewer. -/
theorem reachable_subset (hg : g.Exact r t entry) (hg' : g'.Exact r' t entry) :
    g.reachable ⊆ g'.reachable := by
  obtain ⟨hentry, hclosed⟩ := hg'.isLeast_reachable.1
  refine hg.isLeast_reachable.2 ⟨hentry, ?_⟩
  rintro m hm c ⟨site, hsite, l, hl, hc⟩
  have hl' := hg'.callees_eq m hm site hsite
  exact hclosed m hm c ⟨site, hsite, _, hl', Registry.resolve_subset hr hr' h hl hl' hc⟩

theorem edges_subset (hg : g.Exact r t entry) (hg' : g'.Exact r' t entry) :
    g.edges ⊆ g'.edges := by
  intro e he
  obtain ⟨⟨m, hm, hsite⟩, hkind, l, hl, hc⟩ := (hg.mem_edges_iff e).mp he
  have hm' := hg.reachable_subset hr hr' h hg' hm
  have hl' := hg'.callees_eq m hm' e.site hsite
  exact (hg'.mem_edges_iff e).mpr
    ⟨⟨m, hm', hsite⟩, hkind, _, hl', Registry.resolve_subset hr hr' h hl hl' hc⟩

end CallGraph.Exact

end

namespace CallGraph

open Registry

variable {t : ClassTable} {r r' : Registry} {entry : MethodRef} {g g' : CallGraph}
  {id id' : String} {notes notes' : List Note}

/-! ## Two call graphs of one entry method -/

/-- The call graph over a larger hierarchy has all methods and all edges. -/
theorem build_subset (hr : Filled t r) (hr' : Filled t r')
    (h : ∀ c, r.contains c = true → r'.contains c = true)
    (hg : build r t id entry = .ok (g, notes)) (hg' : build r' t id' entry = .ok (g', notes')) :
    g.reachable ⊆ g'.reachable ∧ g.edges ⊆ g'.edges := by
  have hexact := exact_of_build_eq_ok hg
  have hexact' := exact_of_build_eq_ok hg'
  exact ⟨hexact.reachable_subset hr hr' h hexact', hexact.edges_subset hr hr' h hexact'⟩

/-- In whatever order classes are registered, a call graph has the same methods and edges. -/
theorem build_perm {l l' : List ClassId} (hl : l.Perm l') (hr : ofList t l = .ok r)
    (hr' : ofList t l' = .ok r') (hg : build r t id entry = .ok (g, notes))
    (hg' : build r' t id' entry = .ok (g', notes')) :
    g.reachable.Perm g'.reachable ∧ g.edges.Perm g'.edges := by
  obtain ⟨hr, hmem⟩ := of_ofList_eq_ok hr
  obtain ⟨hr', hmem'⟩ := of_ofList_eq_ok hr'
  have h : ∀ c, r.contains c = true ↔ r'.contains c = true := fun c ↦ by
    rw [hmem, hmem', hl.mem_iff]
  have hexact := exact_of_build_eq_ok hg
  have hexact' := exact_of_build_eq_ok hg'
  constructor
  · refine (List.perm_ext_iff_of_nodup hexact.nodup_reachable hexact'.nodup_reachable).mpr ?_
    exact fun m ↦ ⟨fun hm ↦ hexact.reachable_subset hr hr' (fun c ↦ (h c).mp) hexact' hm,
      fun hm ↦ hexact'.reachable_subset hr' hr (fun c ↦ (h c).mpr) hexact hm⟩
  · refine (List.perm_ext_iff_of_nodup hexact.nodup_edges hexact'.nodup_edges).mpr ?_
    exact fun e ↦ ⟨fun he ↦ hexact.edges_subset hr hr' (fun c ↦ (h c).mp) hexact' he,
      fun he ↦ hexact'.edges_subset hr' hr (fun c ↦ (h c).mpr) hexact he⟩

/-! ## A hierarchy without its top

A method calls `area` on a `Shape`. Neither `Shape` nor the class from which `Disc` inherits `area`
has to be registered for the call to find the method; the one of `Coin` is found in addition as soon
as `Coin` is registered. -/

/-- The method `main` of the class `Gallery`. -/
def galleryMain : MethodRef := ⟨⟨"Gallery", 6⟩, ⟨"main", [], none⟩⟩

/-- The classes of `shapes`, and `Gallery` whose method `main` calls `area` on a `Shape`. -/
def gallery : ClassTable where
  classes := shapes.classes.insert galleryMain.owner
    { methods := .ofList
        [(galleryMain.signature, ⟨false, true, 1, some
          { owner := some galleryMain
            revision := 1
            slots := [⟨0, .invoke areaOfShape none⟩] }⟩)] }

/-- `Gallery` and `Disc`, and of all that `Disc` inherits from only `Round`. -/
def smallRegistry : Registry :=
  withClasses gallery [⟨"Gallery", 6⟩, ⟨"Disc", 4⟩, ⟨"Round", 1⟩]

/-- These classes in another order, with `Shape` and `Coin` in addition. -/
def largeRegistry : Registry :=
  withClasses gallery [⟨"Coin", 5⟩, ⟨"Round", 1⟩, ⟨"Shape", 0⟩, ⟨"Disc", 4⟩, ⟨"Gallery", 6⟩]

theorem filled_smallRegistry : Filled gallery smallRegistry :=
  filled_withClasses (by decide)

theorem filled_largeRegistry : Filled gallery largeRegistry :=
  filled_withClasses (by decide)

/-- The method that `Disc` inherits is found over both registries, that of `Coin` over one. -/
theorem build_subset_gallery : ∃ g notes g' notes',
    build smallRegistry gallery "cha" galleryMain = .ok (g, notes) ∧
      build largeRegistry gallery "cha" galleryMain = .ok (g', notes') ∧
      g.reachable ⊆ g'.reachable ∧ g.edges ⊆ g'.edges ∧
      ⟨⟨"Base", 3⟩, area⟩ ∈ g.reachable ∧ ⟨⟨"Coin", 5⟩, area⟩ ∉ g.reachable := by
  have hcontains : ∀ c, smallRegistry.contains c = true → largeRegistry.contains c = true := by
    have hall : ∀ c ∈ smallRegistry.all, largeRegistry.contains c = true := by decide +kernel
    exact fun c hc ↦ hall c (mem_all_of_contains hc)
  obtain ⟨⟨g, notes⟩, hg, hreachable⟩ := exists_of_any_toOption
    (r := build smallRegistry gallery "cha" galleryMain)
    (p := fun b ↦ decide (⟨⟨"Base", 3⟩, area⟩ ∈ b.1.reachable ∧
      ⟨⟨"Coin", 5⟩, area⟩ ∉ b.1.reachable)) (by decide +kernel)
  obtain ⟨⟨g', notes'⟩, hg', -⟩ := exists_of_any_toOption
    (r := build largeRegistry gallery "cha" galleryMain) (p := fun _ ↦ true) (by decide +kernel)
  obtain ⟨hsubset, hedges⟩ :=
    build_subset filled_smallRegistry filled_largeRegistry hcontains hg hg'
  exact ⟨g, notes, g', notes', hg, hg', hsubset, hedges, of_decide_eq_true hreachable⟩

end CallGraph

end ProgramAnalysis
