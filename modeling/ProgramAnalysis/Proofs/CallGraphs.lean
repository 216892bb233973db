import Mathlib.Order.Bounds.Basic
import ProgramAnalysis.CallGraph.Build
import ProgramAnalysis.Proofs.CallEdges
import ProgramAnalysis.Proofs.Resolution

/-!
# Call graphs are closures of resolution

The construction of a call graph has three sets of methods in hand: those that are reachable, those
on the queue and those that have been processed. A callee is put on the queue exactly when its edge
makes it reachable, so that the reachable methods are at all times those that have been processed,
followed by those on the queue. Once the queue is empty, all calls of all reachable methods have
been resolved.

The queue does become empty: no method is processed twice, and all of them but the entry are
declared, because a call is resolved to concrete methods only.

A call site can come up again, in the same body or in another one. Resolution gives the same answer
then, and none of its edges is new.
-/

namespace ProgramAnalysis.CallGraph

open Relation

variable {r : Registry} {t : ClassTable} {g : CallGraph} {entry m c : MethodRef}
  {site : CallSite} {sites : List CallSite} {e : CallEdge} {l : List MethodRef}

/-- A concrete method is declared in a class of the table. -/
theorem mem_allMethods_of_concrete? {d : ClassId} {s : Signature} (h : t.concrete? d s = some m) :
    m ∈ t.allMethods := by
  obtain ⟨⟨decl, hfind, -⟩, rfl⟩ := ClassTable.concrete?_eq_some_iff.mp h
  have hkeys : d ∈ t.classes.keys := by
    by_contra hd
    rw [ClassTable.decl_eq_of_notMem hd] at hfind
    simp at hfind
  refine List.mem_flatMap.mpr ⟨d, hkeys, List.mem_map.mpr ⟨s, ?_, rfl⟩⟩
  exact OrderedMap.mem_keys_iff.mpr ⟨decl, hfind⟩

/-- A call in the body of a method may run another method. -/
def Calls (r : Registry) (t : ClassTable) (m c : MethodRef) : Prop :=
  ∃ site ∈ t.callSites m, ∃ l, r.resolve t site.call = .ok l ∧ c ∈ l

instance (r : Registry) (t : ClassTable) (m c : MethodRef) : Decidable (Calls r t m c) :=
  decidable_of_iff (∃ site ∈ t.callSites m, ((r.resolve t site.call).toOption.any (c ∈ ·)) = true)
    (exists_congr fun site ↦ and_congr_right fun _ ↦ by
      cases r.resolve t site.call <;> simp [Except.toOption])

theorem Calls.mem_allMethods (h : Calls r t m c) : c ∈ t.allMethods := by
  obtain ⟨site, -, l, hl, hc⟩ := h
  obtain ⟨x, -, hdispatch⟩ := ((Registry.of_resolve_eq_ok hl).2 c).mp hc
  obtain ⟨d, hconcrete⟩ := ClassTable.exists_concrete_of_dispatch hdispatch
  exact mem_allMethods_of_concrete? hconcrete

/-! ## The edges of resolved call sites -/

theorem mem_map_edgeTo :
    e ∈ l.map (edgeTo site) ↔ e.site = site ∧ e.kind = site.call.kind ∧ e.callee ∈ l := by
  rw [List.mem_map]
  constructor
  · rintro ⟨c, hc, rfl⟩
    exact ⟨rfl, rfl, hc⟩
  · rintro ⟨rfl, hkind, hc⟩
    refine ⟨e.callee, hc, ?_⟩
    rw [edgeTo, ← hkind]

theorem nodup_map_edgeTo (site : CallSite) (hl : l.Nodup) : (l.map (edgeTo site)).Nodup :=
  hl.map fun _ _ h ↦ congrArg CallEdge.callee h

/-- The graph has the edges of the call sites in a list, and no others. -/
structure Linked (r : Registry) (t : ClassTable) (sites : List CallSite) (g : CallGraph) :
    Prop where
  mem_edges_iff : ∀ e, e ∈ g.edges ↔ e.site ∈ sites ∧ e.kind = e.site.call.kind ∧
    ∃ l, r.resolve t e.site.call = .ok l ∧ e.callee ∈ l
  callees_eq : ∀ site ∈ sites, r.resolve t site.call = .ok (g.callees site)

/-- Either all edges of a call site are new or none of them. -/
theorem Linked.filter_map_edgeTo (h : g.Linked r t sites) (hl : r.resolve t site.call = .ok l) :
    ((l.map (edgeTo site)).filter fun e ↦ e ∉ g.edges) =
      if site ∈ sites then [] else l.map (edgeTo site) := by
  have hmem : ∀ e ∈ l.map (edgeTo site), e ∈ g.edges ↔ site ∈ sites := by
    intro e he
    obtain ⟨rfl, hkind, hc⟩ := mem_map_edgeTo.mp he
    rw [h.mem_edges_iff]
    exact and_iff_left ⟨hkind, l, hl, hc⟩
  split
  · rename_i hsite
    rw [List.filter_eq_nil_iff]
    intro e he
    simpa using (hmem e he).mpr hsite
  · rename_i hsite
    rw [List.filter_eq_self]
    intro e he
    simpa using mt (hmem e he).mp hsite

theorem filter_map_edgeTo_self (site : CallSite) (l : List MethodRef) :
    ((l.map (edgeTo site)).filter fun e ↦ e.site = site) = l.map (edgeTo site) :=
  List.filter_eq_self.mpr fun _ he ↦ decide_eq_true (mem_map_edgeTo.mp he).1

theorem filter_map_edgeTo_of_ne {s : CallSite} (h : s ≠ site) (l : List MethodRef) :
    ((l.map (edgeTo site)).filter fun e ↦ e.site = s) = [] := by
  refine List.filter_eq_nil_iff.mpr fun e he ↦ ?_
  rw [decide_eq_true_eq, (mem_map_edgeTo.mp he).1]
  exact h.symm

theorem Linked.callees_eq_nil (h : g.Linked r t sites) (hg : g.Consistent) (hsite : site ∉ sites) :
    g.callees site = [] := by
  rw [hg.callees_eq, List.map_eq_nil_iff, List.filter_eq_nil_iff]
  intro e he
  rw [decide_eq_true_eq]
  rintro rfl
  exact hsite ((h.mem_edges_iff e).mp he).1

/-- The edges of one more call site are added, whether or not it has come up before. -/
theorem Linked.addEdges (h : g.Linked r t sites) (hg : g.Consistent)
    (hl : r.resolve t site.call = .ok l) :
    (g.addEdges (l.map (edgeTo site))).Linked r t (sites ++ [site]) := by
  have hg' := hg.addEdges (l.map (edgeTo site))
  have hedges := edges_addEdges g (nodup_map_edgeTo site (Registry.of_resolve_eq_ok hl).1)
  rw [h.filter_map_edgeTo hl] at hedges
  by_cases hsite : site ∈ sites
  · rw [if_pos hsite, List.append_nil] at hedges
    have hsites (s : CallSite) : s ∈ sites ++ [site] ↔ s ∈ sites := by
      rw [List.mem_append, List.mem_singleton]
      exact or_iff_left_of_imp fun he ↦ he ▸ hsite
    refine ⟨fun e ↦ ?_, fun s hs ↦ ?_⟩
    · rw [hedges, hsites, h.mem_edges_iff]
    · rw [hg'.callees_eq, hedges, ← hg.callees_eq]
      exact h.callees_eq s ((hsites s).mp hs)
  · rw [if_neg hsite] at hedges
    refine ⟨fun e ↦ ?_, fun s hs ↦ ?_⟩
    · rw [hedges, List.mem_append, List.mem_append, List.mem_singleton, h.mem_edges_iff,
        mem_map_edgeTo, or_and_right]
      refine or_congr_right (and_congr_right ?_)
      rintro rfl
      simp [hl]
    · rw [hg'.callees_eq, hedges, List.filter_append, List.map_append, ← hg.callees_eq]
      rcases List.mem_append.mp hs with hs | hs
      · have hne : s ≠ site := fun he ↦ hsite (he ▸ hs)
        rw [filter_map_edgeTo_of_ne hne, List.map_nil, List.append_nil]
        exact h.callees_eq s hs
      · obtain rfl := List.mem_singleton.mp hs
        rw [filter_map_edgeTo_self, h.callees_eq_nil hg hsite, List.nil_append, List.map_map, hl]
        exact congrArg Except.ok (List.map_id l).symm

/-! ## One step of the construction -/

namespace Construction

variable {s s' : Construction}

/-- The reachable methods of a construction are those that have been processed and those on the
queue, in this order, and calls lead from the entry to all of them. -/
structure Valid (r : Registry) (t : ClassTable) (entry : MethodRef) (s : Construction) : Prop where
  consistent : s.graph.Consistent
  reachable_eq : s.graph.reachable = s.processed ++ s.queue
  head?_eq : s.graph.reachable.head? = some entry
  reached : ∀ m ∈ s.graph.reachable, ReflTransGen (Calls r t) entry m

theorem valid_start (r : Registry) (t : ClassTable) (entry : MethodRef) :
    (start entry).Valid r t entry where
  consistent := consistent_empty.addEntry entry
  reachable_eq := rfl
  head?_eq := rfl
  reached m hm := by
    rw [List.mem_singleton.mp hm]

theorem graph_foldl_link (site : CallSite) (l : List MethodRef) (s : Construction) :
    (l.foldl (link site) s).graph = s.graph.addEdges (l.map (edgeTo site)) := by
  induction l generalizing s with
  | nil => rfl
  | cons c l ih => exact ih (link site s c)

theorem processed_foldl_link (site : CallSite) (l : List MethodRef) (s : Construction) :
    (l.foldl (link site) s).processed = s.processed := by
  induction l generalizing s with
  | nil => rfl
  | cons c l ih => exact ih (link site s c)

/-- A callee is put on the queue exactly when its edge makes it reachable. -/
theorem Valid.link (h : s.Valid r t entry) (hc : ReflTransGen (Calls r t) entry c) :
    (link site s c).Valid r t entry := by
  have hreachable : (Construction.link site s c).graph.reachable =
      if c ∈ s.graph.reachable then s.graph.reachable else s.graph.reachable ++ [c] :=
    h.consistent.reachable_addEdge (edgeTo site c)
  have hqueue : (Construction.link site s c).queue =
      if c ∈ s.graph.reachable then s.queue else s.queue ++ [c] := by
    simp only [Construction.link, contains, decide_eq_true_eq]
  have hprocessed : (Construction.link site s c).processed = s.processed := rfl
  refine ⟨h.consistent.addEdge _, ?_, ?_, ?_⟩
  · rw [hreachable, hqueue, hprocessed, h.reachable_eq]
    split
    · rfl
    · exact List.append_assoc _ _ _
  · rw [hreachable]
    split
    · exact h.head?_eq
    · rw [List.head?_append, h.head?_eq]
      rfl
  · rw [hreachable]
    split
    · exact h.reached
    · exact List.forall_mem_append.mpr ⟨h.reached, List.forall_mem_singleton.mpr hc⟩

/-- A valid construction whose graph has the edges of the call sites in a list. -/
structure Underway (r : Registry) (t : ClassTable) (entry : MethodRef) (sites : List CallSite)
    (s : Construction) : Prop extends s.Valid r t entry where
  linked : s.graph.Linked r t sites

theorem underway_start (r : Registry) (t : ClassTable) (entry : MethodRef) :
    (start entry).Underway r t entry ((start entry).processed.flatMap t.callSites) where
  toValid := valid_start r t entry
  linked := ⟨fun e ↦ by simp [start, addEntry, addReachable], fun _ h ↦ absurd h List.not_mem_nil⟩

theorem Underway.visit (h : s.Underway r t entry sites)
    (hm : ReflTransGen (Calls r t) entry m) (hsite : site ∈ t.callSites m)
    (hs' : visit r t s site = .ok s') :
    s'.Underway r t entry (sites ++ [site]) ∧ s'.processed = s.processed := by
  rw [Construction.visit] at hs'
  obtain ⟨l, hl, hs'⟩ := exists_of_bind_eq_ok hs'
  obtain rfl := Except.ok.inj hs'
  -- what is noted plays no part
  have hnoted : ({ s with notes := s.notes ++ Note.ofResolution site l } : Construction).Valid
      r t entry := ⟨h.consistent, h.reachable_eq, h.head?_eq, h.reached⟩
  refine ⟨⟨?_, ?_⟩, processed_foldl_link site l _⟩
  · exact List.foldlRecOn l _ hnoted fun s hs c hc ↦ hs.link (hm.tail ⟨site, hsite, l, hl, hc⟩)
  · rw [graph_foldl_link]
    exact h.linked.addEdges h.consistent hl

theorem exists_visit (hl : ∃ l, r.resolve t site.call = .ok l) (s : Construction) :
    ∃ s', visit r t s site = .ok s' := by
  obtain ⟨l, hl⟩ := hl
  rw [visit, hl]
  exact ⟨_, rfl⟩

theorem Underway.visits {l : List CallSite} (h : s.Underway r t entry sites)
    (hm : ReflTransGen (Calls r t) entry m) (hl : ∀ site ∈ l, site ∈ t.callSites m)
    (hs' : l.foldlM (Construction.visit r t) s = .ok s') :
    s'.Underway r t entry (sites ++ l) ∧ s'.processed = s.processed := by
  induction l generalizing s sites with
  | nil =>
    obtain rfl := Except.ok.inj hs'
    rw [List.append_nil]
    exact ⟨h, rfl⟩
  | cons site l ih =>
    rw [List.foldlM_cons] at hs'
    obtain ⟨s₁, hs₁, hs'⟩ := exists_of_bind_eq_ok hs'
    obtain ⟨h₁, hprocessed₁⟩ := h.visit hm (hl site List.mem_cons_self) hs₁
    obtain ⟨h', hprocessed⟩ := ih h₁ (fun s hs ↦ hl s (List.mem_cons_of_mem site hs)) hs'
    rw [List.append_assoc, List.singleton_append] at h'
    exact ⟨h', hprocessed.trans hprocessed₁⟩

/-- To process the first method on the queue adds the edges of its call sites. -/
theorem Underway.process {queue : List MethodRef}
    (h : s.Underway r t entry (s.processed.flatMap t.callSites)) (hqueue : s.queue = m :: queue)
    (hs' : process r t { s with queue := queue } m = .ok s') :
    s'.Underway r t entry (s'.processed.flatMap t.callSites) ∧
      s'.processed = s.processed ++ [m] := by
  have hreachable := h.reachable_eq
  rw [hqueue] at hreachable
  have hmem : m ∈ s.graph.reachable := by simp [hreachable]
  have hfresh : m ∉ s.processed := by
    have hnodup := h.consistent.nodup_reachable
    rw [hreachable, List.nodup_append] at hnodup
    exact fun hm ↦ hnodup.2.2 m hm m List.mem_cons_self rfl
  have htaken : ({ s with queue := queue, processed := s.processed ++ [m] } :
      Construction).Underway r t entry (s.processed.flatMap t.callSites) :=
    ⟨⟨h.consistent, by simp [hreachable], h.head?_eq, h.reached⟩, h.linked⟩
  rw [Construction.process, if_neg hfresh, addReachable_of_mem hmem] at hs'
  obtain ⟨h', hprocessed⟩ := htaken.visits (h.reached m hmem) (fun _ hs ↦ hs) hs'
  rw [hprocessed, List.flatMap_append, List.flatMap_singleton]
  exact ⟨h', rfl⟩

/-! ## The whole construction -/

theorem mem_cons_allMethods_of_reached (h : ReflTransGen (Calls r t) entry m) :
    m ∈ entry :: t.allMethods := by
  rcases ReflTransGen.cases_tail h with rfl | ⟨_, -, hcall⟩
  · exact List.mem_cons_self
  · exact List.mem_cons_of_mem entry hcall.mem_allMethods

theorem Valid.length_processed_add_le (h : s.Valid r t entry) :
    s.processed.length + s.queue.length ≤ t.allMethods.length + 1 := by
  rw [← List.length_append, ← h.reachable_eq]
  have hsubset : s.graph.reachable ⊆ entry :: t.allMethods := fun m hm ↦
    mem_cons_allMethods_of_reached (h.reached m hm)
  exact (h.consistent.nodup_reachable.subperm hsubset).length_le

/-- A construction that may take as many methods as there are ends with an empty queue. -/
theorem Underway.run {fuel : ℕ} (h : s.Underway r t entry (s.processed.flatMap t.callSites))
    (hfuel : t.allMethods.length + 1 ≤ fuel + s.processed.length)
    (hs' : run r t fuel s = .ok s') :
    s'.Underway r t entry (s'.processed.flatMap t.callSites) ∧ s'.queue = [] := by
  induction fuel generalizing s with
  | zero =>
    have hlength := h.length_processed_add_le
    obtain rfl := Except.ok.inj hs'
    exact ⟨h, List.eq_nil_of_length_eq_zero (by omega)⟩
  | succ fuel ih =>
    rw [Construction.run] at hs'
    split at hs'
    · rename_i hqueue
      obtain rfl := Except.ok.inj hs'
      exact ⟨h, hqueue⟩
    · rename_i m queue hqueue
      obtain ⟨s₁, hs₁, hs'⟩ := exists_of_bind_eq_ok hs'
      obtain ⟨h₁, hprocessed⟩ := h.process hqueue hs₁
      refine ih h₁ ?_ hs'
      rw [hprocessed, List.length_append, List.length_singleton]
      omega

theorem exists_process (hresolve : ∀ site ∈ t.callSites m, ∃ l, r.resolve t site.call = .ok l)
    (s : Construction) : ∃ s', process r t s m = .ok s' := by
  rw [process]
  split
  · exact ⟨s, rfl⟩
  · exact exists_foldlM_eq_ok (fun site hsite s ↦ exists_visit (hresolve site hsite) s) _

/-- A construction comes to an end if all calls that it meets can be resolved. -/
theorem Underway.exists_run (h : s.Underway r t entry (s.processed.flatMap t.callSites))
    (hresolve : ∀ m, ReflTransGen (Calls r t) entry m → ∀ site ∈ t.callSites m,
      ∃ l, r.resolve t site.call = .ok l) (fuel : ℕ) :
    ∃ s', Construction.run r t fuel s = .ok s' := by
  induction fuel generalizing s with
  | zero => exact ⟨s, rfl⟩
  | succ fuel ih =>
    rw [Construction.run]
    split
    · exact ⟨s, rfl⟩
    · rename_i m queue hqueue
      have hreached : ReflTransGen (Calls r t) entry m :=
        h.reached m (by simp [h.reachable_eq, hqueue])
      obtain ⟨s₁, hs₁⟩ := exists_process (hresolve m hreached) { s with queue := queue }
      rw [hs₁]
      exact ih (h.process hqueue hs₁).1

end Construction

/-- The graph is the closure of resolution from an entry method. -/
structure Exact (r : Registry) (t : ClassTable) (entry : MethodRef) (g : CallGraph) : Prop where
  nodup_reachable : g.reachable.Nodup
  head?_reachable : g.reachable.head? = some entry
  isLeast_reachable :
    IsLeast {S : Set MethodRef | entry ∈ S ∧ ∀ m ∈ S, ∀ c, Calls r t m c → c ∈ S}
      {m | m ∈ g.reachable}
  nodup_edges : g.edges.Nodup
  mem_edges_iff : ∀ e, e ∈ g.edges ↔ (∃ m ∈ g.reachable, e.site ∈ t.callSites m) ∧
    e.kind = e.site.call.kind ∧ ∃ l, r.resolve t e.site.call = .ok l ∧ e.callee ∈ l
  callees_eq : ∀ m ∈ g.reachable, ∀ site ∈ t.callSites m,
    r.resolve t site.call = .ok (g.callees site)

/-- When nothing is left on the queue, the graph is the closure. -/
theorem Construction.Underway.exact {s : Construction}
    (h : s.Underway r t entry (s.processed.flatMap t.callSites)) (hqueue : s.queue = []) :
    s.graph.Exact r t entry := by
  have hreachable := h.reachable_eq
  rw [hqueue, List.append_nil] at hreachable
  have hmem_edges (e : CallEdge) : e ∈ s.graph.edges ↔
      (∃ m ∈ s.graph.reachable, e.site ∈ t.callSites m) ∧
        e.kind = e.site.call.kind ∧ ∃ l, r.resolve t e.site.call = .ok l ∧ e.callee ∈ l := by
    rw [h.linked.mem_edges_iff, List.mem_flatMap, hreachable]
  refine ⟨h.consistent.nodup_reachable, h.head?_eq, ⟨⟨?_, ?_⟩, ?_⟩, h.consistent.nodup_edges,
    hmem_edges, ?_⟩
  · exact List.mem_of_head? h.head?_eq
  · rintro m hm c ⟨site, hsite, l, hl, hc⟩
    have hedge : edgeTo site c ∈ s.graph.edges :=
      (hmem_edges _).mpr ⟨⟨m, hm, hsite⟩, rfl, l, hl, hc⟩
    exact h.consistent.callee_mem _ hedge
  · rintro S ⟨hentry, hclosed⟩ m hm
    have hpath := h.reached m hm
    clear hm
    induction hpath with
    | refl => exact hentry
    | tail _ hcall ih => exact hclosed _ ih _ hcall
  · intro m hm site hsite
    rw [hreachable] at hm
    exact h.linked.callees_eq site (List.mem_flatMap.mpr ⟨m, hm, hsite⟩)

/-- What the construction builds is the closure of resolution. -/
theorem exact_of_build_eq_ok {id : String} {notes : List Note}
    (h : build r t id entry = .ok (g, notes)) : g.Exact r t entry := by
  rw [build] at h
  obtain ⟨s, hs, h⟩ := exists_of_bind_eq_ok h
  obtain ⟨rfl, -⟩ := Prod.mk.inj (Except.ok.inj h)
  obtain ⟨h, hqueue⟩ :=
    (Construction.underway_start r t entry).run (by simp [Construction.start]) hs
  exact h.exact hqueue

/-- If no search for a method fails that is made for a call in the body of a method to which calls
lead from the entry, the call graph is built, and it is the closure of resolution. -/
theorem exists_build_exact (r : Registry) (t : ClassTable) (id : String) (entry : MethodRef)
    (h : ∀ m, ReflTransGen (Calls r t) entry m → ∀ site ∈ t.callSites m,
      ∀ x ∈ r.receivers site.call, ∃ o, t.dispatch x site.call.target.signature = .ok o) :
    ∃ g notes, build r t id entry = .ok (g, notes) ∧ g.Exact r t entry := by
  obtain ⟨s, hs⟩ := (Construction.underway_start r t entry).exists_run
    (fun m hm site hsite ↦ Registry.exists_resolve (h m hm site hsite)) (t.allMethods.length + 1)
  have hbuild : ∃ notes, build r t id entry = .ok (s.graph, notes) := by
    rw [build, hs]
    exact ⟨_, rfl⟩
  obtain ⟨notes, hbuild⟩ := hbuild
  exact ⟨s.graph, notes, hbuild, exact_of_build_eq_ok hbuild⟩

/-! ## Methods that call each other

Two methods call each other; the entry method calls the first of them twice by one statement, then
a method of a class that is not registered, and then itself. -/

/-- The method `void name()` of the class `Parity`. -/
def parityMethod (name : String) : MethodRef := ⟨⟨"Parity", 0⟩, ⟨name, [], none⟩⟩

/-- A static call of a method as a statement. -/
def callOf (m : MethodRef) : Stmt := .invoke ⟨.static, m, none, []⟩ none

/-- The class `Parity` with the methods `main`, `even` and `odd`, and `native` without a body. -/
def parity : ClassTable where
  classes := .ofList
    [(⟨"Parity", 0⟩,
      { methods := .ofList
          [(⟨"main", [], none⟩, ⟨false, true, 1, some
              { owner := some (parityMethod "main")
                revision := 1
                slots :=
                  [⟨0, callOf (parityMethod "even")⟩, ⟨0, callOf (parityMethod "even")⟩,
                    ⟨2, callOf ⟨⟨"Absent", 1⟩, ⟨"run", [], none⟩⟩⟩,
                    ⟨3, callOf (parityMethod "main")⟩] }⟩),
            (⟨"even", [], none⟩, ⟨false, true, 1, some
              { owner := some (parityMethod "even")
                revision := 1
                slots :=
                  [⟨0, callOf (parityMethod "odd")⟩, ⟨1, callOf (parityMethod "native")⟩] }⟩),
            (⟨"odd", [], none⟩, ⟨false, true, 1, some
              { owner := some (parityMethod "odd")
                revision := 1
                slots := [⟨0, callOf (parityMethod "even")⟩] }⟩),
            (⟨"native", [], none⟩, ⟨false, true, 0, none⟩)] })]

/-- The registry of `Parity`. -/
def parityRegistry : Registry := .withClasses parity [⟨"Parity", 0⟩]

/-- All four methods are reachable. -/
theorem exists_build_exact_parity : ∃ g notes,
    build parityRegistry parity "cha" (parityMethod "main") = .ok (g, notes) ∧
      g.Exact parityRegistry parity (parityMethod "main") ∧
      parityMethod "native" ∈ g.reachable := by
  obtain ⟨g, notes, hbuild, hexact⟩ := exists_build_exact parityRegistry parity "cha"
    (parityMethod "main") fun m _ site _ x _ ↦
      ClassTable.exists_dispatch fun y _ ↦ ClassTable.not_transGen_handsOn
        (ClassTable.not_transGen_superclass (by decide +kernel) y)
  refine ⟨g, notes, hbuild, hexact, ?_⟩
  obtain ⟨hentry, hclosed⟩ := hexact.isLeast_reachable.1
  have heven : parityMethod "even" ∈ g.reachable := hclosed _ hentry _ (by decide +kernel)
  exact hclosed _ heven _ (by decide +kernel)

end ProgramAnalysis.CallGraph
