import QueryPlan.Proofs.Detached

/-!
# Joining linked plans

- `Bound`: two plans with a link between them.
- `bound_of_linkBetween`: what the link between two plans says.
- `joinLinkedWith_ok`: the plans are merged with a tree of their marked copies.
- `joinLaw_linked`: joins of linked plans keep the rows.
-/

namespace QueryPlan

universe u

variable {V : Type u} {db : Database V} {val : Valuation V} {wiring : Wiring} {linked : Bool}
  {tables : List TablePlan} {l r : TablePlan}

/-! ## The link between two plans -/

/-- The plans have a link of a type between them, and its condition on both ends is `on` in
effect. -/
structure Bound (val : Valuation V) (joinType : JoinType) (on : Option Expr) (l r : TablePlan) :
    Prop where
  forth : ∃ link, l.right = some link ∧ link.target = r.id ∧ link.joinType = joinType ∧
    ∀ x, val.meets link.on x ↔ val.meets on x
  back : ∃ link, r.left = some link ∧ link.target = l.id ∧ link.joinType = joinType ∧
    ∀ x, val.meets link.on x ↔ val.meets on x
  plain : ∀ e, on = some e → e.hasSubQuery = false

/-- What a link between two plans says of them, in a tidy set. -/
theorem JoinLink.Between.bound {link : JoinLink} (h : link.Between l r)
    (ht : Tidy db val wiring linked tables) (hl : l ∈ tables) (hr : r ∈ tables) :
    Bound val link.joinType link.on l r := by
  rcases h with ⟨hlink, htarget⟩ | ⟨hlink, htarget⟩
  · obtain ⟨q, hq, hid, -, back, hback, hbt, htype, hon⟩ :=
      ht.links.answered .right l hl link hlink
    obtain rfl := ht.eq_of_id hq hr (hid.trans htarget)
    exact ⟨⟨link, hlink, htarget, rfl, fun _ => Iff.rfl⟩, ⟨back, hback, hbt, htype, hon⟩,
      fun e he => (ht.links.reads .right l hl link hlink e he).1⟩
  · obtain ⟨q, hq, hid, -, back, hback, hbt, htype, hon⟩ :=
      ht.links.answered .left r hr link hlink
    obtain rfl := ht.eq_of_id hq hl (hid.trans htarget)
    exact ⟨⟨back, hback, hbt, htype, hon⟩, ⟨link, hlink, htarget, rfl, fun _ => Iff.rfl⟩,
      fun e he => (ht.links.reads .left r hr link hlink e he).1⟩

/-- What the link between two plans says, with its sides. -/
theorem bound_of_linkBetween (ht : Tidy db val wiring linked tables) {a b : TablePlan}
    (ha : a ∈ tables) (hb : b ∈ tables) {sided : SidedLink} (h : linkBetween a b = some sided) :
    ∃ l ∈ tables, ∃ r ∈ tables, (∀ id, id ∈ [a.id, b.id] ↔ id ∈ [l.id, r.id]) ∧
      sided.left = l.id ∧ sided.right = r.id ∧
      Bound val sided.link.joinType sided.link.on l r := by
  obtain ⟨l, r, hsides, hleft, hright, hlink⟩ := between_of_linkBetween h
  rcases hsides with ⟨rfl, rfl⟩ | ⟨rfl, rfl⟩
  · exact ⟨l, ha, r, hb, fun _ => Iff.rfl, hleft, hright, hlink.bound ht ha hb⟩
  · refine ⟨l, hb, r, ha, fun id => ?_, hleft, hright, hlink.bound ht hb ha⟩
    rw [List.mem_pair, List.mem_pair, or_comm]

/-! ## Marked plans -/

/-- The plan, with a mark on its rows if it is the one to be marked. -/
def TablePlan.withMark (marked : Option (PlanId × String)) (p : TablePlan) : TablePlan :=
  match marked with
  | none => p
  | some (kept, mark) => if p.id = kept then p.update (.cacheMark · mark) else p

/-- The plan whose rows are kept is marked. -/
theorem TablePlan.withMark_of_eq {p : TablePlan} {kept : PlanId} {mark : String}
    (h : p.id = kept) : p.withMark (some (kept, mark)) = p.update (.cacheMark · mark) := if_pos h

/-- Every other plan stays as it is. -/
theorem TablePlan.withMark_of_ne {p : TablePlan} {kept : PlanId} {mark : String}
    (h : p.id ≠ kept) : p.withMark (some (kept, mark)) = p := if_neg h

section

variable (marked : Option (PlanId × String)) (p : TablePlan)

/-- A mark changes no more than the tree. -/
theorem TablePlan.withMark_eq :
    p.withMark marked = p ∨ ∃ mark, p.withMark marked = p.update (.cacheMark · mark) := by
  rcases marked with _ | ⟨kept, mark⟩
  · exact Or.inl rfl
  · by_cases h : p.id = kept
    · exact Or.inr ⟨mark, withMark_of_eq h⟩
    · exact Or.inl (withMark_of_ne h)

@[simp] theorem TablePlan.withMark_id : (p.withMark marked).id = p.id := by
  rcases p.withMark_eq marked with h | ⟨mark, h⟩
  · rw [h]
  · rw [h]
    rfl

@[simp] theorem TablePlan.withMark_columns : (p.withMark marked).columns = p.columns := by
  rcases p.withMark_eq marked with h | ⟨mark, h⟩
  · rw [h]
  · rw [h]
    rfl

@[simp] theorem TablePlan.withMark_rows :
    (p.withMark marked).executable.rows db val = p.executable.rows db val := by
  rcases p.withMark_eq marked with h | ⟨mark, h⟩
  · rw [h]
  · rw [h]
    rfl

@[simp] theorem TablePlan.withMark_sources :
    (p.withMark marked).executable.sources = p.executable.sources := by
  rcases p.withMark_eq marked with h | ⟨mark, h⟩
  · rw [h]
  · rw [h]
    rfl

/-- A marked plan is a proper one. -/
theorem TablePlan.Proper.withMark {p : TablePlan} (h : p.Proper db val) :
    (p.withMark marked).Proper db val := by
  rcases p.withMark_eq marked with heq | ⟨mark, heq⟩
  · rw [heq]
    exact h
  · rw [heq]
    exact ⟨h.nodup, h.columns, h.rows_over⟩

/-- Marks are on the trees, so they are not seen of a merge with a tree of its own. -/
theorem mergedPlan_withMark (m : PlanId) (l r : TablePlan) (tree : PlanNode) :
    (mergedPlan m (l.withMark marked) (r.withMark marked) fun _ _ => tree) =
      mergedPlan m l r fun _ _ => tree := by
  rcases l.withMark_eq marked with hl | ⟨_, hl⟩ <;>
    rcases r.withMark_eq marked with hr | ⟨_, hr⟩ <;> rw [hl, hr] <;> rfl

end

/-- A mark on one of two plans is of no matter once these are merged. -/
theorem mergedTables_withMark {marked : Option (PlanId × String)} {m : PlanId} {tree : PlanNode}
    (hkept : ∀ x, marked = some x → x.1 = l.id ∨ x.1 = r.id) :
    mergedTables (tables.map (TablePlan.withMark marked)) (l.withMark marked) (r.withMark marked) m
      tree = mergedTables tables l r m tree := by
  have hother : ∀ p : TablePlan, p.id ≠ l.id → p.id ≠ r.id → p.withMark marked = p := by
    intro p hl hr
    rcases marked with _ | ⟨kept, mark⟩
    · rfl
    · refine TablePlan.withMark_of_ne fun hid => ?_
      rcases hkept _ rfl with h | h
      · exact hl (hid.trans h)
      · exact hr (hid.trans h)
  unfold mergedTables
  rw [mergedPlan_withMark, List.filter_map, TablePlan.withMark_id, TablePlan.withMark_id]
  congr 2
  rw [List.map_congr_left (g := id), List.map_id]
  · refine List.filter_congr fun p _ => ?_
    simp only [Function.comp_apply, TablePlan.withMark_id]
  · intro p hp
    simp only [List.mem_filter, Function.comp_apply, TablePlan.withMark_id,
      decide_eq_true_eq] at hp
    exact hother p hp.2.1 hp.2.2

namespace Planner

/-- To put a mark on the set puts it on the plan that it is for. -/
theorem putMark_ok {marked : Option (PlanId × String)} {w w' : Workspace} {u : Unit}
    (h : putMark marked w = .ok u w') :
    w' = { w with
      set := { w.set with tables := w.set.tables.map (TablePlan.withMark marked) } } := by
  rcases marked with _ | ⟨kept, mark⟩
  · simp only [putMark, pure_ok] at h
    obtain ⟨-, rfl⟩ := h
    have hsame : TablePlan.withMark none = fun p => p := rfl
    rw [hsame, List.map_id']
  · simp only [putMark, changePlan_ok] at h
    exact h.2

/-- What a new mark is for. -/
theorem newMark_ok {joinType : JoinType} {left right : PlanId} {marked : Option (PlanId × String)}
    {w w' : Workspace} (h : newMark joinType left right w = .ok marked w') :
    (joinType = .inner ∧ marked = none ∧ w' = w) ∨
      ∃ kept, (joinType = .left ∧ kept = left ∨ joinType = .right ∧ kept = right) ∧
        marked = some (kept, w.context.markers.next.1) ∧
        w' = { w with context := { w.context with markers := w.context.markers.next.2 } } := by
  cases joinType with
  | inner =>
    simp only [newMark, pure_ok] at h
    exact Or.inl ⟨rfl, h⟩
  | left =>
    simp only [newMark, bind_ok, nextMarker_ok, pure_ok] at h
    obtain ⟨_, _, ⟨rfl, rfl⟩, rfl, rfl⟩ := h
    exact Or.inr ⟨left, Or.inl ⟨rfl, rfl⟩, rfl, rfl⟩
  | right =>
    simp only [newMark, bind_ok, nextMarker_ok, pure_ok] at h
    obtain ⟨_, _, ⟨rfl, rfl⟩, rfl, rfl⟩ := h
    exact Or.inr ⟨right, Or.inr ⟨rfl, rfl⟩, rfl, rfl⟩
  | full => simp only [newMark, throw_ok] at h

/-- A new mark only changes the context. -/
theorem exists_context_of_newMark {joinType : JoinType} {left right : PlanId}
    {marked : Option (PlanId × String)} {w w' : Workspace}
    (h : newMark joinType left right w = .ok marked w') : ∃ c, w' = { w with context := c } := by
  rcases newMark_ok h with ⟨-, -, rfl⟩ | ⟨kept, -, -, rfl⟩
  · exact ⟨_, rfl⟩
  · exact ⟨_, rfl⟩

/-- Two linked plans are merged with a tree that was planned over copies of them, one of which is
marked for an outer join. -/
theorem joinLinkedWith_ok {condition : ConditionPlanner} {joinType : JoinType} {on : Option Expr}
    {id : PlanId} {w w' : Workspace} (hnodup : (w.set.tables.map TablePlan.id).Nodup)
    (hl : l ∈ w.set.tables) (hr : r ∈ w.set.tables)
    (h : joinLinkedWith condition joinType on l.id r.id w = .ok id w') :
    ∃ marked c tree w₁, newMark joinType l.id r.id w = .ok marked { w with context := c } ∧
      condition on ⟨⟨[(l.withMark marked).detached ⟨c.supply.next⟩,
        (r.withMark marked).detached ⟨c.supply.next + 1⟩], true⟩,
        { c with supply := ⟨c.supply.next + 2⟩ }⟩ = .ok tree w₁ ∧
      l.id ≠ r.id ∧ id = ⟨w₁.context.supply.next⟩ ∧
      w' = ⟨⟨mergedTables w.set.tables l r id (addBack marked tree), true⟩,
        { w₁.context with supply := ⟨w₁.context.supply.next + 1⟩ }⟩ := by
  unfold joinLinkedWith at h
  simp only [bind_ok] at h
  obtain ⟨marked, w₁, hmark, _, w₂, hput, pair, w₃, hdetach, ⟨tree, _⟩, w₄, hwithin, hmerge⟩ := h
  obtain ⟨c, rfl⟩ := exists_context_of_newMark hmark
  obtain rfl := putMark_ok hput
  have hkept : ∀ x, marked = some x → x.1 = l.id ∨ x.1 = r.id := by
    rintro x rfl
    rcases newMark_ok hmark with ⟨-, hnone, -⟩ | ⟨kept, hkept, hsome, -⟩
    · cases hnone
    · rw [Option.some.inj hsome]
      exact hkept.imp And.right And.right
  have hids : (w.set.tables.map (TablePlan.withMark marked)).map TablePlan.id =
      w.set.tables.map TablePlan.id := by
    rw [List.map_map]
    exact List.map_congr_left fun p _ => p.withMark_id marked
  have hnodup' : ((w.set.tables.map (TablePlan.withMark marked)).map TablePlan.id).Nodup := by
    rw [hids]
    exact hnodup
  -- The marked plan is what its handle stands for.
  have heq : ∀ p ∈ w.set.tables, ∀ q ∈ w.set.tables.map (TablePlan.withMark marked),
      q.id = p.id → q = p.withMark marked := fun p hp q hq hid =>
    eq_of_id_of_nodup hnodup' hq (List.mem_map_of_mem hp) (hid.trans (p.withMark_id marked).symm)
  simp only [detachPair, bind_ok, ask_ok, freshId_ok, pure_ok] at hdetach
  obtain ⟨l', _, ⟨hl', rfl⟩, _, _, ⟨rfl, rfl⟩, r', _, ⟨hr', rfl⟩, _, _, ⟨rfl, rfl⟩, rfl, rfl⟩ :=
    hdetach
  rw [require_ok, get?_eq_some_of_nodup hnodup'] at hl' hr'
  obtain rfl := heq l hl l' hl'.1 hl'.2
  obtain rfl := heq r hr r' hr'.1 hr'.2
  rw [within_ok] at hwithin
  obtain ⟨w₅, hcondition, -, rfl⟩ := hwithin
  obtain ⟨l', hl', r', hr', hlid, hrid, hne, rfl, rfl⟩ := merge_ok hnodup' hmerge
  obtain rfl := heq l hl l' hl' hlid
  obtain rfl := heq r hr r' hr' hrid
  rw [TablePlan.withMark_id, TablePlan.withMark_id] at hne
  refine ⟨marked, c, tree, w₅, hmark, hcondition, hne, rfl, ?_⟩
  simp only [mergedTables_withMark hkept]

end Planner

/-! ## The tree of a join -/

section

variable {w w₁ : Workspace} {marked : Option (PlanId × String)} {c : Context}
  {joinType : JoinType} {on : Option Expr} {tree : PlanNode}

/-- A new mark is one of those that were still to come, and is not any more. -/
theorem newMark_fresh (hw : Ready db val wiring linked w) (houter : joinType ≠ .inner →
    wiring.outer ≠ []) {left right : PlanId}
    (h : Planner.newMark joinType left right w = .ok marked { w with context := c }) :
    w.context.Extends c ∧ ∀ x, marked = some x →
      x.2 ∈ w.context.markers.future ∧ x.2 ∉ c.markers.future := by
  rcases Planner.newMark_ok h with ⟨-, rfl, heq⟩ | ⟨kept, htype, rfl, heq⟩
  · obtain rfl : c = w.context := congrArg Workspace.context heq
    exact ⟨.refl _, by rintro _ ⟨⟩⟩
  · obtain rfl : c = { w.context with markers := w.context.markers.next.2 } :=
      congrArg Workspace.context heq
    have hextends : w.context.Extends { w.context with markers := w.context.markers.next.2 } :=
      ⟨le_rfl, ⟨w.context.markers.issued + 1, Nat.le_succ _, rfl⟩, rfl⟩
    refine ⟨hextends, ?_⟩
    rintro x hx
    obtain rfl := Option.some.inj hx
    refine ⟨⟨_, Nat.lt_succ_self _, rfl⟩, ?_⟩
    rintro ⟨n, hn, hname⟩
    rw [hextends.nameAt, MarkerGenerator.next_eq] at hname
    have hinj := hw.distinct (houter (by rcases htype with ⟨rfl, -⟩ | ⟨rfl, -⟩ <;> decide))
    rw [← hinj hname] at hn
    exact lt_irrefl _ hn

/-- A tree has no more marks than before, but for the new one. -/
theorem marked_withMark {mark : String} {p : TablePlan} (hp : p.executable.marked mark = [])
    (hne : ∀ x, marked = some x → x.2 ≠ mark) :
    (p.withMark marked).executable.marked mark = [] := by
  rcases marked with _ | ⟨kept, name⟩
  · exact hp
  · by_cases hid : p.id = kept
    · rw [TablePlan.withMark_of_eq hid]
      show (if name = mark then _ else _) = _
      rw [if_neg (hne _ rfl)]
      exact hp
    · rw [TablePlan.withMark_of_ne hid]
      exact hp

/-- The trees of two plans grow by a fresh mark on one of them. -/
theorem grows_withMark {fresh : Set String} (hfresh : ∀ x, marked = some x → x.2 ∈ fresh) :
    Grows fresh [l.executable, r.executable]
      [(l.withMark marked).executable, (r.withMark marked).executable] := by
  have hone : ∀ p : TablePlan, Grows fresh [p.executable] [(p.withMark marked).executable] := by
    intro p
    rcases marked with _ | ⟨kept, name⟩
    · exact .refl _ _
    · by_cases hid : p.id = kept
      · rw [TablePlan.withMark_of_eq hid]
        exact .cacheMark (hfresh _ rfl) _
      · rw [TablePlan.withMark_of_ne hid]
        exact .refl _ _
  exact .of_each (.cons (hone l) (.cons (hone r) .nil))

/-- The condition of a link, planned over marked copies of the two plans. -/
theorem condition_ok (hw : Ready db val wiring linked w) (hl : l ∈ w.set.tables)
    (hr : r ∈ w.set.tables) (hne : l.id ≠ r.id) (hplain : ∀ e, on = some e → e.hasSubQuery = false)
    (hc : w.context.Extends c) (hfresh : ∀ x, marked = some x →
      x.2 ∈ w.context.markers.future ∧ x.2 ∉ c.markers.future)
    (h : planCondition on ⟨⟨[(l.withMark marked).detached ⟨c.supply.next⟩,
        (r.withMark marked).detached ⟨c.supply.next + 1⟩], true⟩,
        { c with supply := ⟨c.supply.next + 2⟩ }⟩ = .ok tree w₁) :
    Joins db val c.markers.future (l.withMark marked) (r.withMark marked) tree ∧
      c.Extends w₁.context ∧ (∀ mark ∈ w₁.context.markers.future, tree.marked mark = []) ∧
      (Flawed wiring [tree] ∨ tree.rows db val =
        {x ∈ pairs (l.executable.rows db val) (r.executable.rows db val) | val.meets on x}) := by
  have hlp := (hw.tidy.proper l hl).withMark marked
  have hrp := (hw.tidy.proper r hr).withMark marked
  have hdisj := hw.tidy.disjoint l hl r hr hne
  have hdisj' : ∀ c ∈ (l.withMark marked).columns, c ∉ (r.withMark marked).columns := by
    rw [TablePlan.withMark_columns, TablePlan.withMark_columns]
    exact hdisj
  -- Names that are still to come are on neither plan, since the mark that was put on is none of
  -- them.
  have hunmarked : ∀ mark ∈ c.markers.future, ∀ p ∈ w.set.tables,
      (p.withMark marked).executable.marked mark = [] := by
    intro mark hmark p hp
    refine marked_withMark (hw.unmarked mark (hc.future hmark) _ (List.mem_map_of_mem hp)) ?_
    rintro x hx rfl
    exact (hfresh x hx).2 hmark
  have hsupply : c.Extends { c with supply := ⟨c.supply.next + 2⟩ } :=
    ⟨Nat.le_add_right _ 2, ⟨_, le_rfl, rfl⟩, rfl⟩
  -- The copies of the two plans, without their links, are ready to be planned over.
  have hready : Ready db val wiring false
      ⟨⟨[(l.withMark marked).detached ⟨c.supply.next⟩,
        (r.withMark marked).detached ⟨c.supply.next + 1⟩], true⟩,
        { c with supply := ⟨c.supply.next + 2⟩ }⟩ := by
    refine .detached hlp hrp hdisj' ?_ ?_ (Nat.lt_add_of_pos_right Nat.zero_lt_two)
      (Nat.lt_succ_self _) ?_ ?_
    · rw [TablePlan.withMark_sources, TablePlan.withMark_sources]
      exact hw.tidy.apart l hl r hr hne
    · rw [Ne, PlanId.mk.injEq]
      exact (Nat.lt_succ_self _).ne
    · exact fun mark hmark => ⟨hunmarked mark hmark l hl, hunmarked mark hmark r hr⟩
    · show wiring.outer ≠ [] → Function.Injective c.markers.nameAt
      rw [hc.nameAt]
      exact hw.distinct
  obtain ⟨hjoins, hext, hmarks, hrows⟩ := planCondition_ok hready hlp hrp hdisj' hplain h
  rw [TablePlan.withMark_rows, TablePlan.withMark_rows] at hrows
  exact ⟨hjoins, hsupply.trans hext, hmarks, hrows⟩

end

/-! ## Inner joins -/

section

variable {on : Option Expr} {m : PlanId} {tree : PlanNode}

/-- Two plans with inner links in both directions are joined across both. -/
theorem flawed_of_both_links (ht : Tidy db val wiring linked tables) (hl : l ∈ tables)
    (hr : r ∈ tables) (hne : l.id ≠ r.id) {fresh : Set String} {forth back : JoinLink}
    (hforth : l.right = some forth) (hftarget : forth.target = r.id)
    (hftype : forth.joinType = .inner) (hback : r.right = some back) (hbtarget : back.target = l.id)
    (hbtype : back.joinType = .inner) (hg : Grows fresh [l.executable, r.executable] [tree]) :
    Flawed wiring [tree] := by
  obtain ⟨e, he, hel, her⟩ := ht.links.inner_ends l hl forth hforth hftype r hr hftarget.symm
  obtain ⟨e', he', her', hel'⟩ := ht.links.inner_ends r hr back hback hbtype l hl hbtarget.symm
  have hapart := ht.apart l hl r hr hne
  refine ⟨tree, List.mem_singleton_self _, ?_⟩
  -- The tree has the tables of both plans, which were apart before.
  have hsplit : tree.SplitBy {t | t ∈ l.executable.sources} {t | t ∈ r.executable.sources} := by
    refine hg.split _ _ ?_ tree (List.mem_singleton_self _)
    rw [List.forall_mem_cons, List.forall_mem_singleton]
    exact ⟨Or.inl fun _ => Iff.rfl, Or.inr (Or.inl fun _ => Iff.rfl)⟩
  have hsources : ∀ t, t ∈ tree.sources ↔ t ∈ l.executable.sources ∨ t ∈ r.executable.sources := by
    intro t
    simpa using hg.sources t
  rcases hsplit with hone | hother | hcross
  · exact absurd ((hone e.2).mp ((hsources e.2).mpr (Or.inr her))) fun h => hapart _ h her
  · exact absurd ((hother e.1).mp ((hsources e.1).mpr (Or.inl hel))) (hapart _ hel)
  · refine hcross.imp fun node hnode => Or.inl ⟨e, he, e', he', ?_, ?_, ?_⟩
    · rintro rfl
      exact hapart _ hel her'
    · exact hnode.mono (Set.singleton_subset_iff.mpr hel) (Set.singleton_subset_iff.mpr her)
    · exact hnode.symm.mono (Set.singleton_subset_iff.mpr her') (Set.singleton_subset_iff.mpr hel')

/-- The inner join of two plans demands of a row what both plans do, if there is no second inner
link between them. -/
theorem fits_inner (ht : Tidy db val wiring linked tables) (hl : l ∈ tables) (hr : r ∈ tables)
    (hne : l.id ≠ r.id) (hclear : Clear l r) (hb : Bound val .inner on l r)
    (hone : ∀ link, r.right = some link → link.joinType = .inner → link.target ≠ l.id)
    (hrows : tree.rows db val =
      {x ∈ pairs (l.executable.rows db val) (r.executable.rows db val) | val.meets on x})
    {x : Row V} (hx : ∀ y ∈ x, ∃ t ∈ tables, y.1 ∈ t.columns) :
    (mergedPlan m l r fun _ _ => tree).Fits db val x ↔ l.Fits db val x ∧ r.Fits db val x := by
  obtain ⟨⟨forth, hforth, hftarget, hftype, hfon⟩, ⟨back, hback, -, hbtype, -⟩, -⟩ := hb
  have hlpad := ht.links.inner_unpadded .right l hl forth hforth hftype
  have hrpad := ht.links.inner_unpadded .left r hr back hback hbtype
  have hpad : (mergedPlan m l r fun _ _ => tree).padding? = none :=
    mergedPlan_unpadded ht hl hr hclear (Or.inl ⟨hlpad, hrpad⟩) (Or.inl hlpad)
  have hself : ∀ p ∈ tables, ∀ link, p.right = some link → link.target ≠ p.id := by
    intro p hp link hlink
    obtain ⟨q, -, hid, hqp, -⟩ := ht.links.answered .right p hp link hlink
    exact hid ▸ hqp
  -- The condition reads only the columns of the two plans.
  have hpart : val.meets on (x.only (l.columns ++ r.columns)) ↔ val.meets on x := by
    rw [← hfon, ← hfon]
    refine ht.links.meets_iff .right hl hforth (fun y hy => hx y hy.1) hx ?_
    intro t htm hid c hc v
    have hmem : c ∈ l.columns ++ r.columns := by
      rw [List.mem_append]
      rcases hid with hid | hid
      · exact Or.inl (ht.eq_of_id htm hl hid ▸ hc)
      · exact Or.inr (ht.eq_of_id htm hr (hid.trans hftarget) ▸ hc)
    rw [Row.mem_only, and_iff_left hmem]
  rw [TablePlan.fits_iff_of_unpadded hpad, TablePlan.fits_iff_of_unpadded hlpad,
    TablePlan.fits_iff_of_unpadded hrpad, inner_merged hclear,
    present_merged (ht.proper l hl) (ht.proper r hr) (ht.disjoint l hl r hr hne) hrows, hpart]
  constructor
  · rintro ⟨⟨⟨hpl, hpr⟩, hon⟩, hinner⟩
    refine ⟨⟨hpl, fun link hlink htype => ?_⟩, hpr, fun link hlink htype => ?_⟩
    · rw [hforth] at hlink
      obtain rfl := Option.some.inj hlink
      exact (hfon x).mpr hon
    · refine hinner link (Or.inr hlink) ?_ htype
      rw [List.mem_pair, not_or]
      exact ⟨hone link hlink htype, hself r hr link hlink⟩
  · rintro ⟨⟨hpl, hil⟩, hpr, hir⟩
    refine ⟨⟨⟨hpl, hpr⟩, (hfon x).mp (hil forth hforth hftype)⟩, ?_⟩
    rintro link (hlink | hlink) -
    · exact hil link hlink
    · exact hir link hlink

end

/-! ## Outer joins -/

section

variable {k p q : TablePlan} {link : JoinLink} {name : String} {tree : PlanNode}

/-- An outer join that keeps the rows of a plan to which another one may still add has a flaw,
unless its condition rejects the nulls of that one. -/
theorem flawed_of_premature (ht : Tidy db val wiring linked tables) (hk : k ∈ tables)
    (hkpad : k.padding? ≠ none) (hrejecting : ¬ wiring.rejecting)
    (hmarked : k.executable ∈ tree.marked name) :
    Flawed wiring [.outerJoin tree name] := by
  obtain ⟨z, hz⟩ := Option.ne_none_iff_exists'.mp hkpad
  obtain ⟨s, hs, hid, hne⟩ := ht.links.exists_keeper hk hz
  obtain ⟨e, he, hes, hek⟩ := ht.links.outer_ends k hk z hz s hs hid
  refine ⟨_, List.mem_singleton_self _, .of_self (Or.inr ⟨hrejecting, ?_⟩)⟩
  exact ⟨tree, name, rfl, k.executable, hmarked, e, he, hek, ht.apart s hs k hk hne _ hes⟩

/-- The outer join of two plans demands of a row what both plans do, unless it has a flaw. -/
theorem flawed_or_fits_outer (ht : Tidy db val wiring linked tables) (hk : k ∈ tables)
    (hp : p ∈ tables) (hpad : p.padding? = some link) (htarget : link.target = k.id)
    (hq : Unites k p q) (htree : q.executable = .outerJoin tree name)
    (hcols : ∀ c, c ∈ tree.columns db ↔ c ∈ k.columns ∨ c ∈ p.columns)
    (hmarked : ∀ t, t ∈ tree.marked name ↔ t = k.executable)
    (hrows : Flawed wiring [tree] ∨ tree.rows db val =
      {x ∈ pairs (k.executable.rows db val) (p.executable.rows db val) | val.meets link.on x}) :
    Flawed wiring [q.executable] ∨ ∀ x : Row V, (∀ y ∈ x, ∃ t ∈ tables, y.1 ∈ t.columns) →
      (q.Fits db val x ↔ k.Fits db val x ∧ p.Fits db val x) := by
  have hne : k.id ≠ p.id := htarget ▸ ht.ne_of_padding hp hpad
  rw [htree]
  rcases hrows with hflaw | hrows
  · refine Or.inl (hflaw.grow (Grows.of_wraps_one ∅ ?_))
    exact .outerJoin tree name
  · by_cases hreject : k.padding? ≠ none ∧ ¬ wiring.rejecting
    · exact Or.inl (flawed_of_premature ht hk hreject.1 hreject.2 ((hmarked _).mpr rfl))
    · refine Or.inr fun x hx => fits_outer ht hk hp hpad htarget hq ?_ hx ?_
      · rw [htree]
        refine PlanNode.rows_outerJoin (ht.proper k hk).rows_over (ht.proper p hp).rows_over
          (ht.disjoint k hk p hp hne) hrows hcols ?_
        ext y
        rw [PlanNode.mem_remembered_iff]
        simp only [hmarked, exists_eq_left]
      · intro hkpad
        rw [not_and_not_right] at hreject
        exact ht.links.rejects (hreject hkpad) p hp link hpad k hk htarget.symm hkpad

end

/-! ## Joins of linked plans as steps -/

section

variable {joinType : JoinType} {on : Option Expr} {id : PlanId} {w w' : Workspace}

/-- Plans that a link is between do not clash. -/
theorem Bound.clash_safe (hb : Bound val joinType on l r) : clash l r = .safe := by
  obtain ⟨link, hlink, htarget, -⟩ := hb.forth
  exact clash_eq_safe_of_linked (Or.inl (isLinkedTo_iff.mpr ⟨.right, link, hlink, htarget⟩))

/-- An inner join of linked plans. -/
theorem joinInner_leads (hw : Ready db val wiring linked w) (hl : l ∈ w.set.tables)
    (hr : r ∈ w.set.tables) (hb : Bound val .inner on l r)
    (h : Planner.joinLinkedWith planCondition .inner on l.id r.id w = .ok id w') :
    Leads db val wiring linked (fun _ => True) w w' ∧
      Absorbs (collapse l.id r.id id) w.set.tables w'.set.tables := by
  obtain ⟨marked, c, tree, w₁, hmark, hcondition, hne, rfl, rfl⟩ :=
    Planner.joinLinkedWith_ok hw.tidy.nodup_ids hl hr h
  obtain ⟨hc, hfresh⟩ := newMark_fresh hw (fun htype => absurd rfl htype) hmark
  obtain ⟨hjoins, hext, hmarks, hrows⟩ := condition_ok hw hl hr hne hb.plain hc hfresh hcondition
  rcases Planner.newMark_ok hmark with ⟨-, rfl, -⟩ | ⟨_, ⟨htype, -⟩ | ⟨htype, -⟩, -⟩
  · have hclear := clear_of_safe hw.tidy.answered hl hr hne hb.clash_safe
    obtain ⟨forth, hforth, hftarget, hftype, -⟩ := hb.forth
    obtain ⟨back, hback, -, hbtype, -⟩ := hb.back
    have hlpad := hw.tidy.links.inner_unpadded .right l hl forth hforth hftype
    have hrpad := hw.tidy.links.inner_unpadded .left r hr back hback hbtype
    have hjoins : Joins db val w.context.markers.future l r tree :=
      ⟨hjoins.columns, hjoins.rows_over, hjoins.grows.mono hc.future⟩
    refine leads_of_merged hw hl hr hne hclear (Or.inl ⟨hlpad, hrpad⟩) rfl
      ((hc.trans hext).trans ⟨Nat.le_succ _, ⟨_, le_rfl, rfl⟩, rfl⟩)
      (hc.trans hext).supply (Nat.lt_succ_self _) hmarks hjoins ?_
    -- Are there two links between the plans, the join plans the condition of one alone, which is a
    -- flaw.
    by_cases htwo : ∃ link, r.right = some link ∧ link.joinType = .inner ∧ link.target = l.id
    · obtain ⟨second, hsecond, hstype, hstarget⟩ := htwo
      exact Or.inl (flawed_of_both_links hw.tidy hl hr hne hforth hftarget hftype hsecond hstarget
        hstype hjoins.grows)
    · refine hrows.imp (fun h => h) fun hrows x hx => ?_
      rw [and_iff_left trivial]
      exact fits_inner hw.tidy hl hr hne hclear hb
        (fun link hlink htype htarget => htwo ⟨link, hlink, htype, htarget⟩) hrows hx
  · cases htype
  · cases htype

/-- What an outer join adds back has the columns of both plans. -/
theorem joins_outerJoin {fresh : Set String} {k : TablePlan} {tree : PlanNode} {name : String}
    (h : Joins db val fresh l r tree) (hk : k.Proper db val)
    (hcols : ∀ c ∈ k.columns, c ∈ l.columns ++ r.columns)
    (hmarked : ∀ t, t ∈ tree.marked name ↔ t = k.executable) :
    Joins db val fresh l r (.outerJoin tree name) := by
  refine ⟨h.columns, ?_, ?_⟩
  · rintro x (hx | ⟨m, hm, -, rfl⟩)
    · exact h.rows_over x hx
    · obtain ⟨t, ht, hmt⟩ := (PlanNode.mem_remembered_iff db val name m tree).mp hm
      rw [(hmarked t).mp ht] at hmt
      have hall : ∀ c, c ∈ tree.columns db ↔ c ∈ l.columns ++ r.columns :=
        fun c => (h.columns c).trans List.mem_append.symm
      refine (Row.padded_over fun y hy => ?_).congr hall
      exact (hall y.1).mpr (hcols _ ((hk.rows_over m hmt).mem hy))
  · exact h.grows.trans (.of_wraps_one fresh (.outerJoin tree name)) subset_rfl

/-- Only the rows of the plan that is marked are remembered under a new mark. -/
theorem mem_marked_iff (hw : Ready db val wiring linked w) {k p : TablePlan}
    (hk : k ∈ w.set.tables) (hp : p ∈ w.set.tables) (hne : k.id ≠ p.id) {name : String}
    (hnew : name ∈ w.context.markers.future) (t : PlanNode) :
    t ∈ (k.withMark (some (k.id, name))).executable.marked name ∨
      t ∈ (p.withMark (some (k.id, name))).executable.marked name ↔ t = k.executable := by
  rw [TablePlan.withMark_of_eq rfl, TablePlan.withMark_of_ne hne.symm,
    hw.unmarked name hnew _ (List.mem_map_of_mem hp)]
  show t ∈ (if name = name then k.executable :: k.executable.marked name else _) ∨ _ ↔ _
  rw [if_pos rfl, hw.unmarked name hnew _ (List.mem_map_of_mem hk), List.mem_singleton]
  exact or_iff_left List.not_mem_nil

/-- The plan that an outer join pads. -/
theorem Bound.padding (ht : Tidy db val wiring linked tables) (hl : l ∈ tables) (hr : r ∈ tables)
    (hb : Bound val joinType on l r) {kept : PlanId}
    (htype : joinType = .left ∧ kept = l.id ∨ joinType = .right ∧ kept = r.id) :
    ∃ k ∈ tables, ∃ p ∈ tables, (k = l ∧ p = r ∨ k = r ∧ p = l) ∧ kept = k.id ∧
      ∃ link, p.padding? = some link ∧ link.target = k.id ∧
        ∀ x, val.meets link.on x ↔ val.meets on x := by
  rcases htype with ⟨rfl, rfl⟩ | ⟨rfl, rfl⟩
  · obtain ⟨link, hlink, htarget, htype, hon⟩ := hb.back
    refine ⟨l, hl, r, hr, Or.inl ⟨rfl, rfl⟩, rfl, link, ?_, htarget, hon⟩
    have hside : r.linkOn .left = some link := hlink
    exact ht.links.padding_eq hr hside (by rw [htype]; rfl)
  · obtain ⟨link, hlink, htarget, htype, hon⟩ := hb.forth
    refine ⟨r, hr, l, hl, Or.inr ⟨rfl, rfl⟩, rfl, link, ?_, htarget, hon⟩
    have hside : l.linkOn .right = some link := hlink
    exact ht.links.padding_eq hl hside (by rw [htype]; rfl)

/-- An outer join of linked plans. -/
theorem joinOuter_leads (hw : Ready db val wiring linked w) (hl : l ∈ w.set.tables)
    (hr : r ∈ w.set.tables) (hb : Bound val joinType on l r) (htype : joinType ≠ .inner)
    (h : Planner.joinLinkedWith planCondition joinType on l.id r.id w = .ok id w') :
    Leads db val wiring linked (fun _ => True) w w' ∧
      Absorbs (collapse l.id r.id id) w.set.tables w'.set.tables := by
  obtain ⟨marked, c, tree, w₁, hmark, hcondition, hne, rfl, rfl⟩ :=
    Planner.joinLinkedWith_ok hw.tidy.nodup_ids hl hr h
  rcases Planner.newMark_ok hmark with ⟨hinner, -, -⟩ | ⟨kept, hkept, rfl, -⟩
  · exact absurd hinner htype
  -- The rows of plan `k` are kept, and plan `p` is padded.
  · obtain ⟨k, hk, p, hp, hkp, rfl, link, hpad, htarget, hon⟩ := hb.padding hw.tidy hl hr hkept
    have houter : wiring.outer ≠ [] := by
      obtain ⟨e, he, -⟩ := hw.tidy.links.outer_ends p hp link hpad k hk htarget.symm
      exact List.ne_nil_of_mem he
    obtain ⟨hc, hfresh⟩ := newMark_fresh hw (fun _ => houter) hmark
    obtain ⟨hjoins, hext, hmarks, hrows⟩ := condition_ok hw hl hr hne hb.plain hc hfresh hcondition
    obtain ⟨hnew, hused⟩ := hfresh _ rfl
    have hclear := clear_of_safe hw.tidy.answered hl hr hne hb.clash_safe
    have hkpne : k.id ≠ p.id := htarget ▸ hw.tidy.ne_of_padding hp hpad
    -- Under the outer join there are the pairs of their rows that meet the condition.
    have hpairs : Flawed wiring [tree] ∨ tree.rows db val =
        {x ∈ pairs (k.executable.rows db val) (p.executable.rows db val) |
          val.meets link.on x} := by
      refine hrows.imp (fun h => h) fun hrows => ?_
      rw [hrows]
      simp only [hon]
      rcases hkp with ⟨rfl, rfl⟩ | ⟨rfl, rfl⟩
      · rfl
      · rw [pairs_comm]
    have hpads : PadsInside l r := by
      rcases hkp with ⟨rfl, rfl⟩ | ⟨rfl, rfl⟩
      · exact Or.inr (Or.inl ⟨link, hpad, htarget⟩)
      · exact Or.inr (Or.inr ⟨link, hpad, htarget⟩)
    -- The new mark remembers plan `k` and nothing else.
    have hmarked : ∀ t, t ∈ tree.marked w.context.markers.next.1 ↔ t = k.executable := by
      intro t
      have hsame := hjoins.grows.marked _ hused t
      simp only [List.mem_cons, List.not_mem_nil, or_false, exists_eq_left,
        exists_eq_or_imp] at hsame
      rw [hsame, ← mem_marked_iff hw hk hp hkpne hnew]
      rcases hkp with ⟨rfl, rfl⟩ | ⟨rfl, rfl⟩
      · rfl
      · exact or_comm
    have hcols := hjoins.columns
    have hover := hjoins.rows_over
    simp only [TablePlan.withMark_columns] at hcols hover
    have hboth : Joins db val w.context.markers.future l r tree :=
      ⟨hcols, hover, (grows_withMark fun x hx => Option.some.inj hx ▸ hnew).trans hjoins.grows
        hc.future⟩
    -- With the outer join on top the tree still joins the two plans.
    have hwhole := joins_outerJoin hboth (hw.tidy.proper k hk) (fun c hc => by
      rcases hkp with ⟨rfl, rfl⟩ | ⟨rfl, rfl⟩
      · exact List.mem_append_left _ hc
      · exact List.mem_append_right _ hc) hmarked
    refine leads_of_merged hw hl hr hne hclear hpads rfl
      ((hc.trans hext).trans ⟨Nat.le_succ _, ⟨_, le_rfl, rfl⟩, rfl⟩)
      (hc.trans hext).supply (Nat.lt_succ_self _) hmarks hwhole ?_
    have hunites : Unites l r (mergedPlan ⟨w₁.context.supply.next⟩ l r fun _ _ =>
        Planner.addBack (some (k.id, w.context.markers.next.1)) tree) := unites_mergedPlan hclear
    -- Which of the two comes first does not matter to what the merge demands.
    rcases hkp with ⟨rfl, rfl⟩ | ⟨rfl, rfl⟩
    · refine (flawed_or_fits_outer hw.tidy hk hp hpad htarget hunites rfl hcols hmarked hpairs).imp
        (fun h => h) fun hfits x hx => ?_
      rw [and_iff_left trivial]
      exact hfits x hx
    · refine (flawed_or_fits_outer hw.tidy hk hp hpad htarget hunites.symm rfl
        (fun c => (hcols c).trans or_comm) hmarked hpairs).imp (fun h => h) fun hfits x hx => ?_
      rw [and_iff_left trivial, and_comm]
      exact hfits x hx

/-- Joins of linked plans, and of unlinked ones that are not padded, keep the rows. -/
theorem joinLaw_linked : JoinLaw db val wiring linked planCondition := by
  intro first second id w w' hw hpair h
  obtain ⟨a, b, ha, hb, ⟨sided, hbetween, hjoin⟩ | ⟨hbetween, hsafe, hmerge⟩⟩ :=
    Planner.joinPairWith_ok h
  -- The plans are linked, and joined by their link.
  · obtain ⟨hamem, rfl⟩ := hw.tidy.get?_eq_some_iff.mp ha
    obtain ⟨hbmem, rfl⟩ := hw.tidy.get?_eq_some_iff.mp hb
    obtain ⟨l, hl, r, hr, hids, hleft, hright, hbound⟩ :=
      bound_of_linkBetween hw.tidy hamem hbmem hbetween
    simp only [hleft, hright] at hjoin
    have hstep : Leads db val wiring linked (fun _ => True) w w' ∧
        Absorbs (collapse l.id r.id id) w.set.tables w'.set.tables := by
      by_cases htype : sided.link.joinType = .inner
      · rw [htype] at hbound hjoin
        exact joinInner_leads hw hl hr hbound hjoin
      · exact joinOuter_leads hw hl hr hbound htype hjoin
    have hcollapse : collapse l.id r.id id = collapse a.id b.id id := by
      funext i
      unfold collapse
      simp only [hids]
    rw [hcollapse] at hstep
    exact ⟨hstep.1, .of_collapse hstep.2⟩
  -- They are not, and become all their pairs: then neither is padded.
  · obtain ⟨hamem, rfl⟩ := hw.tidy.get?_eq_some_iff.mp ha
    obtain ⟨hbmem, rfl⟩ := hw.tidy.get?_eq_some_iff.mp hb
    obtain ⟨hab, hba⟩ := linkBetween_eq_none_iff.mp hbetween
    have hunpadded : a.padding? = none ∧ b.padding? = none := by
      rcases hpair a hamem b hbmem rfl rfl with hlinked | hunpadded
      · rw [hab] at hlinked
        cases hlinked
      · exact hunpadded
    refine naturalJoin_leads hw hmerge ?_
    intro a' ha' b' hb' hida hidb
    obtain rfl := hw.tidy.eq_of_id ha' hamem hida
    obtain rfl := hw.tidy.eq_of_id hb' hbmem hidb
    exact ⟨hunpadded, hsafe, hab, hba⟩

end

end QueryPlan
