import Mathlib.Data.Set.Function
import QueryPlan.Proofs.Steps

/-!
# Which tables pending links are between

- `Steps.sources`: no table is lost on the way.
- `Paired`: two plans on their way to one.
- `Wired`: each pending link has a pair of tables of its own, of which one is on
  either side of it.
- `Wired.of_base`, `Wired.of_own`: the links between base tables do, and those
  between plans with a table that is named for each.
- `Steps.wired`: what was true of the links at the start is true of those that
  are still pending.
-/

namespace QueryPlan

variable {plain : Prop} {P : Option Expr → Prop} {w w' : Workspace} {pairs : List (String × String)}
  {tables tables' : List TablePlan}

/-! ## Tables -/

theorem exists_source_of_follows {g : PlanId → PlanId} (hf : FollowsAll g tables tables')
    {table : String} (h : ∃ p ∈ tables, table ∈ p.executable.sources) :
    ∃ q ∈ tables', table ∈ q.executable.sources := by
  obtain ⟨p, hp, ht⟩ := h
  obtain ⟨q, hq, hpq⟩ := exists_right_of_forall₂ hf hp
  exact ⟨q, hq, hpq.sources table ht⟩

/-- What is true of a tree is true of one after a merge, if the merge keeps it. -/
theorem exists_of_merged {l r : TablePlan} {m : PlanId} {tree : PlanNode} {Q : PlanNode → Prop}
    (hnodup : (tables.map TablePlan.id).Nodup) (hl : l ∈ tables) (hr : r ∈ tables)
    (htree : ∀ p, p = l ∨ p = r → Q p.executable → Q tree)
    (h : ∃ p ∈ tables, Q p.executable) : ∃ q ∈ mergedTables tables l r m tree, Q q.executable := by
  obtain ⟨p, hp, hQ⟩ := h
  rcases eq_or_eq_or_beside hnodup hl hr hp with rfl | rfl | ⟨hpl, hpr⟩
  · exact ⟨_, mergedPlan_mem, htree _ (Or.inl rfl) hQ⟩
  · exact ⟨_, mergedPlan_mem, htree _ (Or.inr rfl) hQ⟩
  · exact ⟨_, retarget_mem hp hpl hpr, hQ⟩

theorem sources_addBack (marked : Option (PlanId × String)) (tree : PlanNode) :
    (Planner.addBack marked tree).sources = tree.sources := by
  rcases marked with _ | ⟨_, _⟩ <;> rfl

theorem sources_of_joined_pair {tree : PlanNode} {l r p : TablePlan}
    (h : tree.joined? = some (l.executable, r.executable)) (hp : p = l ∨ p = r) :
    ∀ table ∈ p.executable.sources, table ∈ tree.sources := by
  intro table ht
  rw [PlanNode.sources_of_joined h, List.mem_append]
  rcases hp with rfl | rfl
  · exact Or.inl ht
  · exact Or.inr ht

/-- What is true of a marked tree is true of one of the copies on which two plans are joined. -/
theorem exists_of_detached {l r p : TablePlan} {marked : Option (PlanId × String)}
    {one two : PlanId} {Q : PlanNode → Prop} (hp : p = l ∨ p = r)
    (hQ : Q (p.withMark marked).executable) :
    ∃ q ∈ [(l.withMark marked).detached one, (r.withMark marked).detached two],
      Q q.executable := by
  rcases hp with rfl | rfl
  · exact ⟨_, List.mem_cons_self, hQ⟩
  · exact ⟨_, List.mem_cons_of_mem _ List.mem_cons_self, hQ⟩

namespace Steps

/-- No table is lost on the way. -/
theorem sources (h : Steps plain w w') (hw : Sound P w) {table : String}
    (ht : ∃ p ∈ w.set.tables, table ∈ p.executable.sources) :
    ∃ q ∈ w'.set.tables, table ∈ q.executable.sources := by
  induction h generalizing P with
  | refl => exact ht
  | trans first _ ih ih' => exact ih' (first.sound hw) (ih hw ht)
  | spend => exact ht
  | cover covers =>
    exact exists_source_of_follows (covers.imp fun _ _ => TablePlan.Covers.follows) ht
  | join left right _ _ _ _ joined =>
    exact exists_of_merged (Q := (table ∈ ·.sources)) hw.answered.nodup left right
      (fun _ hp => sources_of_joined_pair joined hp table) ht
  | @joinLinked w w₁ l r x link marked c left right ne linked target marks pair single ih =>
    refine exists_of_merged (Q := (table ∈ ·.sources)) hw.answered.nodup left right
      (fun p hp hps => ?_) ht
    -- A copy of the plan has the table, so the only plan after all steps has it.
    obtain ⟨q, hq, hqs⟩ := ih (P := fun _ => False) Sound.pair
      (exists_of_detached (Q := (table ∈ ·.sources)) hp ((p.withMark_sources marked).symm ▸ hps))
    rw [single, List.mem_singleton] at hq
    rw [sources_addBack, ← hq]
    exact hqs
  | unite _ _ copied _ _ united _ ih =>
    refine exists_source_of_follows (united.imp fun _ _ => TablePlan.Unites.follows) ?_
    refine ih (hw.copied copied) ?_
    obtain ⟨g, -, hall⟩ := copied.renamed
    exact exists_source_of_follows (hall.imp fun _ _ h => .of_mirrors h.1) ht
  | uniteJoined _ _ copied _ single united _ _ ih =>
    obtain ⟨g, -, hall⟩ := copied.renamed
    obtain ⟨q, hq, hqs⟩ := ih (hw.copied copied)
      (exists_source_of_follows (hall.imp fun _ _ h => .of_mirrors h.1) ht)
    rw [single, List.mem_singleton] at hq
    subst hq
    exact ⟨_, List.mem_singleton_self _,
      united.follows.sources table ((TablePlan.follows_reordered _ _).sources table hqs)⟩

/-- The tree of two linked plans has their tables. -/
theorem sources_pair {w₁ : Workspace} {l r x p : TablePlan} {marked : Option (PlanId × String)}
    {c : Context}
    (pair : Steps plain ⟨⟨[(l.withMark marked).detached ⟨c.supply.next⟩,
      (r.withMark marked).detached ⟨c.supply.next + 1⟩], true⟩,
      { c with supply := ⟨c.supply.next + 2⟩ }⟩ w₁)
    (single : w₁.set.tables = [x]) (hp : p = l ∨ p = r) :
    ∀ table ∈ p.executable.sources, table ∈ (Planner.addBack marked x.executable).sources := by
  intro table ht
  obtain ⟨q, hq, hqs⟩ := pair.sources (P := fun _ => False) Sound.pair
    (exists_of_detached (Q := (table ∈ ·.sources)) hp ((p.withMark_sources marked).symm ▸ ht))
  rw [single, List.mem_singleton] at hq
  rw [sources_addBack, ← hq]
  exact hqs

end Steps

/-! ## Two plans on their way to one -/

/-- The plans are still two, of which `Two` holds, or they are one, of which `One` holds. -/
def Paired (Two : TablePlan → TablePlan → Prop) (One : TablePlan → Prop)
    (tables : List TablePlan) : Prop :=
  (∃ p q, tables = [p, q] ∧ Two p q) ∨ ∃ x, tables = [x] ∧ One x

namespace Paired

variable {Two : TablePlan → TablePlan → Prop} {One : TablePlan → Prop}

theorem of_forall₂ {R : TablePlan → TablePlan → Prop} (h : Paired Two One tables)
    (hall : List.Forall₂ R tables tables')
    (htwo : ∀ p p' q q', R p p' → R q q' → Two p q → Two p' q')
    (hone : ∀ x x', R x x' → One x → One x') : Paired Two One tables' := by
  rcases h with ⟨p, q, rfl, h⟩ | ⟨x, rfl, h⟩
  · obtain ⟨p', _, hp, hrest, rfl⟩ := List.forall₂_cons_left_iff.mp hall
    obtain ⟨q', _, hq, hnil, rfl⟩ := List.forall₂_cons_left_iff.mp hrest
    rw [List.forall₂_nil_left_iff.mp hnil]
    exact Or.inl ⟨p', q', rfl, htwo p p' q q' hp hq h⟩
  · obtain ⟨x', _, hx, hnil, rfl⟩ := List.forall₂_cons_left_iff.mp hall
    rw [List.forall₂_nil_left_iff.mp hnil]
    exact Or.inr ⟨x', rfl, hone x x' hx h⟩

/-- Only the two plans can become one, either of them on the left. -/
theorem merged {l r : TablePlan} {m : PlanId} {tree : PlanNode} (h : Paired Two One tables)
    (hl : l ∈ tables) (hr : r ∈ tables) (hne : l.id ≠ r.id)
    (hone : Two l r ∨ Two r l → One (mergedPlan m l r fun _ _ => tree)) :
    Paired Two One (mergedTables tables l r m tree) := by
  rcases h with ⟨p, q, rfl, htwo⟩ | ⟨x, rfl, -⟩
  · have hpair : l = p ∧ r = q ∨ l = q ∧ r = p := by
      rcases List.mem_pair.mp hl with rfl | rfl <;> rcases List.mem_pair.mp hr with rfl | rfl
      · exact absurd rfl hne
      · exact Or.inl ⟨rfl, rfl⟩
      · exact Or.inr ⟨rfl, rfl⟩
      · exact absurd rfl hne
    refine Or.inr ⟨mergedPlan m l r fun _ _ => tree, ?_, hone ?_⟩
    · rcases hpair with ⟨rfl, rfl⟩ | ⟨rfl, rfl⟩
      · simp [mergedTables]
      · simp [mergedTables]
    · rcases hpair with ⟨rfl, rfl⟩ | ⟨rfl, rfl⟩
      · exact Or.inl htwo
      · exact Or.inr htwo
  · rw [List.mem_singleton.mp hl, List.mem_singleton.mp hr] at hne
    exact absurd rfl hne

/-- What holds of the one plan in the end. -/
theorem of_single {x : TablePlan} (h : Paired Two One tables) (hx : tables = [x]) : One x := by
  rcases h with ⟨p, q, hpq, -⟩ | ⟨y, hy, hone⟩
  · rw [hx] at hpq
    cases hpq
  · rw [hx] at hy
    exact List.singleton_inj.mp hy ▸ hone

end Paired

/-! ## The ends of links -/

/-- The pairs of the pending links, by the plan that has the link on its right. -/
def pendingEnds (ends : PlanId → String × String) (tables : List TablePlan) :
    List (String × String) :=
  tables.filterMap fun p => p.right.map fun _ => ends p.id

theorem pendingEnds_append {ends : PlanId → String × String} :
    pendingEnds ends (tables ++ tables') = pendingEnds ends tables ++ pendingEnds ends tables' :=
  List.filterMap_append

/-- Every pending link has a pair of its own among `pairs`: the first table is one of the plan that
has the link on its right, and the second one of its partner. -/
def Wired (pairs : List (String × String)) (tables : List TablePlan) : Prop :=
  ∃ ends : PlanId → String × String, (pendingEnds ends tables).Subperm pairs ∧
    ∀ p ∈ tables, ∀ link, p.right = some link → ∀ q ∈ tables, q.id = link.target →
      (ends p.id).1 ∈ p.executable.sources ∧ (ends p.id).2 ∈ q.executable.sources

theorem filterMap_eq_of_forall₂ {α β γ : Type} {R : α → β → Prop} {f : α → Option γ}
    {f' : β → Option γ} {as : List α} {bs : List β} (h : List.Forall₂ R as bs)
    (hR : ∀ a ∈ as, ∀ b, R a b → f' b = f a) : bs.filterMap f' = as.filterMap f := by
  induction h with
  | nil => rfl
  | @cons a b as bs hab _ ih =>
    rw [List.forall_mem_cons] at hR
    rw [List.filterMap_cons, List.filterMap_cons, hR.1 b hab, ih hR.2]

namespace Wired

theorem of_no_links (h : ∀ p ∈ tables, ∀ side, p.linkOn side = none) : Wired pairs tables := by
  have hright : ∀ p ∈ tables, p.right = none := fun p hp => h p hp .right
  refine ⟨fun _ => ("", ""), ?_, fun p hp link hlink => ?_⟩
  · have hnil : pendingEnds (fun _ => ("", "")) tables = [] := by
      refine List.filterMap_eq_nil_iff.mpr fun p hp => ?_
      rw [hright p hp]
      rfl
    rw [hnil]
    exact List.nil_subperm
  · rw [hright p hp] at hlink
    cases hlink

/-- The link of a plan has a pair among `pairs`. -/
theorem exists_ends (h : Wired pairs tables) {p q : TablePlan} {link : JoinLink} (hp : p ∈ tables)
    (hlink : p.right = some link) (hq : q ∈ tables) (hid : q.id = link.target) :
    ∃ e ∈ pairs, e.1 ∈ p.executable.sources ∧ e.2 ∈ q.executable.sources := by
  obtain ⟨ends, hsub, hends⟩ := h
  refine ⟨ends p.id, hsub.subset (List.mem_filterMap.mpr ⟨p, hp, ?_⟩),
    hends p hp link hlink q hq hid⟩
  rw [hlink]
  rfl

/-- Two plans with a link on the right of each have two pairs. -/
theorem exists_two_ends (h : Wired pairs tables) (hnodup : (tables.map TablePlan.id).Nodup)
    {l r : TablePlan} {link back : JoinLink} (hl : l ∈ tables) (hr : r ∈ tables)
    (hne : l.id ≠ r.id) (hlink : l.right = some link) (hid : link.target = r.id)
    (hback : r.right = some back) (hid' : back.target = l.id) :
    ∃ e e', [e, e'].Subperm pairs ∧
      (e.1 ∈ l.executable.sources ∧ e.2 ∈ r.executable.sources) ∧
      e'.1 ∈ r.executable.sources ∧ e'.2 ∈ l.executable.sources := by
  obtain ⟨ends, hsub, hends⟩ := h
  refine ⟨ends l.id, ends r.id, ?_, hends l hl link hlink r hr hid.symm,
    hends r hr back hback l hl hid'.symm⟩
  refine .trans ?_ hsub
  refine .trans ?_ ((perm_pair_cons hnodup hl hr hne).filterMap _).symm.subperm
  rw [List.filterMap_cons_some (by rw [hlink]; rfl), List.filterMap_cons_some (by rw [hback]; rfl)]
  exact ((List.nil_sublist _).cons_cons _ |>.cons_cons _).subperm

theorem follow {g : PlanId → PlanId} (h : Wired pairs tables) (hanswered : Answered tables)
    (hf : FollowsAll g tables tables')
    (hinj : Set.InjOn g {id | id ∈ tables.map TablePlan.id}) : Wired pairs tables' := by
  obtain ⟨ends, hsub, hends⟩ := h
  -- The old handle of a new one.
  have hback : ∀ p ∈ tables,
      Function.invFunOn g {id | id ∈ tables.map TablePlan.id} (g p.id) = p.id :=
    fun p hp => hinj.leftInvOn_invFunOn (List.mem_map_of_mem hp)
  refine ⟨ends ∘ Function.invFunOn g {id | id ∈ tables.map TablePlan.id}, ?_, ?_⟩
  · have hsame : pendingEnds (ends ∘ Function.invFunOn g {id | id ∈ tables.map TablePlan.id})
        tables' = pendingEnds ends tables := by
      refine filterMap_eq_of_forall₂ hf fun p hp q hpq => ?_
      have hlink : q.right = p.right.map (JoinLink.rename g) := hpq.links .right
      rw [hlink, Option.map_map, hpq.id_eq, Function.comp_apply, hback p hp]
      rfl
    rw [hsame]
    exact hsub
  · intro q hq link hlink s hs hid
    obtain ⟨p, hp, hpq⟩ := exists_left_of_forall₂ hf hq
    obtain ⟨t, ht, hts⟩ := exists_left_of_forall₂ hf hs
    have hright : q.right = p.right.map (JoinLink.rename g) := hpq.links .right
    rw [hright, Option.map_eq_some_iff] at hlink
    obtain ⟨link', hlink', rfl⟩ := hlink
    obtain ⟨u, hu, huid, -⟩ := hanswered.back .right p hp link' hlink'
    have htu : t.id = link'.target := by
      refine huid ▸ hinj (List.mem_map_of_mem ht) (List.mem_map_of_mem hu) ?_
      rw [← hts.id_eq, hid, huid]
      rfl
    obtain ⟨hone, hother⟩ := hends p hp link' hlink' t ht htu
    rw [Function.comp_apply, hpq.id_eq, hback p hp]
    exact ⟨hpq.sources _ hone, hts.sources _ hother⟩

theorem stay (h : Wired pairs tables) (hanswered : Answered tables)
    (hf : FollowsAll (fun i => i) tables tables') : Wired pairs tables' :=
  h.follow hanswered hf fun _ _ _ _ heq => heq

theorem copied {set copy : TableSet} {c : Context} (h : Wired pairs set.tables)
    (hanswered : Answered set.tables) (hcopy : set.Copied copy c) : Wired pairs copy.tables := by
  obtain ⟨g, hinj, hall⟩ := hcopy.renamed
  exact h.follow hanswered (hall.imp fun _ _ hpq => .of_mirrors hpq.1) hinj

theorem of_unlinked (h : Unlinked w) : Wired pairs w.set.tables :=
  .of_no_links fun _ hp side => h.linkOn_eq_none hp side

end Wired

section

variable {l r : TablePlan} {m : PlanId} {tree : PlanNode}

/-- The link on the right of a merge is that of one of the two plans, and leads outside. -/
theorem exists_right_of_mergedPlan (hclear : Clear l r) : ∃ s, (s = l ∨ s = r) ∧ ∀ link,
    (mergedPlan m l r fun _ _ => tree).right = some link →
      s.right = some link ∧ link.target ∉ [l.id, r.id] := by
  cases hright : (mergedPlan m l r fun _ _ => tree).right with
  | none => exact ⟨l, Or.inl rfl, by rintro link ⟨⟩⟩
  | some link =>
    have hlinkOn : (mergedPlan m l r fun _ _ => tree).linkOn .right = some link := hright
    obtain ⟨hside | hside, hout⟩ := (mergedPlan_linkOn hclear).mp hlinkOn
    · exact ⟨l, Or.inl rfl, by rintro _ ⟨⟩; exact ⟨hside, hout⟩⟩
    · exact ⟨r, Or.inr rfl, by rintro _ ⟨⟩; exact ⟨hside, hout⟩⟩

/-- The pairs of all other plans stay; that of the merge is one of the two others. -/
theorem pendingEnds_merged {ends : PlanId → String × String} {s : TablePlan}
    (hids : (tables.map TablePlan.id).Nodup) (hl : l ∈ tables) (hr : r ∈ tables)
    (hne : l.id ≠ r.id) (hfresh : ∀ p ∈ tables, p.id ≠ m) (hs : s = l ∨ s = r)
    (hkept : ∀ link, (mergedPlan m l r fun _ _ => tree).right = some link → s.right = some link) :
    (pendingEnds (fun id => if id = m then ends s.id else ends id)
      (mergedTables tables l r m tree)).Subperm (pendingEnds ends tables) := by
  have hbefore : (pendingEnds ends tables).Perm (pendingEnds ends
      (tables.filter fun p => p.id ≠ l.id ∧ p.id ≠ r.id) ++ pendingEnds ends [l, r]) := by
    have hperm := (perm_pair_cons hids hl hr hne).trans
      (List.perm_append_comm : ([l, r] ++ _).Perm _)
    rw [← pendingEnds_append]
    exact hperm.filterMap _
  refine .trans ?_ hbefore.symm.subperm
  rw [mergedTables, pendingEnds_append]
  -- Plans beside the merge have the ends that they had,
  have hstay : pendingEnds (fun id => if id = m then ends s.id else ends id)
      ((tables.filter fun p => p.id ≠ l.id ∧ p.id ≠ r.id).map
        (TablePlan.retarget [l.id, r.id] m)) =
      pendingEnds ends (tables.filter fun p => p.id ≠ l.id ∧ p.id ≠ r.id) := by
    rw [pendingEnds, List.filterMap_map]
    refine List.filterMap_congr fun p hp => ?_
    have hpm : p.id ≠ m := hfresh p (List.mem_of_mem_filter hp)
    show ((p.right.map _).map fun _ => if p.id = m then ends s.id else ends p.id) = _
    rw [Option.map_map, if_neg hpm]
    rfl
  rw [hstay]
  refine (List.subperm_append_left _).mpr ?_
  -- and the merge has at most those of one of the pair.
  cases hright : (mergedPlan m l r fun _ _ => tree).right with
  | none =>
    rw [pendingEnds, List.filterMap_cons_none (by rw [hright]; rfl)]
    exact List.nil_subperm
  | some link =>
    have hone : (mergedPlan m l r fun _ _ => tree).id = m := rfl
    rw [pendingEnds, List.filterMap_cons_some (by rw [hright, hone, if_pos rfl]; rfl)]
    refine List.singleton_subperm_iff.mpr (List.mem_filterMap.mpr ⟨s, List.mem_pair.mpr hs, ?_⟩)
    rw [hkept link hright]
    rfl

/-- A plan has its tables wherever it went by its handle. -/
theorem mem_sources_of_collapse (hanswered : Answered tables) (hl : l ∈ tables) (hr : r ∈ tables)
    (hfresh : ∀ p ∈ tables, p.id ≠ m)
    (htree : ∀ p, p = l ∨ p = r → ∀ table ∈ p.executable.sources, table ∈ tree.sources)
    {q t : TablePlan} (hq : q ∈ tables) (ht : t ∈ mergedTables tables l r m tree)
    (hid : t.id = collapse l.id r.id m q.id) :
    ∀ table ∈ q.executable.sources, table ∈ t.executable.sources := by
  intro table htable
  by_cases hin : q.id ∈ [l.id, r.id]
  · rw [collapse, if_pos hin] at hid
    rcases mem_mergedTables.mp ht with ⟨p, hp, -, -, rfl⟩ | rfl
    · exact absurd hid (hfresh p hp)
    · refine htree q ?_ table htable
      exact (List.mem_pair.mp hin).imp (hanswered.eq_of_id hq hl) (hanswered.eq_of_id hq hr)
  · rw [collapse, if_neg hin] at hid
    rcases mem_mergedTables.mp ht with ⟨p, hp, -, -, rfl⟩ | rfl
    · obtain rfl := hanswered.eq_of_id hp hq hid
      exact htable
    · exact absurd hid.symm (hfresh q hq)

/-- The links of a merge that are still pending keep their pairs. -/
theorem Wired.merged (h : Wired pairs tables) (hanswered : Answered tables) (hl : l ∈ tables)
    (hr : r ∈ tables) (hne : l.id ≠ r.id) (hclear : Clear l r) (hfresh : ∀ p ∈ tables, p.id ≠ m)
    (htree : ∀ p, p = l ∨ p = r → ∀ table ∈ p.executable.sources, table ∈ tree.sources) :
    Wired pairs (mergedTables tables l r m tree) := by
  obtain ⟨ends, hsub, hends⟩ := h
  -- The right link of the merge, if it has one, is that of one of the pair, whose ends it keeps.
  obtain ⟨s, hs, hkept⟩ : ∃ s, (s = l ∨ s = r) ∧ ∀ link,
      (mergedPlan m l r fun _ _ => tree).right = some link →
        s.right = some link ∧ link.target ∉ [l.id, r.id] := exists_right_of_mergedPlan hclear
  have hsmem : s ∈ tables := by
    rcases hs with rfl | rfl
    · exact hl
    · exact hr
  refine ⟨fun id => if id = m then ends s.id else ends id, ?_, ?_⟩
  · exact (pendingEnds_merged hanswered.nodup hl hr hne hfresh hs
      fun link hlink => (hkept link hlink).1).trans hsub
  · intro q hq link hlink t ht hid
    rcases mem_mergedTables.mp hq with ⟨p, hp, hpl, hpr, rfl⟩ | rfl
    -- A plan beside the merge has its right link, which may lead to the merge now.
    · have hright : (p.retarget [l.id, r.id] m).right = _ :=
        retarget_linkOn (l := l) (r := r) p .right
      rw [hright, Option.map_eq_some_iff] at hlink
      obtain ⟨link', hlink', rfl⟩ := hlink
      obtain ⟨u, hu, huid, -⟩ := hanswered.back .right p hp link' hlink'
      obtain ⟨hone, hother⟩ := hends p hp link' hlink' u hu huid
      show (if p.id = m then ends s.id else ends p.id).1 ∈ p.executable.sources ∧
        (if p.id = m then ends s.id else ends p.id).2 ∈ t.executable.sources
      rw [if_neg (hfresh p hp)]
      refine ⟨hone, mem_sources_of_collapse hanswered hl hr hfresh htree hu ht ?_ _ hother⟩
      rw [hid, huid]
      rfl
    · obtain ⟨hlinks, hout⟩ := hkept link hlink
      obtain ⟨u, hu, huid, -⟩ := hanswered.back .right s hsmem link hlinks
      obtain ⟨hone, hother⟩ := hends s hsmem link hlinks u hu huid
      show (if m = m then ends s.id else ends m).1 ∈ tree.sources ∧
        (if m = m then ends s.id else ends m).2 ∈ t.executable.sources
      rw [if_pos rfl]
      refine ⟨htree s hs _ hone,
        mem_sources_of_collapse hanswered hl hr hfresh htree hu ht ?_ _ hother⟩
      rw [hid, huid, collapse, if_neg hout]

end

/-- The tables of links, by left and right side, where `own` names a table for each plan. -/
def TableSet.linkEndsOf (set : TableSet) (own : PlanId → String) : List (String × String) :=
  set.linkEdges.map (Prod.map own own)

/-- Links have the pairs of tables that are named for their plans. -/
theorem Wired.of_own {set : TableSet} {own : PlanId → String}
    (hown : ∀ p ∈ set.tables, own p.id ∈ p.executable.sources) (hanswered : Answered set.tables) :
    Wired (set.linkEndsOf own) set.tables := by
  -- The pair of a link that goes from the plan of a handle.
  let ends : PlanId → String × String := fun id =>
    (own id, ((set.get? id).bind TablePlan.rightTarget?).elim "" own)
  have hends : ∀ p ∈ set.tables, ∀ link, p.right = some link →
      ends p.id = (own p.id, own link.target) := by
    intro p hp link hlink
    show (own p.id, ((set.get? p.id).bind TablePlan.rightTarget?).elim "" own) = _
    rw [(get?_eq_some_of_nodup hanswered.nodup).mpr ⟨hp, rfl⟩, Option.bind_some,
      TablePlan.rightTarget?, hlink]
    rfl
  refine ⟨ends, ?_, fun p hp link hlink q hq hid => ?_⟩
  · have hsame : pendingEnds ends set.tables = set.linkEndsOf own := by
      unfold pendingEnds TableSet.linkEndsOf TableSet.linkEdges
      rw [List.map_filterMap]
      refine List.filterMap_congr fun p hp => ?_
      unfold TablePlan.rightTarget?
      cases hlink : p.right with
      | none => rfl
      | some link => exact congrArg some (hends p hp link hlink)
    rw [hsame]
  · rw [hends p hp link hlink, ← hid]
    exact ⟨hown p hp, hown q hq⟩

/-- The links between base tables have the pairs of tables that they were recorded between. -/
theorem Wired.of_base {set : TableSet}
    (hbase : ∀ p ∈ set.tables, ∃ table, p.executable = .source table)
    (hanswered : Answered set.tables) : Wired set.linkEnds set.tables := by
  let own : PlanId → String := fun id =>
    (set.get? id).elim "" fun p => p.executable.sources.headI
  have hget : ∀ p ∈ set.tables, set.get? p.id = some p :=
    fun p hp => (get?_eq_some_of_nodup hanswered.nodup).mpr ⟨hp, rfl⟩
  have hsources : ∀ p ∈ set.tables, p.executable.sources = [own p.id] := by
    intro p hp
    show _ = [(set.get? p.id).elim "" fun p => p.executable.sources.headI]
    obtain ⟨table, htree⟩ := hbase p hp
    rw [hget p hp, Option.elim_some, htree]
    rfl
  have hsame : set.linkEnds = set.linkEndsOf own := by
    unfold TableSet.linkEnds TableSet.linkEndsOf TableSet.linkEdges
    rw [List.map_filterMap, List.filterMap_eq_flatMap_toList]
    refine List.flatMap_congr fun p hp => ?_
    unfold TablePlan.rightTarget?
    cases hlink : p.right with
    | none => rfl
    | some link =>
      obtain ⟨q, hq, hid, -⟩ := hanswered.back .right p hp link hlink
      rw [Option.bind_some, ← hid, hget q hq, Option.elim_some, hsources p hp, hsources q hq,
        Option.map_some, ← hid]
      rfl
  rw [hsame]
  refine .of_own (fun p hp => ?_) hanswered
  rw [hsources p hp]
  exact List.mem_singleton_self _

/-- What was true of the links at the start is true of those that are still pending. -/
theorem Steps.wired (h : Steps plain w w') (hw : Sound P w) (hwired : Wired pairs w.set.tables) :
    Wired pairs w'.set.tables := by
  induction h generalizing P with
  | refl => exact hwired
  | trans first _ ih ih' => exact ih' (first.sound hw) (ih hw hwired)
  | spend => exact hwired
  | cover covers =>
    exact hwired.stay hw.answered (covers.imp fun _ _ => TablePlan.Covers.follows)
  | join left right ne safe _ _ joined =>
    exact hwired.merged hw.answered left right ne (clear_of_safe hw.answered left right ne safe)
      (fun p hp => hw.id_ne hp le_rfl) fun _ hp => sources_of_joined_pair joined hp
  | joinLinked left right ne linked target marks pair single =>
    have hext := (newMark_extends marks).trans ((Context.extends_supply _ 2).trans pair.extends)
    exact hwired.merged hw.answered left right ne (hw.clear_of_right left right ne linked target)
      (fun p hp => hw.id_ne hp hext.supply) fun _ hp => pair.sources_pair single hp
  | unite _ _ copied planned _ united _ ih =>
    have hcopy := hw.copied copied
    have hside := ih hcopy (hwired.copied hw.answered copied)
    exact hside.stay (planned.sound hcopy).answered
      (united.imp fun _ _ => TablePlan.Unites.follows)
  | @uniteJoined w side copy c c' x y _ _ _ copied planned single united _ _ ih =>
    -- A single plan has no links.
    have hanswered := (planned.sound (hw.copied copied)).answered
    rw [single] at hanswered
    refine .of_no_links fun p hp s => ?_
    obtain rfl := List.mem_singleton.mp hp
    rw [united.follows.links, (TablePlan.follows_reordered _ _).links, hanswered.linkOn_of_single]
    rfl

end QueryPlan
