import QueryPlan.Proofs.Steps

/-!
# Plans that stand for others

Whatever steps are taken over a sound set, each plan stands for some of the plans
before. It exposes what these expose together, and its links are links of theirs,
with the types and conditions that they had.

- `Regroups`: which plan stands for another.
- `Regroups.of_follows`, `Regroups.merged`: copies stand for one plan each, and a
  merge for two.
- `Steps.regroups`: steps regroup plans.
-/

namespace QueryPlan

/-- Each plan of `tables'` stands for the plans of `tables` that `g` gives its handle to. -/
structure Regroups (g : PlanId → PlanId) (tables tables' : List TablePlan) : Prop where
  mem : ∀ p ∈ tables, ∃ q ∈ tables', q.id = g p.id
  exposes : ∀ q ∈ tables', ∀ c, q.exposes c = true ↔
    ∃ p ∈ tables, g p.id = q.id ∧ p.exposes c = true
  links : ∀ side, ∀ q ∈ tables', ∀ link, q.linkOn side = some link →
    ∃ p ∈ tables, g p.id = q.id ∧ ∃ link', p.linkOn side = some link' ∧ link = link'.rename g

variable {plain : Prop} {P : Option Expr → Prop} {w w' : Workspace} {g f : PlanId → PlanId}
  {tables tables' tables'' : List TablePlan}

theorem TablePlan.exposes_of_perm {p q : TablePlan} (h : q.columns.Perm p.columns)
    (c : ColumnName) : q.exposes c = p.exposes c :=
  h.any_eq

namespace Regroups

theorem trans (h : Regroups g tables tables') (h' : Regroups f tables' tables'') :
    Regroups (f ∘ g) tables tables'' where
  mem p hp := by
    obtain ⟨q, hq, hid⟩ := h.mem p hp
    obtain ⟨s, hs, hid'⟩ := h'.mem q hq
    exact ⟨s, hs, by rw [hid', hid]; rfl⟩
  exposes s hs c := by
    rw [h'.exposes s hs c]
    constructor
    · rintro ⟨q, hq, hqs, hexposes⟩
      obtain ⟨p, hp, hpq, hexposes⟩ := (h.exposes q hq c).mp hexposes
      exact ⟨p, hp, by rw [← hqs, ← hpq]; rfl, hexposes⟩
    · rintro ⟨p, hp, hps, hexposes⟩
      obtain ⟨q, hq, hid⟩ := h.mem p hp
      exact ⟨q, hq, by rw [← hps, hid]; rfl, (h.exposes q hq c).mpr ⟨p, hp, hid.symm, hexposes⟩⟩
  links side s hs link hlink := by
    obtain ⟨q, hq, hqs, link', hlink', rfl⟩ := h'.links side s hs link hlink
    obtain ⟨p, hp, hpq, link'', hlink'', rfl⟩ := h.links side q hq link' hlink'
    exact ⟨p, hp, by rw [← hqs, ← hpq]; rfl, link'', hlink'', rfl⟩

/-- A plan exposes what one of the plans that it stands for does, if the others do not. -/
theorem exposes_eq (h : Regroups g tables tables') {p q : TablePlan} (hp : p ∈ tables)
    (hq : q ∈ tables') (hid : g p.id = q.id) {c : ColumnName}
    (honly : ∀ s ∈ tables, g s.id = q.id → s.exposes c = true → s = p) :
    q.exposes c = p.exposes c := by
  rw [Bool.eq_iff_iff, h.exposes q hq c]
  constructor
  · rintro ⟨s, hs, hsq, hexposes⟩
    rwa [← honly s hs hsq hexposes]
  · exact fun hexposes => ⟨p, hp, hid, hexposes⟩

/-- Plans under other handles stand for one plan each. -/
theorem of_follows (hnodup : (tables.map TablePlan.id).Nodup)
    (hf : List.Forall₂ (fun p q => p.Follows g q ∧ q.columns.Perm p.columns) tables tables')
    (hinj : Set.InjOn g {id | id ∈ tables.map TablePlan.id}) : Regroups g tables tables' where
  mem p hp := by
    obtain ⟨q, hq, hpq, -⟩ := exists_right_of_forall₂ hf hp
    exact ⟨q, hq, hpq.id_eq⟩
  exposes q hq c := by
    obtain ⟨p, hp, hpq, hcolumns⟩ := exists_left_of_forall₂ hf hq
    rw [TablePlan.exposes_of_perm hcolumns]
    constructor
    · exact fun h => ⟨p, hp, hpq.id_eq.symm, h⟩
    · rintro ⟨p', hp', hid, h⟩
      have hsame := hinj (List.mem_map_of_mem hp') (List.mem_map_of_mem hp) (hid.trans hpq.id_eq)
      rwa [eq_of_id_of_nodup hnodup hp' hp hsame] at h
  links side q hq link hlink := by
    obtain ⟨p, hp, hpq, -⟩ := exists_left_of_forall₂ hf hq
    rw [hpq.links, Option.map_eq_some_iff] at hlink
    obtain ⟨link', hlink', rfl⟩ := hlink
    exact ⟨p, hp, hpq.id_eq.symm, link', hlink', rfl⟩

/-- Plans under the same handles stand for one plan each. -/
theorem of_stay (hnodup : (tables.map TablePlan.id).Nodup)
    (hf : List.Forall₂ (fun p q => p.Follows (fun i => i) q ∧ q.columns.Perm p.columns) tables
      tables') : Regroups (fun i => i) tables tables' :=
  of_follows hnodup hf fun _ _ _ _ h => h

theorem refl (hnodup : (tables.map TablePlan.id).Nodup) : Regroups (fun i => i) tables tables :=
  of_stay hnodup (List.forall₂_same.mpr fun _ _ => ⟨.of_eq rfl rfl rfl fun _ h => h, .refl _⟩)

/-- A merge stands for two plans. -/
theorem merged {l r : TablePlan} {m : PlanId} {tree : PlanNode}
    (hnodup : (tables.map TablePlan.id).Nodup) (hl : l ∈ tables) (hr : r ∈ tables)
    (hclear : Clear l r) (hfresh : ∀ p ∈ tables, p.id ≠ m) :
    Regroups (collapse l.id r.id m) tables (mergedTables tables l r m tree) := by
  -- Every plan goes into one of the new list, which exposes what the plans that went into it do.
  refine ⟨fun p hp => ?_, fun q hq c => ?_, fun side q hq link hlink => ?_⟩
  · rcases eq_or_eq_or_beside hnodup hl hr hp with rfl | rfl | ⟨hpl, hpr⟩
    · exact ⟨_, mergedPlan_mem, (collapse_left _ _ _).symm⟩
    · exact ⟨_, mergedPlan_mem, (collapse_right _ _ _).symm⟩
    · exact ⟨_, retarget_mem hp hpl hpr, (collapse_of_ne hpl hpr).symm⟩
  · rcases mem_mergedTables.mp hq with ⟨p, hp, hpl, hpr, rfl⟩ | rfl
    · constructor
      · exact fun h => ⟨p, hp, collapse_of_ne hpl hpr, h⟩
      · rintro ⟨p', hp', hid, h⟩
        rcases eq_or_eq_or_beside hnodup hl hr hp' with rfl | rfl | ⟨hl', hr'⟩
        · rw [collapse_left] at hid
          exact absurd hid.symm (hfresh p hp)
        · rw [collapse_right] at hid
          exact absurd hid.symm (hfresh p hp)
        · rw [collapse_of_ne hl' hr'] at hid
          rwa [eq_of_id_of_nodup hnodup hp' hp hid] at h
    · have hexposes : (mergedPlan m l r fun _ _ => tree).exposes c = (l.exposes c || r.exposes c) :=
        List.any_append
      rw [hexposes, Bool.or_eq_true]
      constructor
      · rintro (h | h)
        · exact ⟨l, hl, collapse_left _ _ _, h⟩
        · exact ⟨r, hr, collapse_right _ _ _, h⟩
      · rintro ⟨p, hp, hid, h⟩
        rcases eq_or_eq_or_beside hnodup hl hr hp with rfl | rfl | ⟨hpl, hpr⟩
        · exact Or.inl h
        · exact Or.inr h
        · rw [collapse_of_ne hpl hpr] at hid
          exact absurd hid (hfresh p hp)
  · obtain ⟨p, hp, hid, link', hlink', hrename, -⟩ := exists_link_of_merged hl hr hclear hq hlink
    exact ⟨p, hp, hid, link', hlink', hrename⟩

end Regroups

theorem TableSet.Copied.regroups {set copy : TableSet} {c : Context} (h : set.Copied copy c)
    (hnodup : (set.tables.map TablePlan.id).Nodup) : ∃ g, Regroups g set.tables copy.tables := by
  obtain ⟨g, hinj, hall⟩ := h.renamed
  refine ⟨g, .of_follows hnodup (hall.imp fun _ _ h => ?_) hinj⟩
  exact ⟨.of_mirrors h.1, .of_eq h.1.columns⟩

/-- Steps regroup plans. -/
theorem Steps.regroups (h : Steps plain w w') (hw : Sound P w) :
    ∃ g, Regroups g w.set.tables w'.set.tables := by
  -- The induction is on the steps. Merges and copies regroup the plans, and all other steps leave
  -- them in their places.
  induction h generalizing P with
  | refl => exact ⟨_, .refl hw.answered.nodup⟩
  | trans first _ ih ih' =>
    obtain ⟨g, hg⟩ := ih hw
    obtain ⟨f, hf⟩ := ih' (first.sound hw)
    exact ⟨_, hg.trans hf⟩
  | spend => exact ⟨_, .refl hw.answered.nodup⟩
  | cover covers =>
    refine ⟨_, .of_stay hw.answered.nodup (covers.imp fun _ _ h => ?_)⟩
    exact ⟨h.follows, .of_eq h.columns⟩
  | join left right ne safe =>
    exact ⟨_, .merged hw.answered.nodup left right
      (clear_of_safe hw.answered left right ne safe) fun p hp => hw.id_ne hp le_rfl⟩
  | joinLinked left right ne linked target marks pair _ =>
    have hext := (newMark_extends marks).trans ((Context.extends_supply _ 2).trans pair.extends)
    exact ⟨_, .merged hw.answered.nodup left right
      (hw.clear_of_right left right ne linked target) fun p hp => hw.id_ne hp hext.supply⟩
  | unite _ _ copied planned _ united _ ih =>
    obtain ⟨g, hg⟩ := copied.regroups hw.answered.nodup
    obtain ⟨f, hf⟩ := ih (hw.copied copied)
    have hside := (planned.sound (hw.copied copied)).answered
    refine ⟨_, (hg.trans hf).trans (.of_stay hside.nodup (united.imp fun _ _ h => ?_))⟩
    exact ⟨h.follows, .of_eq h.columns⟩
  | @uniteJoined w side _ _ _ x y _ _ _ copied planned single united _ _ ih =>
    obtain ⟨g, hg⟩ := copied.regroups hw.answered.nodup
    obtain ⟨f, hf⟩ := ih (hw.copied copied)
    have hside := (planned.sound (hw.copied copied)).answered
    refine ⟨_, (hg.trans hf).trans (.of_stay hside.nodup ?_)⟩
    have hcolumns := planned.columns_perm (hw.copied copied)
    rw [flatMap_columns_of_forall₂ (copied.copies.imp fun _ _ h => h.alike.columns), single,
      List.flatMap_singleton] at hcolumns
    rw [single]
    refine .cons ⟨(TablePlan.follows_reordered _ _).trans united.follows, ?_⟩ .nil
    rw [united.columns, TablePlan.reordered_columns]
    exact hcolumns.symm

end QueryPlan
