import QueryPlan.Proofs.Comparisons
import QueryPlan.Proofs.Joins
import QueryPlan.Proofs.Select

/-!
# Applying predicates

- `Predicate.reads`: the columns whose owners a predicate is applied to.
- `Predicate.Fair`: a predicate without nested queries that names all the columns
  it reads.
- `applyStandardJoinWith_leads`, `applyWith_leads`: to apply a fair predicate
  keeps the rows of which it is true.
-/

namespace QueryPlan

universe u

variable {V : Type u} {db : Database V} {val : Valuation V} {wiring : Wiring} {linked : Bool}

/-! ## What predicates read -/

namespace Predicate

/-- The columns whose owners the predicate is applied to. -/
def reads : Predicate → List ColumnName
  | .constant _ => []
  | .simpleSingle column _ _ => [column]
  | .complexSingle column _ => [column]
  | .simplePattern column _ _ _ => [column]
  | .complexPattern _ references => references
  | .simpleSubQuery column _ _ _ => [column]
  | .standardJoin expr _ => expr.references
  | .exhaustiveJoin _ references => references
  | .subLogic expr _ => expr.references
  | .exhaustiveSubQuery _ references => references

/-- The predicate has no nested query and names all columns that it reads; a join predicate is a
comparison. -/
structure Fair (predicate : Predicate) : Prop where
  plain : predicate.meaning.hasSubQuery = false
  named : ∀ ref ∈ predicate.meaning.references, ref ∈ predicate.reads
  compares : ∀ expr mixed, predicate = .standardJoin expr mixed →
    ∃ left op right, expr = .binary left op right ∧ op.isComparison = true

end Predicate

/-! ## Applying one -/

section

variable {condition : ConditionPlanner} (hlaw : JoinLaw db val wiring linked condition)
  {w w' : Workspace} {u : Unit}

/-- A select on a plan that has all columns the predicate reads. -/
theorem selectOn_leads_of_gathers {e : Expr} {select : PlanNode → PlanNode}
    {cols : List ColumnName} {id : PlanId} (hw : Ready db val wiring linked w)
    (hs : Selects db val e select) (hg : Gathers w.set.tables cols id)
    (hsub : e.hasSubQuery = false) (hrefs : ∀ ref ∈ e.references, ref ∈ cols)
    (h : Planner.selectOn id select w = .ok u w') :
    Leads db val wiring linked (val.holds e) w w' :=
  selectOn_leads hw hs h (fun _ hp hid => hg.padding_eq_none hw.tidy hp hid)
    (hg.readsOnly hsub hrefs)

/-- A comparison on which the plans of its sides are merged, if they have no link and do not
clash. -/
theorem mergeOn_leads {e : Row V → Prop} {expr : Expr} {build : PlanNode → PlanNode → PlanNode}
    {one other id : PlanId} {left right : List ColumnName} (hw : Ready db val wiring linked w)
    (hl : Gathers w.set.tables left one) (hr : Gathers w.set.tables right other)
    (hb : Builds db val e build) (hexpr : ∀ x, e x ↔ val.holds expr x)
    (hsub : expr.hasSubQuery = false) (hrefs : ∀ ref ∈ expr.references, ref ∈ left ∨ ref ∈ right)
    (hfree : Planner.Free w.set one other)
    (h : Planner.merge one other build w = .ok id w') :
    Leads db val wiring linked (val.holds expr) w w' := by
  -- Each side gathers the owners of its columns, so the comparison reads the two plans alone.
  have hreads : ReadsOnly w.set.tables [one, other] expr := by
    refine ⟨hsub, ?_⟩
    intro p hp hnot ref href
    rw [Bool.eq_false_iff]
    intro hexp
    rcases hrefs ref href with hin | hin
    · exact hnot (by simp [hl.only ref hin p hp hexp])
    · exact hnot (by simp [hr.only ref hin p hp hexp])
  refine (merge_unlinked_leads hb hw h ?_).1.congr fun x _ => hexpr x
  rintro a ha b hb rfl rfl
  obtain ⟨hab, hba, hsafe⟩ := hfree.of_mem hw.tidy.nodup_ids ha hb
  refine ⟨⟨hl.padding_eq_none hw.tidy ha rfl, hr.padding_eq_none hw.tidy hb rfl⟩, hsafe, hab, hba,
    ?_⟩
  intro x hx
  rw [hexpr, hexpr]
  refine hreads.holds_iff (fun y hy => hx y hy.1) hx ?_
  intro p hp hin c hc v
  rw [Row.mem_only, and_iff_left]
  simp only [List.mem_cons, List.not_mem_nil, or_false] at hin
  rcases hin with hid | hid
  · exact List.mem_append.mpr (Or.inl (hw.tidy.eq_of_id hp ha hid ▸ hc))
  · exact List.mem_append.mpr (Or.inr (hw.tidy.eq_of_id hp hb hid ▸ hc))

include hlaw

/-- A comparison that is evaluated row by row after the plans that it reads were joined. -/
theorem joinThenSelectWith_leads {e : Expr} {lhs rhs : PlanId} {left right : List ColumnName}
    (hw : Ready db val wiring linked w) (hl : Gathers w.set.tables left lhs)
    (hr : Gathers w.set.tables right rhs) (hsub : e.hasSubQuery = false)
    (hrefs : ∀ ref ∈ e.references, ref ∈ left ∨ ref ∈ right)
    (h : Planner.joinThenSelectWith condition lhs rhs e w = .ok u w') :
    Leads db val wiring linked (val.holds e) w w' := by
  unfold Planner.joinThenSelectWith at h
  rw [Planner.bind_ok] at h
  obtain ⟨m, w₁, hjoin, h⟩ := h
  obtain ⟨hlead, g, hg, hto, -⟩ := joinSomeWith_leads hlaw hw hjoin
  have hgm : ∀ {cols id}, Gathers w.set.tables cols id → id ∈ [lhs, rhs] →
      Gathers w₁.set.tables cols m := by
    intro cols id hcols hin
    obtain ⟨p, hp, rfl, -⟩ := hcols.unpadded
    rw [← hto p hp hin]
    exact hcols.absorb hg
  have hl' := hgm hl List.mem_cons_self
  have hr' := hgm hr (List.mem_cons_of_mem _ List.mem_cons_self)
  refine hlead.after (selectOn_leads_of_gathers hlead.ready (.exhaustive db val e)
    (hl'.append hr') hsub ?_ h)
  intro ref href
  exact List.mem_append.mpr (hrefs ref href)

/-- A comparison on the plans of its sides, if these have all columns that the sides read. -/
theorem compareWith_leads {left right : Expr} {op : BinaryOp} {lhs rhs : PlanId}
    (hw : Ready db val wiring linked w) (hl : Gathers w.set.tables left.references lhs)
    (hr : Gathers w.set.tables right.references rhs) (hcmp : op.isComparison = true)
    (hsub : (Expr.binary left op right).hasSubQuery = false)
    (h : Planner.compareWith condition left op right lhs rhs w = .ok u w') :
    Leads db val wiring linked (val.holds (.binary left op right)) w w' := by
  have hrefs : ∀ ref ∈ (Expr.binary left op right).references,
      ref ∈ left.references ∨ ref ∈ right.references :=
    fun ref href => Expr.mem_references_binary.mp href
  cases Planner.compareWith_ok h with
  | inside same selected =>
    subst same
    exact selectOn_leads_of_gathers hw (.exhaustive db val _) (hl.append hr) hsub
      (fun ref href => List.mem_append.mpr (hrefs ref href)) selected
  | rows _ selected => exact joinThenSelectWith_leads hlaw hw hl hr hsub hrefs selected
  | onLeft _ side free merged =>
    subst side
    exact mergeOn_leads hw hl hr (.join db val _ op right) (fun _ => Iff.rfl) hsub hrefs free merged
  | onRight _ side free merged =>
    subst side
    exact mergeOn_leads hw hr hl (.join db val _ op.reverse left)
      (fun x => (val.holds_reverse left op (.reference _) x hcmp).symm) hsub
      (fun ref href => (hrefs ref href).symm) free.symm merged

/-- A comparison is planned as a join on its column side where that is possible. -/
theorem applyStandardJoinWith_leads {left right : Expr} {op : BinaryOp}
    (hw : Ready db val wiring linked w) (hcmp : op.isComparison = true)
    (hsub : (Expr.binary left op right).hasSubQuery = false)
    (h : Planner.applyStandardJoinWith condition (.binary left op right) w = .ok u w') :
    Leads db val wiring linked (val.holds (.binary left op right)) w w' := by
  rcases Expr.constant_or_reads left right with hconstant | ⟨first, hfirst, hleft, hright⟩
  · rw [Planner.applyStandardJoinWith_of_constant hconstant, Planner.bind_ok] at h
    obtain ⟨m, w₁, hjoin, hselect⟩ := h
    obtain ⟨hlead, -, hg⟩ := joinReadersWith_leads hlaw hw hjoin
    exact hlead.after (selectOn_leads_of_gathers hlead.ready (.exhaustive db val _) hg hsub
      (fun _ href => href) hselect)
  · rw [Planner.applyStandardJoinWith_of_reads hleft hright] at h
    simp only [Planner.bind_ok, Planner.ask_ok] at h
    obtain ⟨_, w₁, hjoin₁, rhs, w₂, hjoin₂, lhs, w₂, ⟨howner, rfl⟩, h⟩ := h
    obtain ⟨hlead₁, -, hgl⟩ := joinReadersWith_leads hlaw hw hjoin₁
    obtain ⟨hlead₂, ⟨g, hg⟩, hgr⟩ := joinReadersWith_leads hlaw hlead₁.ready hjoin₂
    have hlead := hlead₁.after hlead₂
    -- The left side is where its first column is now.
    have hgl : Gathers w₂.set.tables left.references lhs := by
      obtain ⟨⟨p, hp, rfl, hexposes⟩, -⟩ := owner_ok howner
      have hmoved := hgl.absorb hg
      rwa [← hmoved.only first hfirst p hp hexposes] at hmoved
    exact hlead.after (compareWith_leads hlaw hlead.ready hgl hgr hcmp hsub h)

/-- To apply a fair predicate keeps the rows of which it is true, if that is so of an OR. -/
theorem applyWith_leads {predicate : Predicate} {planOr : Planner Unit}
    (hw : Ready db val wiring linked w) (hfair : predicate.Fair)
    (hor : ∀ expr joinable, predicate = .subLogic expr joinable → planOr w = .ok u w' →
      Leads db val wiring linked (val.holds expr) w w')
    (h : Planner.applyWith condition planOr predicate w = .ok u w') :
    Leads db val wiring linked (val.holds predicate.meaning) w w' := by
  obtain ⟨hsub, hnamed, hcmp⟩ := hfair
  -- Most predicates are selected on the owner of their column,
  have howner : ∀ {column : ColumnName} {e : Expr} {select : PlanNode → PlanNode} {m w₁},
      Selects db val e select → e.hasSubQuery = false → (∀ ref ∈ e.references, ref ∈ [column]) →
      Planner.ownerWith condition column w = .ok m w₁ → Planner.selectOn m select w₁ = .ok u w' →
      Leads db val wiring linked (val.holds e) w w' := by
    intro column e select m w₁ hs hsub hrefs howner hselect
    obtain ⟨hlead, -, hg⟩ := ownerWith_leads hlaw hw howner
    exact hlead.after (selectOn_leads_of_gathers hlead.ready hs hg hsub hrefs hselect)
  -- or on what the owners of their columns are joined to.
  have hreaders : ∀ {cols : List ColumnName} {e : Expr} {m w₁}, e.hasSubQuery = false →
      (∀ ref ∈ e.references, ref ∈ cols) →
      Planner.joinReadersWith condition cols w = .ok m w₁ → Planner.selectRows m e w₁ = .ok u w' →
      Leads db val wiring linked (val.holds e) w w' := by
    intro cols e m w₁ hsub hrefs hjoin hselect
    obtain ⟨hlead, -, hg⟩ := joinReadersWith_leads hlaw hw hjoin
    exact hlead.after (selectOn_leads_of_gathers hlead.ready (.exhaustive db val e) hg hsub hrefs
      hselect)
  unfold Planner.applyWith at h
  cases predicate with
  | constant e =>
    refine selectConstant_leads hw h hsub (List.eq_nil_iff_forall_not_mem.mpr ?_)
    exact fun ref href => absurd (hnamed ref href) List.not_mem_nil
  | simpleSingle column op value =>
    obtain ⟨m, w₁, hown, h⟩ := Planner.bind_ok.mp h
    exact howner (.simple db val column op value) hsub hnamed hown h
  | complexSingle column e =>
    obtain ⟨m, w₁, hown, h⟩ := Planner.bind_ok.mp h
    exact howner (.exhaustive db val e) hsub hnamed hown h
  | simplePattern column op pattern escape =>
    obtain ⟨m, w₁, hown, h⟩ := Planner.bind_ok.mp h
    exact howner (.pattern db val column op pattern escape) hsub hnamed hown h
  | complexPattern e references =>
    obtain ⟨m, w₁, hjoin, h⟩ := Planner.bind_ok.mp h
    exact hreaders hsub hnamed hjoin h
  | simpleSubQuery column op quantifier query =>
    simp [Predicate.meaning, Expr.hasSubQuery] at hsub
  | standardJoin e mixed =>
    obtain ⟨left, op, right, rfl, hop⟩ := hcmp e mixed rfl
    exact applyStandardJoinWith_leads hlaw hw hop hsub h
  | exhaustiveJoin e references =>
    obtain ⟨m, w₁, hjoin, h⟩ := Planner.bind_ok.mp h
    exact hreaders hsub hnamed hjoin h
  | subLogic e joinable => exact hor e joinable rfl h
  | exhaustiveSubQuery e references =>
    obtain ⟨m, w₁, hjoin, h⟩ := Planner.bind_ok.mp h
    exact hreaders hsub hnamed hjoin h

end

end QueryPlan
