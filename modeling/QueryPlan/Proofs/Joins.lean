import QueryPlan.Predicate.Apply
import QueryPlan.Proofs.Pair
import QueryPlan.Proofs.Runs

/-!
# Joining several plans

Joins of several plans are joins of two plans again and again. What a join of two
plans does is a premise here, `JoinLaw`.

- `Draws`: some plans become part of one, and others do or stay.
- `JoinLaw`: a join of two plans keeps the rows and draws the two together.
- `resolveWith_leads`: a resolved plan is unpadded.
- `JoinRun.leads`, `joinEverythingWith_leads`: joined plans become one.
- `joinReadersWith_leads`: the plan that owns some columns is unpadded.
-/

namespace QueryPlan

universe u

variable {V : Type u} {db : Database V} {val : Valuation V} {wiring : Wiring} {linked : Bool}
  {tables tables' tables'' : List TablePlan}

/-! ## Plans that become part of another -/

/-- The plans of the handles `ids` become part of the plan `m`; any other plan stays or becomes
part of it, too. -/
def Draws (ids : List PlanId) (m : PlanId) (tables tables' : List TablePlan) : Prop :=
  ∃ g, Absorbs g tables tables' ∧ (∀ p ∈ tables, p.id ∈ ids → g p.id = m) ∧
    ∀ p ∈ tables, g p.id = p.id ∨ g p.id = m

theorem Draws.refl (tables : List TablePlan) (id : PlanId) : Draws [id] id tables tables :=
  ⟨_, .refl tables, fun _ _ hid => List.mem_singleton.mp hid, fun _ _ => Or.inl rfl⟩

/-- A merge draws its two plans into it. -/
theorem Draws.of_collapse {l r m : PlanId} (h : Absorbs (collapse l r m) tables tables') :
    Draws [l, r] m tables tables' := by
  refine ⟨_, h, fun p _ hin => if_pos hin, fun p _ => ?_⟩
  by_cases hin : p.id ∈ [l, r]
  · exact Or.inr (if_pos hin)
  · exact Or.inl (if_neg hin)

/-- Plans are drawn into `m'` if they are drawn into `m` and that into `m'`, or if they stay and
are drawn into `m'` then. -/
theorem Draws.trans {ids ids' all : List PlanId} {m m' : PlanId} (h : Draws ids m tables tables')
    (h' : Draws ids' m' tables' tables'') (hm : m ∈ ids')
    (hall : ∀ i ∈ all, (∃ q ∈ tables', q.id = i) → i ∈ ids ∨ i ∈ ids') :
    Draws all m' tables tables'' := by
  obtain ⟨g, hg, hto, hstay⟩ := h
  obtain ⟨f, hf, hto', hstay'⟩ := h'
  have himage : ∀ p ∈ tables, ∃ q ∈ tables', q.id = g p.id := by
    intro p hp
    obtain ⟨q, hq, hid, -⟩ := hg.image p hp
    exact ⟨q, hq, hid⟩
  -- What became the first plan becomes the second one, since the first is among what is drawn into
  -- it.
  have hmerged : ∀ p ∈ tables, g p.id = m → f (g p.id) = m' := by
    intro p hp hpm
    obtain ⟨q, hq, hid⟩ := himage p hp
    rw [← hid]
    exact hto' q hq (by rw [hid, hpm]; exact hm)
  refine ⟨f ∘ g, hg.trans hf, ?_, ?_⟩
  · intro p hp hin
    show f (g p.id) = m'
    -- A plan of the list went into the first one, or stayed and goes into the second one now.
    rcases hstay p hp with hfix | hpm
    · obtain ⟨q, hq, hid⟩ := himage p hp
      rcases hall p.id hin ⟨q, hq, hid.trans hfix⟩ with hids | hids
      · exact hmerged p hp (hto p hp hids)
      · rw [← hid]
        exact hto' q hq (by rw [hid, hfix]; exact hids)
    · exact hmerged p hp hpm
  · intro p hp
    show f (g p.id) = p.id ∨ f (g p.id) = m'
    rcases hstay p hp with hfix | hpm
    · obtain ⟨q, hq, hid⟩ := himage p hp
      have := hstay' q hq
      rw [hid, hfix] at this
      rw [hfix]
      exact this
    · exact Or.inr (hmerged p hp hpm)

/-- Once all plans are drawn into one, there is no other. -/
theorem Draws.single {ids : List PlanId} {m : PlanId} (h : Draws ids m tables tables')
    (ht : Tidy db val wiring linked tables') (hall : ∀ p ∈ tables, p.id ∈ ids) :
    ∃ q, tables' = [q] ∧ q.id = m := by
  obtain ⟨g, hg, hto, -⟩ := h
  have hid : ∀ q ∈ tables', q.id = m := by
    intro q hq
    obtain ⟨p, hp, hpq⟩ := hg.origin q hq
    rw [← hpq]
    exact hto p hp (hall p hp)
  cases htables : tables' with
  | nil => exact absurd htables ht.nonempty
  | cons q rest =>
    rw [htables] at hid
    refine ⟨q, ?_, hid q List.mem_cons_self⟩
    cases rest with
    | nil => rfl
    | cons s rest =>
      have hnodup := ht.nodup_ids
      rw [htables, List.map_cons, List.nodup_cons] at hnodup
      refine absurd ?_ hnodup.1
      rw [hid q List.mem_cons_self, ← hid s (List.mem_cons_of_mem _ List.mem_cons_self)]
      exact List.mem_map_of_mem List.mem_cons_self

/-! ## The plan that has some columns -/

/-- The plan `m` is unpadded, and no other plan exposes one of the columns. -/
structure Gathers (tables : List TablePlan) (cols : List ColumnName) (m : PlanId) : Prop where
  unpadded : ∃ q ∈ tables, q.id = m ∧ q.padding? = none
  only : ∀ c ∈ cols, ∀ p ∈ tables, p.exposes c = true → p.id = m

namespace Gathers

variable {cols : List ColumnName} {m : PlanId} {g : PlanId → PlanId}

/-- A plan that has the columns becomes part of one that has. -/
theorem absorb (h : Gathers tables cols m) (hg : Absorbs g tables tables') :
    Gathers tables' cols (g m) := by
  obtain ⟨⟨q, hq, rfl, hpad⟩, honly⟩ := h
  constructor
  · obtain ⟨s, hs, hid, -, -, hspad⟩ := hg.image q hq
    exact ⟨s, hs, hid, hspad hpad⟩
  · intro c hc s hs hexp
    obtain ⟨col, hcol, hres⟩ := TablePlan.exposes_iff.mp hexp
    obtain ⟨p, hp, hid, hpcol⟩ := hg.columns s hs col hcol
    rw [← hid, honly c hc p hp (TablePlan.exposes_iff.mpr ⟨col, hpcol, hres⟩)]

theorem append {cols' : List ColumnName} (h : Gathers tables cols m)
    (h' : Gathers tables cols' m) : Gathers tables (cols ++ cols') m := by
  refine ⟨h.unpadded, ?_⟩
  intro c hc p hp hexp
  rcases List.mem_append.mp hc with hc | hc
  · exact h.only c hc p hp hexp
  · exact h'.only c hc p hp hexp

theorem padding_eq_none (h : Gathers tables cols m) (ht : Tidy db val wiring linked tables)
    {p : TablePlan} (hp : p ∈ tables) (hid : p.id = m) : p.padding? = none := by
  obtain ⟨q, hq, hqid, hpad⟩ := h.unpadded
  rw [ht.eq_of_id hp hq (hid.trans hqid.symm)]
  exact hpad

/-- An expression that has references to the columns alone reads only the plan. -/
theorem readsOnly (h : Gathers tables cols m) {e : Expr} (hsub : e.hasSubQuery = false)
    (hrefs : ∀ ref ∈ e.references, ref ∈ cols) : ReadsOnly tables [m] e := by
  refine ⟨hsub, ?_⟩
  intro p hp hid ref href
  rw [Bool.eq_false_iff]
  intro hexp
  exact hid (List.mem_singleton.mpr (h.only ref (hrefs ref href) p hp hexp))

end Gathers

/-- A column has an owner if a single plan exposes it. -/
theorem owner_ok_iff {set : TableSet} {column : ColumnName} {id : PlanId} :
    set.owner column = .ok id ↔
      ∃ p, (set.tables.filter fun plan => plan.exposes column) = [p] ∧ p.id = id := by
  unfold TableSet.owner
  generalize set.tables.filter _ = owners
  match owners with
  | [] => simp
  | [p] => simp
  | p :: q :: rest => simp

/-- The owner of a column is the only plan that exposes it. -/
theorem owner_ok {set : TableSet} {column : ColumnName} {id : PlanId}
    (h : set.owner column = .ok id) :
    (∃ p ∈ set.tables, p.id = id ∧ p.exposes column = true) ∧
      ∀ p ∈ set.tables, p.exposes column = true → p.id = id := by
  obtain ⟨p, hsole, rfl⟩ := owner_ok_iff.mp h
  have hexposing : ∀ q, q ∈ set.tables ∧ q.exposes column = true ↔ q = p := by
    intro q
    have hmem : q ∈ set.tables.filter (fun plan => plan.exposes column) ↔ q = p := by
      rw [hsole, List.mem_singleton]
    rwa [List.mem_filter] at hmem
  obtain ⟨hp, hexposes⟩ := (hexposing p).mpr rfl
  exact ⟨⟨p, hp, rfl, hexposes⟩, fun q hq hq' => congrArg _ ((hexposing q).mp ⟨hq, hq'⟩)⟩

/-! ## Joins of two plans -/

section

variable {condition : ConditionPlanner}

/-- A join of two plans that are linked, or of which neither is padded, keeps the rows and draws
the two together. -/
def JoinLaw (db : Database V) (val : Valuation V) (wiring : Wiring) (linked : Bool)
    (condition : ConditionPlanner) : Prop :=
  ∀ (first second id : PlanId) (w w' : Workspace), Ready db val wiring linked w →
    (∀ a ∈ w.set.tables, ∀ b ∈ w.set.tables, a.id = first → b.id = second →
      a.isLinkedTo b.id = true ∨ (a.padding? = none ∧ b.padding? = none)) →
    Planner.joinPairWith condition first second w = .ok id w' →
    Leads db val wiring linked (fun _ => True) w w' ∧
      Draws [first, second] id w.set.tables w'.set.tables

/-- A plan is linked to the one that pads it. -/
theorem isLinkedTo_of_nullPaddedBy {p : TablePlan} {id : PlanId} (h : p.nullPaddedBy? = some id) :
    p.isLinkedTo id = true := by
  rw [TablePlan.nullPaddedBy?_eq, Option.map_eq_some_iff] at h
  obtain ⟨link, hpad, htarget⟩ := h
  obtain ⟨side, hside, -⟩ := TablePlan.exists_side_of_padding hpad
  exact isLinkedTo_iff.mpr ⟨side, link, hside, htarget⟩

theorem padding_eq_none_iff {p : TablePlan} : p.padding? = none ↔ p.nullPaddedBy? = none := by
  rw [TablePlan.nullPaddedBy?_eq, Option.map_eq_none_iff]

/-- The partner that a plan is to be joined with at once is linked to it, or neither is padded. -/
theorem linked_or_unpadded_of_nextJoin (ht : Tidy db val wiring linked tables) {a b p : TablePlan}
    (ha : a ∈ tables) (hb : b ∈ tables) (hp : p ∈ tables) (h : nextJoin a b = .join p.id) :
    a.isLinkedTo p.id = true ∨ (a.padding? = none ∧ p.padding? = none) := by
  rcases nextJoin_eq_join h with ⟨-, hinside, hid⟩ | ⟨side, link, -, hlink, htarget⟩
  · obtain rfl := ht.eq_of_id hp hb hid
    obtain ⟨hfirst, hsecond⟩ := inside_iff.mp hinside
    cases hapad : a.nullPaddedBy? with
    | some id => exact Or.inl (isLinkedTo_of_nullPaddedBy (hfirst id hapad ▸ hapad))
    | none =>
      cases hbpad : p.nullPaddedBy? with
      | some id =>
        have hback := isLinkedTo_of_nullPaddedBy (hsecond id hbpad ▸ hbpad)
        exact Or.inl (isLinkedTo_symm ht.answered hb ha hback)
      | none => exact Or.inr ⟨padding_eq_none_iff.mpr hapad, padding_eq_none_iff.mpr hbpad⟩
  · exact Or.inl (isLinkedTo_iff.mpr ⟨side, link, hlink, htarget⟩)

/-! ## Resolving a plan -/

variable (hlaw : JoinLaw db val wiring linked condition) {w w' : Workspace}

include hlaw

/-- A plan that is resolved is drawn together with its partners, and unpadded. -/
theorem Resolution.leads {id m : PlanId} {pairings : List Pairing}
    (h : Resolution condition id w pairings (.ok m w')) (hw : Ready db val wiring linked w) :
    Leads db val wiring linked (fun _ => True) w w' ∧
      Draws [id] m w.set.tables w'.set.tables ∧
      ∃ q ∈ w'.set.tables, q.id = m ∧ q.padding? = none := by
  generalize hresult : EStateM.Result.ok m w' = result at h
  induction h with
  | missing | fails => cases hresult
  | unpadded found none =>
    obtain ⟨rfl, rfl⟩ := hresult
    obtain ⟨hmem, rfl⟩ := hw.tidy.get?_eq_some_iff.mp found
    exact ⟨.refl hw, .refl _ _, _, hmem, rfl, padding_eq_none_iff.mpr none⟩
  | @joins id partner merged w w₁ plan _ _ found padded joined _ ih =>
    obtain ⟨hmem, rfl⟩ := hw.tidy.get?_eq_some_iff.mp found
    have hpair : ∀ a ∈ w.set.tables, ∀ b ∈ w.set.tables, a.id = plan.id → b.id = partner →
        a.isLinkedTo b.id = true ∨ (a.padding? = none ∧ b.padding? = none) := by
      intro a ha b _ hida hidb
      obtain rfl := hw.tidy.eq_of_id ha hmem hida
      rw [hidb]
      exact Or.inl (isLinkedTo_of_nullPaddedBy padded)
    obtain ⟨hlead, hdraw⟩ := hlaw plan.id partner merged w w₁ hw hpair joined
    obtain ⟨hlead', hdraw', hun⟩ := ih hlead.ready hresult
    refine ⟨hlead.after hlead', ?_, hun⟩
    refine hdraw.trans hdraw' List.mem_cons_self ?_
    intro i hi _
    exact Or.inl (List.mem_cons.mpr (Or.inl (List.mem_singleton.mp hi)))

/-- A resolved plan is unpadded. -/
theorem resolveWith_leads {id m : PlanId} (hw : Ready db val wiring linked w)
    (h : Planner.resolveWith condition id w = .ok m w') :
    Leads db val wiring linked (fun _ => True) w w' ∧
      Draws [id] m w.set.tables w'.set.tables ∧
      ∃ q ∈ w'.set.tables, q.id = m ∧ q.padding? = none := by
  obtain ⟨pairings, hrun⟩ := Planner.exists_resolution_of_ok h
  exact hrun.leads hlaw hw

/-! ## Joining all of some plans -/

/-- Plans that are joined are drawn together. -/
theorem JoinRun.leads {working : List PlanId} {o : Option PlanId} {pairings : List Pairing}
    (h : JoinRun condition working w pairings (.ok o w')) (hw : Ready db val wiring linked w) :
    Leads db val wiring linked (fun _ => True) w w' ∧
      ∀ m, o = some m → Draws working m w.set.tables w'.set.tables := by
  generalize hresult : EStateM.Result.ok o w' = result at h
  induction h with
  | missingFirst | missingSecond | resolveFails | joinFails => cases hresult
  | nil =>
    obtain ⟨rfl, rfl⟩ := hresult
    exact ⟨.refl hw, by rintro m ⟨⟩⟩
  | single =>
    obtain ⟨rfl, rfl⟩ := hresult
    refine ⟨.refl hw, ?_⟩
    rintro m ⟨⟩
    exact .refl _ _
  | @resolves first second padded resolved others w w₁ _ _ _ _ _ _ _ _ resolution _ ih =>
    obtain ⟨hlead, hdraw, q, hq, rfl, -⟩ := resolution.leads hlaw hw
    obtain ⟨hlead', hdraw'⟩ := ih hlead.ready hresult
    refine ⟨hlead.after hlead', fun m hm => ?_⟩
    refine hdraw.trans (hdraw' m hm) List.mem_cons_self ?_
    -- A handle that is no longer in the set was drawn into the resolved plan.
    rintro i hi ⟨s, hs, rfl⟩
    refine Or.inr (List.mem_cons_of_mem _ (List.mem_filter.mpr ⟨hi, ?_⟩))
    rw [TableSet.contains, hlead.ready.tidy.get?_eq_some_iff.mpr ⟨hs, rfl⟩]
    rfl
  | @joins first second partner merged others w w₁ a b _ _ found found' next joined _ ih =>
    obtain ⟨hamem, rfl⟩ := hw.tidy.get?_eq_some_iff.mp found
    obtain ⟨hbmem, rfl⟩ := hw.tidy.get?_eq_some_iff.mp found'
    have hpair : ∀ a' ∈ w.set.tables, ∀ p ∈ w.set.tables, a'.id = a.id → p.id = partner →
        a'.isLinkedTo p.id = true ∨ (a'.padding? = none ∧ p.padding? = none) := by
      intro a' ha' p hp hida hidp
      obtain rfl := hw.tidy.eq_of_id ha' hamem hida
      subst hidp
      exact linked_or_unpadded_of_nextJoin hw.tidy ha' hbmem hp next
    obtain ⟨hlead, hdraw⟩ := hlaw a.id partner merged w w₁ hw hpair joined
    obtain ⟨hlead', hdraw'⟩ := ih hlead.ready hresult
    refine ⟨hlead.after hlead', fun m hm => ?_⟩
    refine hdraw.trans (hdraw' m hm) List.mem_cons_self ?_
    intro i hi _
    by_cases hin : i = a.id ∨ i = partner
    · exact Or.inl (by simpa using hin)
    · refine Or.inr (List.mem_cons_of_mem _ (List.mem_filter.mpr ⟨hi, ?_⟩))
      rw [not_or] at hin
      simpa using hin

theorem joinSomeWith_leads {working : List PlanId} {m : PlanId}
    (hw : Ready db val wiring linked w)
    (h : Planner.joinSomeWith condition working w = .ok m w') :
    Leads db val wiring linked (fun _ => True) w w' ∧
      Draws working m w.set.tables w'.set.tables := by
  obtain ⟨pairings, hrun⟩ := Planner.exists_joinRun_of_some h
  obtain ⟨hlead, hdraw⟩ := hrun.leads hlaw hw
  exact ⟨hlead, hdraw m rfl⟩

/-- All plans of a set become one. -/
theorem joinEverythingWith_leads {m : PlanId} (hw : Ready db val wiring linked w)
    (h : Planner.joinEverythingWith condition w = .ok m w') :
    Leads db val wiring linked (fun _ => True) w w' ∧
      Draws w.set.ids m w.set.tables w'.set.tables ∧
      ∃ q, w'.set.tables = [q] ∧ q.id = m := by
  unfold Planner.joinEverythingWith at h
  simp only [Planner.bind_ok, Planner.current_ok] at h
  obtain ⟨_, w, ⟨rfl, rfl⟩, h⟩ := h
  obtain ⟨hlead, hdraw⟩ := joinSomeWith_leads hlaw hw h
  exact ⟨hlead, hdraw, hdraw.single hlead.ready.tidy fun p hp => List.mem_map_of_mem hp⟩

/-! ## Joining the owners of columns -/

/-- After the owner of a column was resolved, the plan that has the column is unpadded. -/
theorem ownerWith_leads {column : ColumnName} {m : PlanId} (hw : Ready db val wiring linked w)
    (h : Planner.ownerWith condition column w = .ok m w') :
    Leads db val wiring linked (fun _ => True) w w' ∧
      (∃ g, Absorbs g w.set.tables w'.set.tables) ∧ Gathers w'.set.tables [column] m := by
  unfold Planner.ownerWith at h
  simp only [Planner.bind_ok, Planner.ask_ok] at h
  obtain ⟨id, w, ⟨howner, rfl⟩, h⟩ := h
  obtain ⟨hlead, ⟨g, hg, hto, -⟩, hun⟩ := resolveWith_leads hlaw hw h
  refine ⟨hlead, ⟨g, hg⟩, hun, ?_⟩
  intro c hc s hs hexp
  rw [List.mem_singleton.mp hc] at hexp
  obtain ⟨col, hcol, hres⟩ := TablePlan.exposes_iff.mp hexp
  obtain ⟨p, hp, hid, hpcol⟩ := hg.columns s hs col hcol
  rw [← hid]
  refine hto p hp (List.mem_singleton.mpr ?_)
  exact (owner_ok howner).2 p hp (TablePlan.exposes_iff.mpr ⟨col, hpcol, hres⟩)

theorem resolveOwnersWith_leads {columns : List ColumnName} {u : Unit}
    (hw : Ready db val wiring linked w)
    (h : Planner.resolveOwnersWith condition columns w = .ok u w') :
    Leads db val wiring linked (fun _ => True) w w' ∧
      (∃ g, Absorbs g w.set.tables w'.set.tables) ∧
      ∀ c ∈ columns, ∃ i, Gathers w'.set.tables [c] i := by
  induction columns generalizing w with
  | nil =>
    unfold Planner.resolveOwnersWith at h
    rw [Planner.pure_ok] at h
    obtain ⟨-, rfl⟩ := h
    exact ⟨.refl hw, ⟨_, .refl _⟩, by rintro c ⟨⟩⟩
  | cons column rest ih =>
    unfold Planner.resolveOwnersWith at h
    rw [Planner.bind_ok] at h
    obtain ⟨id, w₁, howner, h⟩ := h
    rw [Planner.bind_ok] at h
    obtain ⟨m, w₂, hres, h⟩ := h
    have hfirst : Planner.ownerWith condition column w = .ok m w₂ :=
      Planner.bind_ok.mpr ⟨id, w₁, howner, hres⟩
    obtain ⟨hlead, ⟨g, hg⟩, hgather⟩ := ownerWith_leads hlaw hw hfirst
    obtain ⟨hlead', ⟨f, hf⟩, hrest⟩ := ih hlead.ready h
    refine ⟨hlead.after hlead', ⟨_, hg.trans hf⟩, ?_⟩
    intro c hc
    rcases List.mem_cons.mp hc with rfl | hc
    · exact ⟨_, hgather.absorb hf⟩
    · exact hrest c hc

omit hlaw in
theorem mapM_ask_ok {α β : Type} {f : α → TableSet → Except PlanError β} {as : List α} {bs : List β}
    (h : (as.mapM fun a => Planner.ask (f a)) w = .ok bs w') :
    w' = w ∧ ∀ a ∈ as, ∃ b ∈ bs, f a w.set = .ok b := by
  induction as generalizing bs w with
  | nil =>
    rw [List.mapM_nil, Planner.pure_ok] at h
    exact ⟨h.2, by rintro a ⟨⟩⟩
  | cons a rest ih =>
    rw [List.mapM_cons] at h
    simp only [Planner.bind_ok, Planner.ask_ok, Planner.pure_ok] at h
    obtain ⟨b, w, ⟨hb, rfl⟩, others, w₁, hrest, rfl, rfl⟩ := h
    obtain ⟨rfl, hothers⟩ := ih hrest
    refine ⟨rfl, ?_⟩
    intro x hx
    rcases List.mem_cons.mp hx with rfl | hx
    · exact ⟨b, List.mem_cons_self, hb⟩
    · obtain ⟨y, hy, hxy⟩ := hothers x hx
      exact ⟨y, List.mem_cons_of_mem _ hy, hxy⟩

/-- The plans that own some columns become one, unpadded. -/
theorem joinReadersWith_leads {columns : List ColumnName} {m : PlanId}
    (hw : Ready db val wiring linked w)
    (h : Planner.joinReadersWith condition columns w = .ok m w') :
    Leads db val wiring linked (fun _ => True) w w' ∧
      (∃ g, Absorbs g w.set.tables w'.set.tables) ∧ Gathers w'.set.tables columns m := by
  unfold Planner.joinReadersWith at h
  cases columns with
  | nil =>
    rw [List.isEmpty_nil, if_pos rfl] at h
    obtain ⟨hlead, ⟨g, hg, -⟩, q, htables, rfl⟩ := joinEverythingWith_leads hlaw hw h
    refine ⟨hlead, ⟨g, hg⟩, ?_, by rintro c ⟨⟩⟩
    obtain ⟨p, hp, hpad⟩ := hlead.ready.tidy.links.exists_unpadded hlead.ready.tidy.nonempty
    refine ⟨p, hp, ?_, hpad⟩
    rw [htables] at hp
    rw [List.mem_singleton.mp hp]
  | cons column rest =>
    rw [List.isEmpty_cons, if_neg Bool.false_ne_true] at h
    simp only [Planner.bind_ok] at h
    obtain ⟨_, _, hresolve, owners, w₁, howners, h⟩ := h
    obtain ⟨hlead, ⟨g, hg⟩, hgather⟩ := resolveOwnersWith_leads hlaw hw hresolve
    obtain ⟨rfl, hown⟩ := mapM_ask_ok (f := fun column set => set.owner column) howners
    obtain ⟨hlead', f, hf, hto, -⟩ := joinSomeWith_leads hlaw hlead.ready h
    refine ⟨hlead.after hlead', ⟨_, hg.trans hf⟩, ?_⟩
    -- The plan that owns a column now is one of those that are joined.
    have hown' : ∀ c ∈ column :: rest, ∃ i, f i = m ∧ Gathers w₁.set.tables [c] i := by
      intro c hc
      obtain ⟨id, hid, howner⟩ := hown c hc
      obtain ⟨⟨p, hp, rfl, hexp⟩, -⟩ := owner_ok howner
      obtain ⟨i, hi⟩ := hgather c hc
      obtain rfl := hi.only c List.mem_cons_self p hp hexp
      exact ⟨p.id, hto p hp (mem_distinct.mpr hid), hi⟩
    constructor
    · obtain ⟨i, rfl, hi⟩ := hown' column List.mem_cons_self
      exact (hi.absorb hf).unpadded
    · intro c hc
      obtain ⟨i, rfl, hi⟩ := hown' c hc
      exact (hi.absorb hf).only c List.mem_cons_self

end

/-! ## Plans without a link -/

/-- Two unpadded plans without a link between them become all pairs of their rows. -/
theorem naturalJoin_leads {w w' : Workspace} {first second id : PlanId}
    (hw : Ready db val wiring linked w)
    (h : Planner.merge first second .naturalJoin w = .ok id w')
    (hpair : ∀ a ∈ w.set.tables, ∀ b ∈ w.set.tables, a.id = first → b.id = second →
      (a.padding? = none ∧ b.padding? = none) ∧ clash a b = .safe ∧
        a.isLinkedTo b.id = false ∧ b.isLinkedTo a.id = false) :
    Leads db val wiring linked (fun _ => True) w w' ∧
      Draws [first, second] id w.set.tables w'.set.tables := by
  have hb := Builds.naturalJoin db val
  obtain ⟨hlead, habsorb⟩ := merge_unlinked_leads hb hw h fun a ha b hb hida hidb =>
    ⟨(hpair a ha b hb hida hidb).1, (hpair a ha b hb hida hidb).2.1,
      (hpair a ha b hb hida hidb).2.2.1, (hpair a ha b hb hida hidb).2.2.2, fun _ _ => Iff.rfl⟩
  exact ⟨hlead, .of_collapse habsorb⟩

/-- Where there are no links at all, the law holds however conditions are planned. -/
theorem joinLaw_unlinked (condition : ConditionPlanner) :
    JoinLaw db val wiring false condition := by
  intro first second id w w' hw _ h
  obtain ⟨a, b, ha, hb, hcases⟩ := Planner.joinPairWith_ok h
  obtain ⟨hamem, rfl⟩ := hw.tidy.get?_eq_some_iff.mp ha
  obtain ⟨hbmem, rfl⟩ := hw.tidy.get?_eq_some_iff.mp hb
  have hnot : ∀ p ∈ w.set.tables, ∀ id, p.isLinkedTo id = false :=
    fun p hp => not_isLinkedTo (hw.tidy.unlinked rfl p hp)
  have hunlinked := And.intro (hnot a hamem b.id) (hnot b hbmem a.id)
  obtain ⟨-, hsafe, hmerge⟩ := hcases.resolve_left fun ⟨_, hsome, _⟩ => by
    rw [linkBetween_eq_none_iff.mpr hunlinked] at hsome
    cases hsome
  have hpad : ∀ p ∈ w.set.tables, p.padding? = none :=
    fun p hp => TablePlan.padding?_eq_none (hw.tidy.unlinked rfl p hp)
  refine naturalJoin_leads hw hmerge ?_
  intro a' ha' b' hb' hida hidb
  obtain rfl := hw.tidy.eq_of_id ha' hamem hida
  obtain rfl := hw.tidy.eq_of_id hb' hbmem hidb
  exact ⟨⟨hpad _ ha', hpad _ hb'⟩, hsafe, hunlinked⟩

end QueryPlan
