import QueryPlan.Proofs.Renamed
import QueryPlan.Proofs.Untouched

/-!
# Own nodes

A tree that compares rows with a nested query has the nodes of that query below it,
but it was not planned together with them.

- `PlanNode.own`: the nodes of a tree that are in none of its nested queries.
- `PlanNode.mem_walk_iff_own`: all other nodes are in nested queries of own nodes.
- `PlanNode.Throughout`: what holds of all own nodes of a tree.
- `Inherited`: what holds of a tree if it does of those that a move builds it from.
- `Moves.inherits`: so it holds of all trees after any moves.
-/

namespace QueryPlan

namespace PlanNode

/-- The inputs of a node without the nested query that it compares rows with. -/
def inputs : PlanNode → List PlanNode
  | .anyAllSelect input _ _ _ _ => [input]
  | node => node.children

/-- The nested query that the node compares rows with. -/
def nested? : PlanNode → Option PlanNode
  | .anyAllSelect _ query _ _ _ => some query
  | _ => none

/-- `Q` holds of the nested query that the node compares rows with, if there is one. -/
def Nests (Q : PlanNode → Prop) (node : PlanNode) : Prop :=
  ∀ query, node.nested? = some query → Q query

/-- Every node of the tree that is in none of its nested queries, a node before its inputs. -/
def own : PlanNode → List PlanNode
  | .source name => [.source name]
  | .naturalJoin l r => .naturalJoin l r :: (l.own ++ r.own)
  | .join l r column op value => .join l r column op value :: (l.own ++ r.own)
  | .outerJoin input mark => .outerJoin input mark :: input.own
  | .union l r => .union l r :: (l.own ++ r.own)
  | .project input columns => .project input columns :: input.own
  | .cache input id => .cache input id :: input.own
  | .cacheMark input mark => .cacheMark input mark :: input.own
  | .constantSelect input predicate => .constantSelect input predicate :: input.own
  | .simpleSelect input column op value => .simpleSelect input column op value :: input.own
  | .patternSelect input column op pattern escape =>
    .patternSelect input column op pattern escape :: input.own
  | .exhaustiveSelect input predicate => .exhaustiveSelect input predicate :: input.own
  | .anyAllSelect input query columns op quantifier =>
    .anyAllSelect input query columns op quantifier :: input.own

/-- `J` holds of all own nodes of the tree. -/
def Throughout (J : PlanNode → Prop) (tree : PlanNode) : Prop := ∀ node ∈ tree.own, J node

variable {J Q : PlanNode → Prop} {tree node child input l r : PlanNode}

theorem own_eq (tree : PlanNode) : tree.own = tree :: tree.inputs.flatMap own := by
  cases tree <;> simp [own, inputs, children]

theorem mem_own_iff : node ∈ tree.own ↔ node = tree ∨ ∃ child ∈ tree.inputs, node ∈ child.own := by
  rw [own_eq, List.mem_cons, List.mem_flatMap]

theorem throughout_iff :
    tree.Throughout J ↔ J tree ∧ ∀ child ∈ tree.inputs, child.Throughout J := by
  unfold Throughout
  rw [own_eq, List.forall_mem_cons, List.forall_mem_flatMap]

theorem throughout_source {table : String} (h : J (.source table)) :
    (PlanNode.source table).Throughout J :=
  throughout_iff.mpr ⟨h, List.forall_mem_nil _⟩

/-- The children are the inputs and the nested query. -/
theorem mem_children_iff :
    child ∈ tree.children ↔ child ∈ tree.inputs ∨ tree.nested? = some child := by
  cases tree with
  | anyAllSelect input query => simp [children, inputs, nested?, eq_comm]
  | _ => simp [inputs, nested?]

theorem mem_walk_of_own (h : node ∈ tree.own) : node ∈ tree.walk := by
  induction tree using induction_children with
  | step tree ih =>
    rcases mem_own_iff.mp h with rfl | ⟨child, hinput, h⟩
    · exact walk_eq _ ▸ List.mem_cons_self
    · have hchild := mem_children_iff.mpr (Or.inl hinput)
      exact mem_walk_of_child hchild (ih child hchild h)

/-- A node is an own one, or it is in a nested query that an own one compares rows with. -/
theorem mem_walk_iff_own : node ∈ tree.walk ↔
    node ∈ tree.own ∨ ∃ select ∈ tree.own, ∃ query, select.nested? = some query ∧
      node ∈ query.walk := by
  constructor
  · intro h
    induction tree using induction_children with
    | step tree ih =>
      rw [walk_eq, List.mem_cons, List.mem_flatMap] at h
      rcases h with rfl | ⟨child, hchild, h⟩
      · exact Or.inl (mem_own_iff.mpr (Or.inl rfl))
      rcases mem_children_iff.mp hchild with hinput | hnested
      · have hown : ∀ n ∈ child.own, n ∈ tree.own := fun n hn =>
          mem_own_iff.mpr (Or.inr ⟨child, hinput, hn⟩)
        rcases ih child hchild h with h | ⟨select, hselect, query, hnested, hmem⟩
        · exact Or.inl (hown node h)
        · exact Or.inr ⟨select, hown select hselect, query, hnested, hmem⟩
      · exact Or.inr ⟨tree, mem_own_iff.mpr (Or.inl rfl), child, hnested, h⟩
  · rintro (hown | ⟨select, hown, query, hnested, hmem⟩)
    · exact mem_walk_of_own hown
    · exact mem_walk_trans (mem_walk_of_own hown)
        (mem_walk_of_child (mem_children_iff.mpr (Or.inr hnested)) hmem)

theorem Filters.inputs_eq (h : input.Filters Q node) : node.inputs = [input] := by
  cases h <;> rfl

theorem inputs_of_joined (h : node.joined? = some (l, r)) : node.inputs = [l, r] := by
  cases node <;> cases h <;> rfl

end PlanNode

/-! ## Inherited properties -/

/-- `I` holds of the trees that moves build from such ones, where ids of caches are at most `last`
and `Q` holds of nested queries. -/
structure Inherited (Q : PlanNode → Prop) (last : Nat) (I : PlanNode → Prop) : Prop where
  filter : ∀ {input node : PlanNode}, input.Filters Q node → I input → I node
  join : ∀ {l r node : PlanNode}, node.joined? = some (l, r) → I l → I r → I node
  outerJoin : ∀ {tree : PlanNode} (mark : String), I tree → I (.outerJoin tree mark)
  cacheMark : ∀ {tree : PlanNode} (mark : String), I tree → I (.cacheMark tree mark)
  union : ∀ {l r : PlanNode}, I l → I r → I (.union l r)
  project : ∀ {tree : PlanNode} (columns : List ColumnName), I tree → I (.project tree columns)
  cache : ∀ {tree : PlanNode} {id : Nat}, tree.isCache = false → id ≤ last → I tree →
    I (.cache tree id)

/-- What holds of each node that a move puts on a tree holds throughout. -/
theorem Inherited.throughout {Q J : PlanNode → Prop} {last : Nat}
    (hfilter : ∀ {input node : PlanNode}, input.Filters Q node → J node)
    (hcache : ∀ {tree : PlanNode} {id : Nat}, tree.isCache = false → id ≤ last → J (.cache tree id))
    (hother : ∀ {node : PlanNode}, node.isCache = false → node.nested? = none → J node) :
    Inherited Q last (PlanNode.Throughout J) := by
  have hone : ∀ {node tree : PlanNode}, node.inputs = [tree] → J node → tree.Throughout J →
      node.Throughout J := fun hinputs hself htree => by
    rw [PlanNode.throughout_iff, hinputs, List.forall_mem_singleton]
    exact ⟨hself, htree⟩
  have htwo : ∀ {node l r : PlanNode}, node.inputs = [l, r] → J node → l.Throughout J →
      r.Throughout J → node.Throughout J := fun hinputs hself hl hr => by
    rw [PlanNode.throughout_iff, hinputs, List.forall_mem_cons, List.forall_mem_singleton]
    exact ⟨hself, hl, hr⟩
  refine ⟨fun h => hone h.inputs_eq (hfilter h), fun {l r node} h => ?_, fun mark => ?_,
    fun mark => ?_, ?_, fun columns => ?_, fun uncached hid => ?_⟩
  · refine htwo (PlanNode.inputs_of_joined h) ?_
    cases node <;> cases h <;> exact hother rfl rfl
  · exact hone rfl (hother rfl rfl)
  · exact hone rfl (hother rfl rfl)
  · exact htwo rfl (hother rfl rfl)
  · exact hone rfl (hother rfl rfl)
  · exact hone rfl (hcache uncached hid)

/-- With moves, nested queries are those that rows are filtered by. -/
theorem inherited_nests (Q : PlanNode → Prop) (last : Nat) :
    Inherited Q last (PlanNode.Throughout (PlanNode.Nests Q)) := by
  refine .throughout (fun {input node} h query hquery => ?_) (fun _ _ => nofun)
    fun _ hnested query hquery => ?_
  · cases h with
    | anyAll hQ =>
      obtain rfl := Option.some.inj hquery
      exact hQ
    | _ => cases hquery
  · cases hnested.symm.trans hquery

section

variable {Q I : PlanNode → Prop} {or : Prop} {P : Option Expr → Prop} {w w₁ w' : Workspace}
  {cached : List Bool} {left right : TableSet} {c : Context} {last : Nat}

namespace Inherited

theorem withMark (hI : Inherited Q last I) (marked : Option (PlanId × String)) {p : TablePlan}
    (hp : I p.executable) : I (p.withMark marked).executable := by
  rcases p.withMark_eq marked with h | ⟨mark, h⟩ <;> rw [h]
  · exact hp
  · exact hI.cacheMark mark hp

theorem addBack (hI : Inherited Q last I) (marked : Option (PlanId × String)) {tree : PlanNode}
    (htree : I tree) : I (Planner.addBack marked tree) := by
  cases marked with
  | none => exact htree
  | some x => exact hI.outerJoin x.2 htree

theorem reordered (hI : Inherited Q last I) (order : List ColumnName) {p : TablePlan}
    (hp : I p.executable) : I (p.reordered order).executable := by
  unfold TablePlan.reordered
  split
  · exact hp
  · exact hI.project order hp

theorem mergedTables (hI : ∀ p ∈ w.set.tables, I p.executable) {l r : TablePlan} {m : PlanId}
    {tree : PlanNode} (htree : I tree) :
    ∀ q ∈ mergedTables w.set.tables l r m tree, I q.executable := by
  intro q hq
  rcases mem_mergedTables.mp hq with ⟨p, hp, -, -, rfl⟩ | rfl
  · exact hI p hp
  · exact htree

end Inherited

/-- A copy for a side of an OR has the tree of a plan for the sides. -/
theorem Opened.exists_of_mem_copies (h : Opened w cached w₁ left right c) (hw : Handled P w)
    {q : TablePlan} (hq : q ∈ left.tables ∨ q ∈ right.tables) :
    ∃ p ∈ w.set.tables, ∃ x, p.Wraps w.context.cacheIds c.cacheIds x ∧
      x ∈ cached.zip w₁.set.tables ∧ q.executable = x.2.executable := by
  have hs := h.sides hw
  have hcopy : ∃ s ∈ w₁.set.tables, s.IsCopy q := by
    rcases hq with hq | hq
    · exact exists_left_of_forall₂ hs.copiesLeft hq
    · exact exists_left_of_forall₂ hs.copiesRight hq
  obtain ⟨s, hs₁, hsq⟩ := hcopy
  rw [← List.map_snd_zip (le_of_eq hs.length_cached.symm), List.mem_map] at hs₁
  obtain ⟨x, hx, rfl⟩ := hs₁
  obtain ⟨p, hp, hpx⟩ := exists_left_of_forall₂ h.wraps.2 hx
  exact ⟨p, hp, x, hpx, hx, hsq.executable⟩

/-- What related lists have at a position is in them. -/
theorem forall₂_mem {α β : Type} {R : α → β → Prop} {as : List α} {bs : List β}
    (h : List.Forall₂ R as bs) : List.Forall₂ (fun a b => R a b ∧ a ∈ as ∧ b ∈ bs) as bs := by
  obtain ⟨hlen, hall⟩ := List.forall₂_iff_zip.mp h
  exact List.forall₂_iff_zip.mpr ⟨hlen, fun hmem => ⟨hall hmem, List.of_mem_zip hmem⟩⟩

/-- Each plan where the sides of an OR are united unites plans of both sides, or it has the tree of
a plan from before. -/
theorem Opened.mem_united {l r : Workspace} (h : Opened w cached w₁ left right c)
    (hw : Handled P w) (planLeft : Moves Q or ⟨left, c⟩ l)
    (planRight : Moves Q or ⟨right, l.context⟩ r) (fits : mustReshape l.set r.set = false)
    {q : TablePlan}
    (hq : q ∈ unitePositions (cached.zip w₁.set.tables) l.set.tables r.set.tables) :
    (∃ y ∈ l.set.tables, ∃ z ∈ r.set.tables, q.executable = .union y.executable z.executable) ∨
      ∃ p ∈ w.set.tables, q.executable = p.executable := by
  obtain ⟨hnone, hnone'⟩ := hasJoins_of_not_mustReshape fits
  have hl := forall₂_mem (planLeft.rests (h.handledLeft hw) hnone)
  have hr := forall₂_mem
    (planRight.rests (h.handledRight hw planLeft.extends) hnone')
  have hunited := h.forall₂_united (R := fun p q =>
    (∃ y ∈ l.set.tables, ∃ z ∈ r.set.tables, q.executable = .union y.executable z.executable) ∨
      q.executable = p.executable) hw hl hr
    fun p x q s y z hpx hcopy hqy _ hsz => by
      rcases hpx.united (r := z) hcopy hqy.1 with heq | ⟨htree, -⟩
      · exact Or.inl ⟨y, hqy.2.2, z, hsz.2.2, heq ▸ rfl⟩
      · exact Or.inr htree
  obtain ⟨p, hp, hpq⟩ := exists_left_of_forall₂ hunited hq
  exact hpq.imp_right fun htree => ⟨p, hp, htree⟩

/-- What is inherited holds of the copies for the sides of an OR. -/
theorem Inherited.copies (hI : Inherited Q last I) (h : Opened w cached w₁ left right c)
    (hw : Handled P w) (hlast : c.cacheIds ≤ last) (htrees : ∀ p ∈ w.set.tables, I p.executable)
    {q : TablePlan} (hq : q ∈ left.tables ∨ q ∈ right.tables) : I q.executable := by
  obtain ⟨p, hp, x, hpx, -, htree⟩ := h.exists_of_mem_copies hw hq
  rw [htree]
  cases hpx with
  | bare => exact htrees p hp
  | cached uncached _ upper => exact hI.cache uncached (upper.trans hlast) (htrees p hp)

/-- What is inherited holds of all trees after any moves. -/
theorem Moves.inherits (h : Moves Q or w w') (hI : Inherited Q last I) (hw : Handled P w)
    (hlast : w'.context.cacheIds ≤ last) (htrees : ∀ p ∈ w.set.tables, I p.executable) :
    ∀ q ∈ w'.set.tables, I q.executable := by
  induction h generalizing P with
  | refl => exact htrees
  | trans first rest ih ih' =>
    exact ih' (first.handled hw) hlast (ih hw (rest.cacheIds_le.trans hlast) htrees)
  | filter filtered =>
    intro q hq
    obtain ⟨p, hp, hpq⟩ := exists_left_of_forall₂ filtered hq
    rcases hpq with rfl | ⟨tree, htree, rfl⟩
    · exact htrees q hp
    · exact hI.filter htree (htrees p hp)
  | join left right _ joined =>
    exact Inherited.mergedTables htrees (hI.join joined (htrees _ left) (htrees _ right))
  | @joinLinked w w₁ l r x joinType marked c left right _ _ _ single ih =>
    have hpair := ih (P := P) Handled.pair hlast (by
      rw [List.forall_mem_cons, List.forall_mem_singleton]
      exact ⟨hI.withMark marked (htrees l left), hI.withMark marked (htrees r right)⟩)
    rw [single, List.forall_mem_singleton] at hpair
    exact Inherited.mergedTables htrees (hI.addBack marked hpair)
  | unite _ opened planLeft planRight fits ih ih' =>
    have hcopies := fun q => hI.copies (q := q) opened hw
      ((planLeft.cacheIds_le.trans planRight.cacheIds_le).trans hlast) htrees
    have hl := ih (opened.handledLeft hw) (planRight.cacheIds_le.trans hlast) fun q hq =>
      hcopies q (Or.inl hq)
    have hr := ih' (opened.handledRight hw planLeft.extends) hlast fun q hq =>
      hcopies q (Or.inr hq)
    intro q hq
    rcases opened.mem_united hw planLeft planRight fits hq with
      ⟨y, hy, z, hz, htree⟩ | ⟨p, hp, htree⟩ <;> rw [htree]
    · exact hI.union (hl y hy) (hr z hz)
    · exact htrees p hp
  | @uniteJoined w w₁ l r l' r' _ _ _ _ x y _ opened planLeft planRight reshaped joinLeft single
      joinRight single' ih ih' ihJoin ihJoin' =>
    have hwl := opened.handledLeft hw
    have hwr := opened.handledRight hw planLeft.extends
    -- The context goes through both sides and then through both joins.
    have hlast' := joinRight.cacheIds_le.trans hlast
    have hlast₂ := joinLeft.cacheIds_le.trans hlast'
    have hlast₁ := planRight.cacheIds_le.trans hlast₂
    have hcopies := fun q => hI.copies (q := q) opened hw (planLeft.cacheIds_le.trans hlast₁) htrees
    have hx := ihJoin ((planLeft.handled hwl).extend planRight.extends) hlast'
      (ih hwl hlast₁ fun q hq => hcopies q (Or.inl hq))
    have hy := ihJoin' ((planRight.handled hwr).extend joinLeft.extends) hlast
      (ih' hwr hlast₂ fun q hq => hcopies q (Or.inr hq))
    rw [single, List.forall_mem_singleton] at hx
    rw [single', List.forall_mem_singleton] at hy
    rw [List.forall_mem_singleton, opened.unitePair_of_reshaped hw planLeft planRight reshaped
      joinLeft single joinRight single']
    exact hI.union (hI.reordered _ hx) (hI.reordered _ hy)

end

end QueryPlan
