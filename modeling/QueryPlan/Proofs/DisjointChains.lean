import QueryPlan.Proofs.LinkedChains

/-!
# Valid links as disjoint chains

Links are checked one by one, and then for cycles. What passes is a split of the plans into
chains, in which each plan is linked with the next one and with no other.

- `Expr.same_symm`: equality of expressions is symmetric.
- `TablePlan.Adjoins`: the right link of a plan and the left link of the next one match.
- `LinkChain`: plans of which each adjoins the next, without links at the two ends.
- `TableSet.Splits`: the plans of a set can be split into such chains.
- `splits_of_validateLinks`: links that pass their check do so.
- `leveled_of_splits`: in a split set, the positions of the plans are heights.
- `validateLinks_iff_splits`: the check passes just the sets that can be split.
-/

namespace QueryPlan

variable {set : TableSet} {p q : TablePlan}

/-! ## Equality of conditions -/

theorem Literal.same_symm {a b : Literal} (h : a.same b = true) : b.same a = true := by
  cases a <;> cases b <;> simp only [Literal.same, Bool.false_eq_true, beq_iff_eq] at h ⊢
  case float.float x y =>
    cases x <;> cases y <;>
      simp only [Binary64.equal, Bool.false_eq_true, Bool.and_eq_true, Bool.or_eq_true,
        beq_iff_eq] at h ⊢
    · exact h.symm
    · exact ⟨h.1.symm, h.2.imp Eq.symm fun hzero => h.1 ▸ hzero⟩
  all_goals exact h.symm

mutual

theorem Expr.same_symm : ∀ {a b : Expr}, a.same b = Bool.true → b.same a = Bool.true
  | .constant _, b, h => by
    cases b <;> simp only [Expr.same, Bool.false_eq_true] at h ⊢
    exact Literal.same_symm h
  | .reference _, b, h => by
    cases b <;> simp only [Expr.same, Bool.false_eq_true, beq_iff_eq] at h ⊢
    exact h.symm
  | .unary _ a, b, h => by
    cases b <;> simp only [Expr.same, Bool.false_eq_true, Bool.and_eq_true, beq_iff_eq] at h ⊢
    exact ⟨h.1.symm, Expr.same_symm h.2⟩
  | .binary l _ r, b, h => by
    cases b <;> simp only [Expr.same, Bool.false_eq_true, Bool.and_eq_true, beq_iff_eq] at h ⊢
    exact ⟨⟨Expr.same_symm h.1.1, h.1.2.symm⟩, Expr.same_symm h.2⟩
  | .pattern _ l p escape, b, h => by
    cases b <;> simp only [Expr.same, Bool.false_eq_true, Bool.and_eq_true, beq_iff_eq] at h ⊢
    exact ⟨⟨⟨h.1.1.1.symm, Expr.same_symm h.1.1.2⟩, Expr.same_symm h.1.2⟩, sameOption_symm h.2⟩
  | .call _ args, b, h => by
    cases b <;> simp only [Expr.same, Bool.false_eq_true, Bool.and_eq_true, beq_iff_eq] at h ⊢
    exact ⟨h.1.symm, sameList_symm h.2⟩
  | .query plan _, b, h => by
    cases b <;> simp only [Expr.same, Bool.false_eq_true, Bool.and_eq_true, beq_iff_eq] at h ⊢
    exact ⟨PlanNode.same_symm h.1, h.2.symm⟩
  | .quantified _ _ l r, b, h => by
    cases b <;> simp only [Expr.same, Bool.false_eq_true, Bool.and_eq_true, beq_iff_eq] at h ⊢
    exact ⟨⟨⟨h.1.1.1.symm, h.1.1.2.symm⟩, Expr.same_symm h.1.2⟩, Expr.same_symm h.2⟩

theorem sameOption_symm : ∀ {a b : Option Expr}, sameOption a b = true → sameOption b a = true
  | none, b, h => by
    cases b <;> simp only [sameOption, Bool.false_eq_true] at h ⊢
  | some _, b, h => by
    cases b <;> simp only [sameOption, Bool.false_eq_true] at h ⊢
    exact Expr.same_symm h

theorem sameList_symm : ∀ {a b : List Expr}, sameList a b = true → sameList b a = true
  | [], b, h => by
    cases b <;> simp only [sameList, Bool.false_eq_true] at h ⊢
  | _ :: _, b, h => by
    cases b <;> simp only [sameList, Bool.false_eq_true, Bool.and_eq_true] at h ⊢
    exact ⟨Expr.same_symm h.1, sameList_symm h.2⟩

theorem PlanNode.same_symm : ∀ {a b : PlanNode}, a.same b = true → b.same a = true
  | .source _, b, h => by
    cases b <;> simp only [PlanNode.same, Bool.false_eq_true, beq_iff_eq] at h ⊢
    exact h.symm
  | .naturalJoin _ _, b, h | .union _ _, b, h => by
    cases b <;> simp only [PlanNode.same, Bool.false_eq_true, Bool.and_eq_true] at h ⊢
    exact ⟨PlanNode.same_symm h.1, PlanNode.same_symm h.2⟩
  | .join _ _ _ _ _, b, h => by
    cases b <;> simp only [PlanNode.same, Bool.false_eq_true, Bool.and_eq_true, beq_iff_eq] at h ⊢
    exact ⟨⟨⟨⟨PlanNode.same_symm h.1.1.1.1, PlanNode.same_symm h.1.1.1.2⟩, h.1.1.2.symm⟩,
      h.1.2.symm⟩, Expr.same_symm h.2⟩
  | .outerJoin _ _, b, h | .project _ _, b, h | .cache _ _, b, h | .cacheMark _ _, b, h => by
    cases b <;> simp only [PlanNode.same, Bool.false_eq_true, Bool.and_eq_true, beq_iff_eq] at h ⊢
    exact ⟨PlanNode.same_symm h.1, h.2.symm⟩
  | .constantSelect _ _, b, h | .exhaustiveSelect _ _, b, h => by
    cases b <;> simp only [PlanNode.same, Bool.false_eq_true, Bool.and_eq_true] at h ⊢
    exact ⟨PlanNode.same_symm h.1, Expr.same_symm h.2⟩
  | .simpleSelect _ _ _ _, b, h => by
    cases b <;> simp only [PlanNode.same, Bool.false_eq_true, Bool.and_eq_true, beq_iff_eq] at h ⊢
    exact ⟨⟨⟨PlanNode.same_symm h.1.1.1, h.1.1.2.symm⟩, h.1.2.symm⟩, Expr.same_symm h.2⟩
  | .patternSelect _ _ _ _ _, b, h => by
    cases b <;> simp only [PlanNode.same, Bool.false_eq_true, Bool.and_eq_true, beq_iff_eq] at h ⊢
    exact ⟨⟨⟨⟨PlanNode.same_symm h.1.1.1.1, h.1.1.1.2.symm⟩, h.1.1.2.symm⟩,
      Expr.same_symm h.1.2⟩, sameOption_symm h.2⟩
  | .anyAllSelect _ _ _ _ _, b, h => by
    cases b <;> simp only [PlanNode.same, Bool.false_eq_true, Bool.and_eq_true, beq_iff_eq] at h ⊢
    exact ⟨⟨⟨⟨PlanNode.same_symm h.1.1.1.1, PlanNode.same_symm h.1.1.1.2⟩, h.1.1.2.symm⟩,
      h.1.2.symm⟩, h.2.symm⟩

end

theorem JoinLink.agrees_symm {a b : JoinLink} (h : a.agrees b = true) : b.agrees a = true := by
  unfold agrees at h ⊢
  obtain ⟨htype, hon⟩ := Bool.and_eq_true_iff.mp h
  refine Bool.and_eq_true_iff.mpr ⟨beq_iff_eq.mpr (beq_iff_eq.mp htype).symm, ?_⟩
  cases ha : a.on <;> cases hb : b.on <;> rw [ha, hb] at hon
  · rfl
  · cases hon
  · cases hon
  · exact Expr.same_symm hon

/-! ## Chains of links -/

/-- The link to the right of a plan and the link to the left of another lead to each other, with one
join type and equal conditions. -/
def TablePlan.Adjoins (p q : TablePlan) : Prop :=
  ∃ link back, p.right = some link ∧ q.left = some back ∧ link.target = q.id ∧
    back.target = p.id ∧ link.joinType = back.joinType ∧ (link.on == back.on) = true

/-- Plans of which each adjoins the next. The first has no link to its left, the last none to its
right. -/
structure LinkChain (chain : List TablePlan) : Prop where
  nonempty : chain ≠ []
  first : ∀ p ∈ chain.head?, p.left = none
  last : ∀ p ∈ chain.getLast?, p.right = none
  linked : chain.IsChain TablePlan.Adjoins

/-- The plans of the set can be split into chains. -/
def TableSet.Splits (set : TableSet) : Prop :=
  ∃ chains : List (List TablePlan), chains.flatten.Perm set.tables ∧
    ∀ chain ∈ chains, LinkChain chain

/-- The chains of links that pass their check split the set. -/
theorem splits_of_validateLinks (hids : (set.tables.map TablePlan.id).Nodup)
    (h : set.validateLinks = .ok ()) : set.Splits := by
  have ht := answered_of_validateLinks hids h
  obtain ⟨height, hlevel⟩ : ∃ height, Leveled height set.tables := exists_height h
  -- Links that pass their check agree in their type and condition.
  have hadjoins : ∀ p ∈ set.tables, ∀ q, set.next? p = some q → p.Adjoins q := by
    intro p hp q hnext
    obtain ⟨hq, back, hback, htarget⟩ := (ht.next?_eq_some_iff hp).mp hnext
    obtain ⟨s, hget, link, hlink, hto, hagrees⟩ := (validateLinks_ok h).1 q hq .left back hback
    obtain ⟨hs, hid⟩ := TableSet.mem_of_get? hget
    obtain rfl := ht.eq_of_id hs hp (hid.trans htarget)
    obtain ⟨htype, hon⟩ := Bool.and_eq_true_iff.mp hagrees
    exact ⟨link, back, hlink, hback, hto, htarget, eq_of_beq htype, hon⟩
  -- Chains start where no left link is, and end since each link goes one step up.
  refine ⟨set.chains, hlevel.chains_perm ht, ?_⟩
  unfold TableSet.chains
  rw [List.forall_mem_map]
  intro k hk
  rw [List.mem_filter, Option.isNone_iff_eq_none] at hk
  obtain ⟨hk, hleft⟩ := hk
  exact
    { nonempty := List.ne_nil_of_mem (TableSet.mem_chainFrom_self set _ k)
      first := by
        intro p hp
        rw [TableSet.head?_chainFrom] at hp
        exact Option.some.inj hp ▸ hleft
      last := by
        intro p hp
        have hmem := TableSet.mem_of_mem_chainFrom hk (List.mem_of_getLast? hp)
        exact ht.right_eq_none hmem (TableSet.next?_of_getLast? (hlevel.length_chainFrom_le hk) hp)
      linked := (set.isChain_chainFrom _ k).imp_of_mem_imp fun q s hq _ hnext =>
        hadjoins q (TableSet.mem_of_mem_chainFrom hk hq) s hnext }

/-! ## Links of a split set -/

/-- A link in a chain leads to the next plan or to the one before. -/
theorem LinkChain.exists_pair {chain : List TablePlan} (h : LinkChain chain) (hp : p ∈ chain)
    {side : Side} {link : JoinLink} (hlink : p.linkOn side = some link) :
    ∃ before l r after, chain = before ++ l :: r :: after ∧ l.Adjoins r ∧
      (side = .left ∧ p = r ∨ side = .right ∧ p = l) := by
  obtain ⟨before, after, rfl⟩ := List.append_of_mem hp
  cases side with
  | left =>
    rcases List.eq_nil_or_concat before with rfl | ⟨before, l, rfl⟩
    · have hnone := h.first p rfl
      rw [TablePlan.linkOn_left, hnone] at hlink
      cases hlink
    · have hlinked := h.linked
      rw [List.concat_eq_append, List.append_assoc, List.singleton_append] at hlinked ⊢
      exact ⟨before, l, p, after, rfl,
        (List.isChain_cons_cons.mp (List.isChain_append.mp hlinked).2.1).1, Or.inl ⟨rfl, rfl⟩⟩
  | right =>
    cases after with
    | nil =>
      have hnone := h.last p (by simp)
      rw [TablePlan.linkOn_right, hnone] at hlink
      cases hlink
    | cons r after =>
      exact ⟨before, p, r, after, rfl,
        (List.isChain_cons_cons.mp (List.isChain_append.mp h.linked).2.1).1, Or.inr ⟨rfl, rfl⟩⟩

section

variable {chains : List (List TablePlan)} (hperm : chains.flatten.Perm set.tables)
  (hchains : ∀ chain ∈ chains, LinkChain chain)

include hperm hchains

/-- A link of a split set leads to the next plan or to the one before. -/
theorem exists_pair_of_splits (hp : p ∈ set.tables) {side : Side} {link : JoinLink}
    (hlink : p.linkOn side = some link) :
    ∃ before l r after, chains.flatten = before ++ l :: r :: after ∧ l ∈ set.tables ∧
      r ∈ set.tables ∧ l.Adjoins r ∧ (side = .left ∧ p = r ∨ side = .right ∧ p = l) := by
  obtain ⟨chain, hchain, hpc⟩ := List.mem_flatten.mp (hperm.mem_iff.mpr hp)
  obtain ⟨before, l, r, after, rfl, hadj, hside⟩ := (hchains chain hchain).exists_pair hpc hlink
  have hmem : ∀ q ∈ before ++ l :: r :: after, q ∈ set.tables :=
    fun q hq => hperm.mem_iff.mp (List.mem_flatten.mpr ⟨_, hchain, hq⟩)
  obtain ⟨xs, ys, rfl⟩ := List.append_of_mem hchain
  refine ⟨xs.flatten ++ before, l, r, after ++ ys.flatten, ?_, hmem l (by simp), hmem r (by simp),
    hadj, hside⟩
  simp only [List.flatten_append, List.flatten_cons, List.append_assoc, List.cons_append]

variable (hids : (set.tables.map TablePlan.id).Nodup)

include hids

theorem answered_of_splits : Answered set.tables := by
  refine ⟨hids, fun side p hp link hlink => ?_⟩
  obtain ⟨before, l, r, after, heq, hl, hr, hadj, hside⟩ :=
    exists_pair_of_splits hperm hchains hp hlink
  obtain ⟨right, left, hright, hleft, hto, hback, htype, -⟩ := hadj
  have hne : l.id ≠ r.id := by
    have hnodup := (hperm.map TablePlan.id).nodup_iff.mpr hids
    rw [heq, List.map_append, List.nodup_append] at hnodup
    exact fun hid => (List.nodup_cons.mp hnodup.2.1).1 (hid ▸ List.mem_cons_self)
  rcases hside with ⟨rfl, rfl⟩ | ⟨rfl, rfl⟩
  · obtain rfl := Option.some.inj (hlink.symm.trans hleft)
    exact ⟨l, hl, hback.symm, hne, right, hright, hto, htype⟩
  · obtain rfl := Option.some.inj (hlink.symm.trans hright)
    exact ⟨r, hr, hto.symm, hne.symm, left, hleft, hback, htype.symm⟩

theorem agreeing_of_splits : Agreeing set.tables := by
  intro side p hp q hq link back hlink hback hto hfrom
  obtain ⟨-, l, r, -, -, hl, hr, ⟨right, left, hright, hleft, hlr, hrl, htype, hon⟩, hside⟩ :=
    exists_pair_of_splits hperm hchains hp hlink
  have hagrees : right.agrees left = true :=
    Bool.and_eq_true_iff.mpr ⟨beq_iff_eq.mpr htype, hon⟩
  rcases hside with ⟨rfl, rfl⟩ | ⟨rfl, rfl⟩
  · obtain rfl := Option.some.inj (hlink.symm.trans hleft)
    obtain rfl := eq_of_id_of_nodup hids hq hl (hto.symm.trans hrl)
    obtain rfl := Option.some.inj (hback.symm.trans hright)
    exact JoinLink.agrees_symm hagrees
  · obtain rfl := Option.some.inj (hlink.symm.trans hright)
    obtain rfl := eq_of_id_of_nodup hids hq hr (hto.symm.trans hlr)
    obtain rfl := Option.some.inj (hback.symm.trans hleft)
    exact hagrees

/-- In a split set, links to the right go from each position to the next. -/
theorem leveled_of_splits :
    Leveled (fun id => ((chains.flatten.map TablePlan.id).idxOf id : Int)) set.tables := by
  intro p hp link hlink
  have hlink : p.linkOn .right = some link := hlink
  obtain ⟨before, l, r, after, heq, -, -, ⟨right, left, hright, -, hto, -⟩, hside⟩ :=
    exists_pair_of_splits hperm hchains hp hlink
  obtain ⟨⟨⟩, -⟩ | ⟨-, rfl⟩ := hside
  obtain rfl := Option.some.inj (hlink.symm.trans hright)
  have hnodup := (hperm.map TablePlan.id).nodup_iff.mpr hids
  rw [heq, List.map_append, List.map_cons, List.map_cons] at hnodup ⊢
  obtain ⟨-, hrest, hapart⟩ := List.nodup_append.mp hnodup
  have hp : p.id ∉ before.map TablePlan.id :=
    fun hin => hapart _ hin _ List.mem_cons_self rfl
  have hr : r.id ∉ before.map TablePlan.id :=
    fun hin => hapart _ hin _ (List.mem_cons_of_mem _ List.mem_cons_self) rfl
  have hne : p.id ≠ r.id := fun hid => (List.nodup_cons.mp hrest).1 (hid ▸ List.mem_cons_self)
  simp only [hto, List.idxOf_append_of_notMem hp, List.idxOf_append_of_notMem hr,
    List.idxOf_cons_self, List.idxOf_cons_ne _ hne]
  omega

end

/-! ## What passes the check -/

theorem except_bind_ne_error {ε α β : Type} {x : Except ε α} {f : α → Except ε β} {e : ε}
    (hx : x ≠ .error e) (hf : ∀ a, f a ≠ .error e) : x >>= f ≠ .error e := by
  cases x with
  | error e' => exact fun h => hx (congrArg _ (Except.error.inj h))
  | ok a => exact hf a

/-- A link that fails its check is dangling or contradictory. -/
theorem checkLink_ne_cyclic (side : Side) (link? : Option JoinLink) :
    set.checkLink p side link? ≠ .error .cyclicJoinGraph := by
  cases link? with
  | none => rintro ⟨⟩
  | some link =>
    rw [TablePlan.checkLink_some]
    refine except_bind_ne_error ?_ fun q => ?_
    · unfold TableSet.require
      cases set.get? link.target <;> rintro ⟨⟩
    · cases q.linkOn side.other with
      | none => rintro ⟨⟩
      | some back =>
        rw [Option.elim_some]
        split <;> rintro ⟨⟩

theorem checkPlans_ne_cyclic (plans : List TablePlan) :
    set.checkPlans plans ≠ .error .cyclicJoinGraph := by
  induction plans with
  | nil => rintro ⟨⟩
  | cons p rest ih =>
    unfold TableSet.checkPlans TableSet.checkPlan
    refine except_bind_ne_error (except_bind_ne_error ?_ fun _ => ?_) fun _ => ih
    · exact checkLink_ne_cyclic .left p.left
    · exact checkLink_ne_cyclic .right p.right

/-- The links of plans with handles of their own pass their check just if the plans can be split
into chains. They are called cyclic only if each of them leads into the set and is answered by an
equal one. -/
theorem validateLinks_iff_splits (hids : set.ids.Nodup) :
    (set.validateLinks = .ok () ↔ set.Splits) ∧
      (set.validateLinks = .error .cyclicJoinGraph → ∀ p ∈ set.tables, ∀ side link,
        p.linkOn side = some link → set.Answers p.id side link) := by
  refine ⟨⟨splits_of_validateLinks hids, ?_⟩, fun hcyclic => ?_⟩
  · rintro ⟨chains, hperm, hchains⟩
    have ht := answered_of_splits hperm hchains hids
    have hagree := agreeing_of_splits hperm hchains hids
    exact (validateLinks_iff ht hagree).1.mpr ⟨_, leveled_of_splits hperm hchains hids⟩
  · cases hplans : set.checkPlans set.tables with
    | ok _ => exact checkPlans_ok hplans
    | error e =>
      unfold TableSet.validateLinks at hcyclic
      rw [hplans] at hcyclic
      obtain rfl := Except.error.inj hcyclic
      exact absurd hplans (checkPlans_ne_cyclic set.tables)

/-- A chain of three plans in front of one without links. Two plans that are linked on both sides
are called cyclic. -/
theorem validateLinks_iff_splits_of_chain :
    let ab : Expr := .binary (columnOf "a") .eq (columnOf "b")
    let bc : Expr := .binary (columnOf "b") .lt (columnOf "c")
    let chain : TableSet := ⟨chainOfOnes .left ab bc ++ [TablePlan.one 4 "d"], false⟩
    let ring : TableSet :=
      ⟨[((TablePlan.one 1 "a").withRight ⟨⟨2⟩, .inner, some ab⟩).withLeft ⟨⟨2⟩, .inner, some ab⟩,
        ((TablePlan.one 2 "b").withLeft ⟨⟨1⟩, .inner, some ab⟩).withRight ⟨⟨1⟩, .inner, some ab⟩],
        false⟩
    chain.Splits ∧ ¬ ring.Splits ∧
      ∀ p ∈ ring.tables, ∀ side link, p.linkOn side = some link → ring.Answers p.id side link := by
  intro ab bc chain ring
  have hchain : chain.validateLinks = .ok () := by decide +kernel
  have hring : ring.validateLinks = .error .cyclicJoinGraph := by decide +kernel
  refine ⟨(validateLinks_iff_splits (by decide)).1.mp hchain, fun hsplits => ?_,
    (validateLinks_iff_splits (by decide)).2 hring⟩
  have hok := (validateLinks_iff_splits (by decide)).1.mpr hsplits
  rw [hring] at hok
  cases hok

end QueryPlan
