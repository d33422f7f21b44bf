import QueryPlan.Proofs.LightPredicates

/-!
# Classification keeps every conjunct

Each listed expression but the literal TRUE is sent to one bucket as one predicate, whatever is
listed beside it. The predicates come in the order of their factors, and say what the expressions
say.

- `Truth`: when expressions are true, where all that is known is how TRUE, AND and swapped
  comparisons behave.
- `Restates`: an expression, the same joined with TRUE, or a comparison swapped.
- `restates_of_classifyOne`: a predicate restates its expression.
- `Predicate.factor_less_iff`: factors are ordered as the weights are.
- `Sent`: an expression of a list with the bucket and the predicate it was sent to.
- `exists_sent`: what a list of expressions is sent to.
- `sent_of_classify`: the same in the order in which it is applied.
-/

namespace QueryPlan

universe u

variable {set : TableSet} {e : Expr} {predicate : Predicate}

/-! ## What a predicate says -/

/-- When expressions are true. The literal TRUE always is, AND is conjunction, and comparisons hold
with their operands swapped; nothing else is known. -/
structure Truth (R : Type u) where
  holds : Expr → R → Prop
  holds_true : ∀ r, holds .true r
  holds_and : ∀ a b r, holds (.binary a .and b) r ↔ holds a r ∧ holds b r
  holds_reverse : ∀ a op b r, op.isComparison = true →
    (holds (.binary a op b) r ↔ holds (.binary b op.reverse a) r)

/-- An expression says the same as another one by the laws of TRUE, AND and swapped comparisons. -/
inductive Restates : Expr → Expr → Prop
  | same (e : Expr) : Restates e e
  | wrapped (e : Expr) : Restates e (e.and .true)
  | swapped {op : BinaryOp} (left right : Expr) (hcmp : op.isComparison = true) :
    Restates (.binary left op right) (.binary right op.reverse left)

/-- What restates an expression is true when the expression is. -/
theorem Restates.holds_iff {R : Type u} (truth : Truth R) {e' : Expr} (h : Restates e e') (r : R) :
    truth.holds e' r ↔ truth.holds e r := by
  cases h with
  | same => exact Iff.rfl
  | wrapped =>
    rw [Expr.and, truth.holds_and]
    exact and_iff_left (truth.holds_true r)
  | swapped left right hcmp => exact (truth.holds_reverse left _ right r hcmp).symm

/-- What is kept of an expression restates it. -/
theorem Predicate.Kept.restates {expr : Expr} (h : Predicate.Kept e expr) : Restates e expr := by
  cases h with
  | whole => exact .same e
  | wrapped => exact .wrapped e

/-- A predicate keeps its expression, but that a column on the right of a comparison comes to the
left. -/
theorem Predicate.KindOf.restates (h : predicate.KindOf set e) : Restates e predicate.meaning := by
  cases h with
  | constant kept | complexSingle kept | exhaustiveJoin kept | exhaustiveSubQuery kept =>
    exact kept.restates
  | columnLeft shape | simplePattern shape | simpleSubQuery shape =>
    subst shape
    exact .same _
  | columnRight shape comparison =>
    subst shape
    exact .swapped _ _ comparison
  | complexPattern | standardJoin => exact .same e

/-- A predicate restates its expression. -/
theorem restates_of_classifyOne {placed : Bucket × Predicate}
    (h : set.classifyOne e = .ok (some placed)) : Restates e placed.2.meaning := by
  rcases TableSet.kind_of_classifyOne h with ⟨-, joinable, hplaced⟩ | ⟨-, hkind⟩
  · rw [hplaced]
    exact .same e
  · exact hkind.restates

/-! ## The order of factors -/

/-- The order of numbers; a NaN comes neither before nor after another. -/
def Binary64.Less : Binary64 → Binary64 → Prop
  | .finite s a, .finite t b =>
    (if s then -(a.val : Int) else a.val) < if t then -(b.val : Int) else b.val
  | .infinite s, .infinite t => s = true ∧ t = false
  | .infinite s, .finite _ _ => s = true
  | .finite _ _, .infinite t => t = false
  | _, _ => False

namespace Predicate

/-- The weights that predicates have. -/
def weights : List Nat := [0, 20, 22, 25, 27, 30, 58, 60, 64, 68, 70, 85]

/-- There are eleven weights at most. -/
theorem weight_mem_weights (predicate : Predicate) : predicate.weight ∈ weights := by
  cases predicate with
  | subLogic _ joinable => cases joinable <;> simp [weight, weights]
  | standardJoin _ mixed => cases mixed <;> simp [weight, weights]
  | _ => simp [weight, weights]

/-- The factor of a weight. -/
def rankOf (weight : Nat) : Nat := Binary64.nearestRank (weight * Binary64.unitsPerOne) 100

/-- Their ranks among the floats are in their order. -/
theorem rankOf_weights : ∀ x ∈ weights, rankOf x < Binary64.rankCount ∧
    ∀ y ∈ weights, (rankOf x < rankOf y ↔ x < y) ∧ (rankOf x = rankOf y ↔ x = y) := by
  decide +kernel

/-- A factor is the float of its weight. -/
theorem factor_eq (predicate : Predicate) :
    ∃ h, predicate.factor = .finite false ⟨rankOf predicate.weight, h⟩ :=
  ⟨(rankOf_weights _ predicate.weight_mem_weights).1, dif_pos _⟩

/-- Rounding keeps the order of the weights. -/
theorem factor_less_iff {a b : Predicate} : a.factor.Less b.factor ↔ a.weight < b.weight := by
  obtain ⟨ha, hfa⟩ := a.factor_eq
  obtain ⟨hb, hfb⟩ := b.factor_eq
  obtain ⟨-, hall⟩ := rankOf_weights _ a.weight_mem_weights
  rw [← (hall _ b.weight_mem_weights).1, hfa, hfb]
  exact Int.ofNat_lt

/-- Equal factors come from equal weights. -/
theorem factor_eq_iff {a b : Predicate} : a.factor = b.factor ↔ a.weight = b.weight := by
  obtain ⟨ha, hfa⟩ := a.factor_eq
  obtain ⟨hb, hfb⟩ := b.factor_eq
  obtain ⟨-, hall⟩ := rankOf_weights _ a.weight_mem_weights
  rw [← (hall _ b.weight_mem_weights).2, hfa, hfb]
  simp only [Binary64.finite.injEq, Fin.mk.injEq, true_and]

end Predicate

/-! ## What is listed -/

/-- An expression at a position of a list, with the bucket that it was sent to and its predicate. -/
structure Sent where
  source : Expr
  position : Nat
  bucket : Bucket
  predicate : Predicate

/-- The predicate comes no later than the other, by weight and then by bucket. -/
def Sent.Before (a b : Sent) : Prop :=
  Predicate.comesBefore (a.bucket, a.predicate) (b.bucket, b.predicate) = true

instance : DecidableRel Sent.Before :=
  fun _ _ => inferInstanceAs (Decidable (Predicate.comesBefore _ _ = true))

instance : Std.Total Sent.Before := ⟨fun _ _ => Predicate.comesBefore_total _ _⟩

instance : IsTrans Sent Sent.Before := ⟨fun _ _ _ => Predicate.comesBefore_trans⟩

/-- What is applied first: what has the smaller factor, of those with one factor what is in the
earlier bucket, and of those in one bucket what is listed first. -/
def Sent.Precedes (a b : Sent) : Prop :=
  a.predicate.factor.Less b.predicate.factor ∨ a.predicate.factor = b.predicate.factor ∧
    (a.bucket.index < b.bucket.index ∨ a.bucket = b.bucket ∧ a.position < b.position)

namespace TableSet

/-- What expressions carry has no part in what they are sent to. -/
theorem classifyListed_map_ok {α β : Type} {f : α → β} {agenda : List (Expr × α)}
    {placed : List ((Bucket × Predicate) × β)}
    (h : set.classifyListed (agenda.map fun x => (x.1, f x.2)) = .ok placed) :
    ∃ placed', set.classifyListed agenda = .ok placed' ∧
      placed = placed'.map fun y => (y.1, f y.2) := by
  induction agenda generalizing placed with
  | nil =>
    cases h
    exact ⟨[], rfl, rfl⟩
  | cons x rest ih =>
    obtain ⟨first, others, hfirst, hothers, rfl⟩ := classifyListed_cons_ok.mp h
    obtain ⟨others', hothers', rfl⟩ := ih hothers
    refine ⟨_, classifyListed_cons_ok.mpr ⟨first, others', hfirst, hothers', rfl⟩, ?_⟩
    cases first <;> rfl

/-- Each listed expression but the literal TRUE is sent to one bucket, in the order of the list. -/
theorem exists_sent {agenda : List (Expr × Nat)} {placed : List ((Bucket × Predicate) × Nat)}
    (h : set.classifyListed agenda = .ok placed) :
    ∃ sent : List Sent, sent.map (fun s => ((s.bucket, s.predicate), s.position)) = placed ∧
      sent.map (fun s => (s.source, s.position)) = agenda.filter (fun x => !x.1.isTrue) ∧
      ∀ s ∈ sent, set.classifyOne s.source = .ok (some (s.bucket, s.predicate)) := by
  have hplaces := places_of_classifyListed h
  clear h
  generalize agenda.filter (fun x => !x.1.isTrue) = kept at hplaces
  induction hplaces with
  | nil => exact ⟨[], rfl, rfl, List.forall_mem_nil _⟩
  | @cons x y kept placed hxy _ ih =>
    obtain ⟨sent, rfl, rfl, hone⟩ := ih
    refine ⟨⟨x.1, x.2, y.1.1, y.1.2⟩ :: sent, ?_, rfl, List.forall_mem_cons.mpr ⟨hxy.1, hone⟩⟩
    rw [List.map_cons, ← hxy.2]

/-- An expression that is sent to a bucket is classified the same alone. -/
theorem classify_singleton {placed : Bucket × Predicate}
    (h : set.classifyOne e = .ok (some placed)) : set.classify [e] = .ok [placed.2] := by
  unfold classify classifyAll
  have hlisted : set.classifyListed [(e, ())] = .ok [(placed, ())] :=
    classifyListed_cons_ok.mpr ⟨some placed, [], h, rfl, rfl⟩
  rw [List.map_singleton, hlisted]
  rfl

/-- What comes before another by weight and bucket, and by position where these tie, precedes it. -/
theorem precedes_of_before {a b : Sent} (hle : a.Before b)
    (htie : b.Before a → a.position < b.position) : a.Precedes b := by
  have hindex : ∀ x y : Bucket, x.index = y.index → x = y := by
    intro x y
    cases x <;> cases y <;> decide
  unfold Sent.Precedes
  rw [Predicate.factor_less_iff, Predicate.factor_eq_iff]
  unfold Sent.Before at hle htie
  rw [Predicate.comesBefore_iff] at hle htie
  rcases hle with hlt | ⟨heq, hle⟩
  · exact Or.inl hlt
  · refine Or.inr ⟨heq, ?_⟩
    rcases Nat.lt_or_eq_of_le hle with hlt | hsame
    · exact Or.inl hlt
    · exact Or.inr ⟨hindex _ _ hsame, htie (Or.inr ⟨heq.symm, hsame.ge⟩)⟩

/-- Of the listed expressions, each but the literal TRUE has one predicate, which is the one that it
has alone. They are in the order of their factors, then of their buckets, then of the list, and
each is true just where its expression is. -/
theorem sent_of_classify {es : List Expr} {predicates : List Predicate}
    (h : set.classify es = .ok predicates) :
    ∃ sent : List Sent, sent.map Sent.predicate = predicates ∧
      (sent.map fun s => (s.source, s.position)).Perm (es.zipIdx.filter fun x => !x.1.isTrue) ∧
      (∀ s ∈ sent, set.classifyOne s.source = .ok (some (s.bucket, s.predicate)) ∧
        set.classify [s.source] = .ok [s.predicate]) ∧
      sent.Pairwise Sent.Precedes ∧
      ∀ s ∈ sent, ∀ {R : Type u} (truth : Truth R) (r : R),
        truth.holds s.predicate.meaning r ↔ truth.holds s.source r := by
  unfold classify classifyAll at h
  obtain ⟨sorted, hsorted, hpredicates⟩ := except_bind_ok.mp h
  obtain ⟨placed, hplaced, hsorted⟩ := except_bind_ok.mp hsorted
  -- Numbering the expressions changes nothing to how they are classified.
  have hlist : (es.map fun e => (e, ())) = es.zipIdx.map fun x => (x.1, ()) := by
    conv_lhs => rw [← List.zipIdx_map_fst 0 es, List.map_map]
    rfl
  rw [hlist] at hplaced
  obtain ⟨numbered, hnumbered, rfl⟩ := classifyListed_map_ok (f := fun _ => ()) hplaced
  obtain ⟨listed, rfl, hsources, hone⟩ := exists_sent hnumbered
  have hperm := List.perm_insertionSort Sent.Before listed
  -- They are listed in their positions, so that a stable sort keeps these within one factor and
  -- bucket.
  have hpositions : listed.Pairwise fun a b => a.position < b.position := by
    have hascending : (es.zipIdx.map Prod.snd).Pairwise (· < ·) := by
      rw [List.zipIdx_map_snd]
      exact List.pairwise_lt_range'
    have hlisted : (listed.map fun s => (s.source, s.position)).Pairwise fun x y => x.2 < y.2 := by
      rw [hsources]
      exact (List.pairwise_map.mp hascending).sublist List.filter_sublist
    exact List.pairwise_map (f := fun s : Sent => (s.source, s.position)).mp hlisted
  refine ⟨listed.insertionSort Sent.Before, ?_, hsources ▸ hperm.map _, fun s hs => ?_, ?_, ?_⟩
  -- To sort what is sent sorts the predicates.
  · have hsort : (listed.insertionSort Sent.Before).map (fun s => ((s.bucket, s.predicate), ())) =
        (listed.map fun s => ((s.bucket, s.predicate), ())).insertionSort
          fun a b => Predicate.comesBefore a.1 b.1 = true :=
      List.map_insertionSort _ _ _ _ fun _ _ _ _ => Iff.rfl
    cases hsorted
    cases hpredicates
    rw [List.map_map, List.map_map, sortBy_eq_insertionSort]
    show _ = List.map _ (List.insertionSort _ (listed.map fun s => ((s.bucket, s.predicate), ())))
    rw [← hsort, List.map_map]
    rfl
  · have hs := hone s (hperm.mem_iff.mp hs)
    exact ⟨hs, classify_singleton hs⟩
  · exact (pairwise_insertionSort_stable hpositions).imp fun hab => precedes_of_before hab.1 hab.2
  · intro s hs R truth r
    exact (restates_of_classifyOne (hone s (hperm.mem_iff.mp hs))).holds_iff truth r

/-- An OR, a comparison of two columns, TRUE, a comparison with its column on the right, and a
column that is a predicate of its own. -/
theorem sent_of_classify_five :
    let x : Expr := columnOf "a"
    let y : Expr := columnOf "b"
    let five : Expr := .constant (.int 5)
    let set : TableSet := ⟨[TablePlan.one 1 "a", TablePlan.one 2 "b"], false⟩
    ∃ sent : List Sent,
      sent.map Sent.predicate = [.simpleSingle (.qualified "a" "x") .gt five,
        .complexSingle (.qualified "a" "x") (x.and .true), .standardJoin (.binary x .eq y) false,
        .subLogic (.binary x .or y) false] ∧
      (sent.map fun s => (s.source, s.position)).Perm
        [(.binary x .or y, 0), (.binary x .eq y, 1), (.binary five .lt x, 3), (x, 4)] ∧
      (∀ s ∈ sent, set.classify [s.source] = .ok [s.predicate]) ∧
      sent.Pairwise Sent.Precedes ∧
      ∀ s ∈ sent, ∀ {R : Type} (truth : Truth R) (r : R),
        truth.holds s.predicate.meaning r ↔ truth.holds s.source r := by
  intro x y five set
  have hok : set.classify [.binary x .or y, .binary x .eq y, .true, .binary five .lt x, x] =
      .ok [.simpleSingle (.qualified "a" "x") .gt five,
        .complexSingle (.qualified "a" "x") (x.and .true), .standardJoin (.binary x .eq y) false,
        .subLogic (.binary x .or y) false] := by
    rfl
  obtain ⟨sent, hpredicates, hperm, halone, hsorted, hmeaning⟩ := sent_of_classify hok
  exact ⟨sent, hpredicates, hperm, fun s hs => (halone s hs).2, hsorted, hmeaning⟩

end TableSet

end QueryPlan
