import QueryPlan.Expr.References
import QueryPlan.Predicate.Basic
import QueryPlan.TableSet.Basic

/-!
# Classifying the conjuncts of a filter

* `TableSet.classifyOne`: the predicate of one conjunct with the bucket it falls
  in; the literal TRUE has none.
* `TableSet.classifyAll`: the predicates of conjuncts in the order in which they
  are applied: by weight, then by bucket, then as listed.
* `TableSet.classify`: the same for conjuncts that carry nothing.
-/

namespace QueryPlan

/-- Whether an expression is no predicate by its shape: a value, a column, a function call, a
nested query or arithmetic. -/
def Expr.isOpaque (e : Expr) : Bool :=
  (e.isBinary && e.category = .arithmetic) || (!e.isUnary && !e.isBinary)

namespace Predicate

/-- A column compared with a value, or any other predicate on one column. A column on the
right side comes to the left. -/
def ofSingle (e : Expr) (column : ColumnName) : Predicate :=
  match e with
  | .binary left op right =>
    if op.isComparison then
      match left.asReference?, right.asReference? with
      | some name, _ =>
        if right.references.isEmpty then .simpleSingle name op right else .complexSingle column e
      | none, some name =>
        if left.references.isEmpty then .simpleSingle name op.reverse left
        else .complexSingle column e
      | none, none => .complexSingle column e
    else .complexSingle column e
  | e => .complexSingle column e

/-- A comparison with a column alone on at least one side, or any other predicate on
several columns. -/
def ofSeveral (e : Expr) (references : List ColumnName) : Predicate :=
  match e with
  | .binary left op right =>
    if op.isComparison then
      match left.asReference?, right.asReference? with
      | some _, some _ => .standardJoin e false
      | none, none => .exhaustiveJoin e references
      | _, _ => .standardJoin e true
    else .exhaustiveJoin e references
  | e => .exhaustiveJoin e references

/-- The columns that an expression with nested queries reads of the query it filters. -/
def readsWithOuter (e : Expr) : List ColumnName :=
  distinct (e.references ++ (e.readsAcross 1).map CorrelatedReference.name)

/-- A predicate with a nested query, evaluated over all that it and the query read. -/
def ofNested (e : Expr) : Predicate :=
  let references := readsWithOuter e
  if references.isEmpty then .constant e else .exhaustiveSubQuery e references

/-- A column compared with a nested query that reads no column of this one, or any other
predicate with a nested query. -/
def ofSubQuery (e : Expr) : Predicate :=
  match e with
  | .quantified quantifier op left right =>
    match left.asReference?, right.asSubQuery? with
    | some column, some query =>
      if (correlatedAt query.correlated 1).isEmpty then .simpleSubQuery column op quantifier query
      else ofNested e
    | _, _ => ofNested e
  | e => ofNested e

/-- An opaque predicate. It is wrapped as `e AND TRUE`, and never taken apart. -/
def ofOpaque (e : Expr) : Bucket × Predicate :=
  let wrapped := e.and .true
  if wrapped.hasSubQuery then (.subQueries, ofSubQuery wrapped)
  else
    match wrapped.references with
    | [] => (.constants, .constant wrapped)
    | [column] => (.singles, .complexSingle column wrapped)
    | references => (.multis, .exhaustiveJoin wrapped references)

/-- A predicate without nested queries that is neither an OR nor a pattern match. -/
def ofPlain (e : Expr) : Bucket × Predicate :=
  match e.references with
  | [] => (.constants, .constant e)
  | [column] => (.singles, ofSingle e column)
  | references => (.multis, ofSeveral e references)

/-- The column, pattern and escape of a match whose pattern and escape read no column. -/
def simplePattern? : Expr → Option Predicate
  | .pattern op left p escape =>
    match left.asReference? with
    | some column =>
      if p.references.isEmpty && escape.all fun e => e.references.isEmpty then
        some (.simplePattern column op p escape)
      else none
    | none => none
  | _ => none

/-- The place of a predicate: its weight, then its bucket. -/
def comesBefore (a b : Bucket × Predicate) : Bool :=
  decide (a.2.weight < b.2.weight) ||
    (a.2.weight == b.2.weight && decide (a.1.index ≤ b.1.index))

end Predicate

namespace TableSet

/-- A pattern match. -/
def classifyPattern (set : TableSet) (e : Expr) : Except PlanError Predicate :=
  let references := e.references
  if references.isEmpty then .ok (.constant e)
  else
    match Predicate.simplePattern? e with
    | some predicate => .ok predicate
    | none => do
      match ← set.commonOwner references with
      | some _ => return .complexPattern e references
      | none => return .exhaustiveJoin e references

/-- Whether all of `sides` that read columns read one table plan, which is `common` if that
is given. -/
def readOnePlan (set : TableSet) (common : Option PlanId) : List Expr → Except PlanError Bool
  | [] => .ok true
  | side :: rest =>
    let references := side.references
    if references.isEmpty then set.readOnePlan common rest
    else do
      match ← set.commonOwner references, common with
      | some owner, none => set.readOnePlan (some owner) rest
      | some owner, some seen =>
        if owner = seen then set.readOnePlan common rest else return false
      | none, _ => return false

/-- An OR. -/
def classifySubLogic (set : TableSet) (e : Expr) : Except PlanError Predicate := do
  match e with
  | .binary left _ right => return .subLogic e (← set.readOnePlan none [left, right])
  | e => return .subLogic e true

/-- The predicate of one conjunct with the bucket it falls in; the literal TRUE has none. -/
def classifyOne (set : TableSet) (e : Expr) : Except PlanError (Option (Bucket × Predicate)) :=
  if e.isTrue then .ok none
  else if e.isOpaque then .ok (some (Predicate.ofOpaque e))
  else if e.isLogical then (set.classifySubLogic e).map fun p => some (.subLogic, p)
  else if e.hasSubQuery then .ok (some (.subQueries, Predicate.ofSubQuery e))
  else if e.isPattern then (set.classifyPattern e).map fun p => some (.patterns, p)
  else .ok (some (Predicate.ofPlain e))

/-- The predicates of conjuncts with their buckets, as listed. -/
def classifyListed {α : Type} (set : TableSet) :
    List (Expr × α) → Except PlanError (List ((Bucket × Predicate) × α))
  | [] => .ok []
  | (e, a) :: rest => do
    let first ← set.classifyOne e
    let others ← set.classifyListed rest
    match first with
    | some placed => return (placed, a) :: others
    | none => return others

/-- The predicates of conjuncts in the order in which they are applied. What a conjunct
carries goes with its predicate. -/
def classifyAll {α : Type} (set : TableSet) (conjuncts : List (Expr × α)) :
    Except PlanError (List (Predicate × α)) := do
  let placed ← set.classifyListed conjuncts
  let sorted := sortBy (fun a b => Predicate.comesBefore a.1 b.1) placed
  return sorted.map fun (placed, a) => (placed.2, a)

/-- The predicates of conjuncts in the order in which they are applied. -/
def classify (set : TableSet) (conjuncts : List Expr) : Except PlanError (List Predicate) := do
  return (← set.classifyAll (conjuncts.map fun e => (e, ()))).map Prod.fst

end TableSet

end QueryPlan
