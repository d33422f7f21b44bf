import QueryPlan.Expr.Render

/-!
# Plan trees as text

* `PlanNode.children`: the inputs of a node, left to right.
* `PlanNode.preorder`: every node of a tree with its depth, a node before its inputs.
* `PlanNode.label`: one line for a node without its inputs.
* `PlanNode.explain`: the labels in preorder, one a line, inputs two spaces deeper.
-/

namespace QueryPlan

namespace PlanNode

/-- The inputs, left to right. -/
def children : PlanNode → List PlanNode
  | .source _ => []
  | .naturalJoin l r => [l, r]
  | .join l r _ _ _ => [l, r]
  | .outerJoin input _ => [input]
  | .union l r => [l, r]
  | .project input _ => [input]
  | .cache input _ => [input]
  | .cacheMark input _ => [input]
  | .constantSelect input _ => [input]
  | .simpleSelect input _ _ _ => [input]
  | .patternSelect input _ _ _ _ => [input]
  | .exhaustiveSelect input _ => [input]
  | .anyAllSelect input subQuery _ _ _ => [input, subQuery]

/-- Every node of the tree with its depth, the root at `depth`, a node before its inputs. -/
def preorder (depth : Nat) : PlanNode → List (Nat × PlanNode)
  | .source name => [(depth, .source name)]
  | .naturalJoin l r =>
    (depth, .naturalJoin l r) :: (l.preorder (depth + 1) ++ r.preorder (depth + 1))
  | .join l r column op value =>
    (depth, .join l r column op value) :: (l.preorder (depth + 1) ++ r.preorder (depth + 1))
  | .outerJoin input mark => (depth, .outerJoin input mark) :: input.preorder (depth + 1)
  | .union l r => (depth, .union l r) :: (l.preorder (depth + 1) ++ r.preorder (depth + 1))
  | .project input columns => (depth, .project input columns) :: input.preorder (depth + 1)
  | .cache input id => (depth, .cache input id) :: input.preorder (depth + 1)
  | .cacheMark input mark => (depth, .cacheMark input mark) :: input.preorder (depth + 1)
  | .constantSelect input e => (depth, .constantSelect input e) :: input.preorder (depth + 1)
  | .simpleSelect input column op value =>
    (depth, .simpleSelect input column op value) :: input.preorder (depth + 1)
  | .patternSelect input column op pattern escape =>
    (depth, .patternSelect input column op pattern escape) :: input.preorder (depth + 1)
  | .exhaustiveSelect input e => (depth, .exhaustiveSelect input e) :: input.preorder (depth + 1)
  | .anyAllSelect input subQuery columns op quantifier =>
    (depth, .anyAllSelect input subQuery columns op quantifier) ::
      (input.preorder (depth + 1) ++ subQuery.preorder (depth + 1))

/-- Every node of the tree, a node before its inputs. -/
def walk (node : PlanNode) : List PlanNode := (node.preorder 0).map Prod.snd

/-- How many nodes of the tree satisfy `p`. -/
def count (p : PlanNode → Bool) (node : PlanNode) : Nat := node.walk.countP p

/-- Whether the node is a cache. -/
def isCache : PlanNode → Bool
  | .cache .. => true
  | _ => false

/-- The input of a cache node, and any other node itself. -/
def withoutCache : PlanNode → PlanNode
  | .cache input _ => input
  | node => node

/-- One line for a node without its inputs. -/
def label : PlanNode → String
  | .source name => "Source " ++ name
  | .naturalJoin _ _ => "NaturalJoin"
  | .join _ _ column op value =>
    "Join " ++ column.render ++ " " ++ op.symbol ++ " " ++ value.render
  | .outerJoin _ mark => "OuterJoin mark=" ++ mark
  | .union _ _ => "LogicalUnion"
  | .project _ columns => "Project " ++ renderColumns columns
  | .cache _ id => "Cache id=" ++ toString id
  | .cacheMark _ mark => "CacheMark mark=" ++ mark
  | .constantSelect _ predicate => "ConstantSelect " ++ predicate.render
  | .simpleSelect _ column op value =>
    "SimpleSelect " ++ column.render ++ " " ++ op.symbol ++ " " ++ value.render
  | .patternSelect _ column op pattern escape =>
    let start :=
      "SimplePatternSelect " ++ column.render ++ " " ++ op.symbol ++ " " ++ pattern.render
    match escape with
    | some e => start ++ " ESCAPE " ++ e.render
    | none => start
  | .exhaustiveSelect _ predicate => "ExhaustiveSelect " ++ predicate.render
  | .anyAllSelect _ _ columns op quantifier =>
    "NonCorrelatedAnyAll (" ++ renderColumns columns ++ ") " ++ op.symbol ++ " " ++
      quantifier.symbol

/-- A label indented by two spaces per level of depth. -/
def line (entry : Nat × PlanNode) : String :=
  String.ofList (List.replicate (2 * entry.1) ' ') ++ entry.2.label

/-- The labels in preorder, one a line, inputs two spaces deeper. -/
def explain (node : PlanNode) : String := "\n".intercalate ((node.preorder 0).map line)

end PlanNode

end QueryPlan
