import QueryPlan.Expr.Basic
import QueryPlan.JoinType
import QueryPlan.Json.Shape

/-!
# Expressions and plan trees as JSON

* `Expr.toJson`, `PlanNode.toJson`: the JSON form of an expression or a plan tree.
* `Expr.ofJson?`, `PlanNode.ofJson?`: reading it back.

A kind of node is the word of its data, and what belongs to the node are the
fields of the payload. Absent options are written as `null`. A number that is
not finite is written as `null` too, which does not read back.
-/

namespace QueryPlan

/-! ## Names, operators and literals -/

/-- The JSON form of a column name. -/
def ColumnName.toJson (name : ColumnName) : Json :=
  .object [("table", .ofOption .string name.table), ("column", .string name.column)]

/-- The column name that data stands for; the table may be missing. -/
def ColumnName.ofJson? (data : Json) : Option ColumnName := do
  let members ← data.members?
  let table ← (← Json.optionalField? members "table").option? Json.text?
  let column ← (← Json.field? members "column").text?
  return ⟨table, column⟩

/-- The JSON form of a list of column names. -/
def columnsToJson (columns : List ColumnName) : Json := .array (columns.map ColumnName.toJson)

/-- The column names that data stands for. -/
def columnsOfJson? (data : Json) : Option (List ColumnName) := do
  (← data.items?).mapM ColumnName.ofJson?

/-- The JSON form of an operator. -/
def BinaryOp.toJson (op : BinaryOp) : Json := .string op.name

/-- The operator that data stands for. -/
def BinaryOp.ofJson? (data : Json) : Option BinaryOp := data.word?.bind BinaryOp.ofName?

/-- The JSON form of an operator. -/
def UnaryOp.toJson (op : UnaryOp) : Json := .string op.name

/-- The operator that data stands for. -/
def UnaryOp.ofJson? (data : Json) : Option UnaryOp := data.word?.bind UnaryOp.ofName?

/-- The JSON form of an operator. -/
def MatchOp.toJson (op : MatchOp) : Json := .string op.name

/-- The operator that data stands for. -/
def MatchOp.ofJson? (data : Json) : Option MatchOp := data.word?.bind MatchOp.ofName?

/-- The JSON form of a quantifier. -/
def Quantifier.toJson (quantifier : Quantifier) : Json := .string quantifier.name

/-- The quantifier that data stands for. -/
def Quantifier.ofJson? (data : Json) : Option Quantifier := data.word?.bind Quantifier.ofName?

/-- The JSON form of a join type. -/
def JoinType.toJson (joinType : JoinType) : Json := .string joinType.name

/-- The join type that data stands for. -/
def JoinType.ofJson? (data : Json) : Option JoinType := data.word?.bind JoinType.ofName?

/-- The JSON form of a literal. -/
def Literal.toJson : Literal → Json
  | .null => .string "Null"
  | .bool value => .tag "Bool" (.bool value)
  | .int value => .tag "Int" (.integer value.toInt)
  | .float value => .tag "Float" (.ofReal value)
  | .string value => .tag "String" (.string value)

/-- The literal that data stands for. -/
def Literal.ofJson? (data : Json) : Option Literal := do
  match ← data.tagged? with
  | ("Null", none) => some .null
  | ("Null", some .null) => some .null
  | ("Bool", some payload) => payload.bool?.map .bool
  | ("Int", some payload) => payload.int64?.map .int
  | ("Float", some payload) => payload.real?.map .float
  | ("String", some payload) => payload.text?.map .string
  | _ => none

/-- The JSON form of an outer column that a nested query reads. -/
def CorrelatedReference.toJson (entry : CorrelatedReference) : Json :=
  .object [("name", entry.name.toJson), ("query_level", .integer entry.level.toNat)]

/-- The outer column that data stands for. -/
def CorrelatedReference.ofJson? (data : Json) : Option CorrelatedReference := do
  let members ← data.members?
  let name ← ColumnName.ofJson? (← Json.field? members "name")
  let level ← (← Json.field? members "query_level").word32?
  return ⟨name, level⟩

/-! ## Writing -/

mutual

/-- The JSON form of an expression. -/
def Expr.toJson : Expr → Json
  | .constant value => .tag "Constant" value.toJson
  | .reference name => .tag "Reference" name.toJson
  | .unary op e => .tag "UnaryOp" (.object [("op", op.toJson), ("expr", e.toJson)])
  | .binary l op r =>
    .tag "BinaryOp" (.object [("left", l.toJson), ("op", op.toJson), ("right", r.toJson)])
  | .pattern op l p escape =>
    .tag "StringMatch" (.object [("op", op.toJson), ("left", l.toJson), ("pattern", p.toJson),
      ("escape", escapeToJson escape)])
  | .call name args =>
    .tag "Function" (.object [("name", .string name), ("args", .array (exprsToJson args))])
  | .query plan correlated =>
    .tag "Query" (.object [("plan", plan.toJson),
      ("correlated", .array (correlated.map CorrelatedReference.toJson))])
  | .quantified quantifier op l r =>
    .tag "Quantified" (.object [("quantifier", quantifier.toJson), ("op", op.toJson),
      ("left", l.toJson), ("right", r.toJson)])

/-- The JSON form of an escape, `null` when there is none. -/
def escapeToJson : Option Expr → Json
  | none => .null
  | some e => e.toJson

/-- The JSON forms of arguments. -/
def exprsToJson : List Expr → List Json
  | [] => []
  | e :: rest => e.toJson :: exprsToJson rest

/-- The JSON form of a plan tree. -/
def PlanNode.toJson : PlanNode → Json
  | .source name => .tag "Source" (.object [("name", .string name)])
  | .naturalJoin l r => .tag "NaturalJoin" (.object [("left", l.toJson), ("right", r.toJson)])
  | .join l r column op value =>
    .tag "Join" (.object [("left", l.toJson), ("right", r.toJson), ("column", column.toJson),
      ("op", op.toJson), ("right_expr", value.toJson)])
  | .outerJoin input mark =>
    .tag "OuterJoin" (.object [("input", input.toJson), ("mark", .string mark)])
  | .union l r => .tag "LogicalUnion" (.object [("left", l.toJson), ("right", r.toJson)])
  | .project input columns =>
    .tag "Project" (.object [("input", input.toJson), ("columns", columnsToJson columns)])
  | .cache input id => .tag "Cache" (.object [("input", input.toJson), ("id", .integer id)])
  | .cacheMark input mark =>
    .tag "CacheMark" (.object [("input", input.toJson), ("mark", .string mark)])
  | .constantSelect input predicate =>
    .tag "ConstantSelect" (.object [("input", input.toJson), ("predicate", predicate.toJson)])
  | .simpleSelect input column op value =>
    .tag "SimpleSelect" (.object [("input", input.toJson), ("column", column.toJson),
      ("op", op.toJson), ("value", value.toJson)])
  | .patternSelect input column op pattern escape =>
    .tag "SimplePatternSelect" (.object [("input", input.toJson), ("column", column.toJson),
      ("op", op.toJson), ("pattern", pattern.toJson), ("escape", escapeToJson escape)])
  | .exhaustiveSelect input predicate =>
    .tag "ExhaustiveSelect" (.object [("input", input.toJson), ("predicate", predicate.toJson)])
  | .anyAllSelect input subQuery columns op quantifier =>
    .tag "NonCorrelatedAnyAll" (.object [("input", input.toJson),
      ("sub_query", subQuery.toJson), ("columns", columnsToJson columns), ("op", op.toJson),
      ("quantifier", quantifier.toJson)])

end

/-- The JSON form of a nested query. -/
def SubQuery.toJson (query : SubQuery) : Json :=
  .object [("plan", query.plan.toJson),
    ("correlated", .array (query.correlated.map CorrelatedReference.toJson))]

/-! ## Reading -/

mutual

/-- The expression of data nested at most `fuel` deep. -/
def Expr.ofJsonWithin (fuel : Nat) (data : Json) : Option Expr :=
  match fuel with
  | 0 => none
  | fuel + 1 => do
    let (word, payload) ← data.tagged?
    let payload ← payload
    if word = "Constant" then
      (Literal.ofJson? payload).map .constant
    else if word = "Reference" then
      (ColumnName.ofJson? payload).map .reference
    else
      let members ← payload.members?
      let expr (name : String) : Option Expr := do
        Expr.ofJsonWithin fuel (← Json.field? members name)
      match word with
      | "UnaryOp" =>
        return .unary (← UnaryOp.ofJson? (← Json.field? members "op")) (← expr "expr")
      | "BinaryOp" =>
        let op ← BinaryOp.ofJson? (← Json.field? members "op")
        return .binary (← expr "left") op (← expr "right")
      | "StringMatch" =>
        let op ← MatchOp.ofJson? (← Json.field? members "op")
        let escape ← (← Json.optionalField? members "escape").option? (Expr.ofJsonWithin fuel)
        return .pattern op (← expr "left") (← expr "pattern") escape
      | "Function" =>
        let name ← (← Json.field? members "name").text?
        let args ← (← (← Json.field? members "args").items?).mapM (Expr.ofJsonWithin fuel)
        return .call name args
      | "Query" =>
        let plan ← PlanNode.ofJsonWithin fuel (← Json.field? members "plan")
        let entries ← (← Json.field? members "correlated").items?
        return .query plan (← entries.mapM CorrelatedReference.ofJson?)
      | "Quantified" =>
        let quantifier ← Quantifier.ofJson? (← Json.field? members "quantifier")
        let op ← BinaryOp.ofJson? (← Json.field? members "op")
        return .quantified quantifier op (← expr "left") (← expr "right")
      | _ => none

/-- The plan tree of data nested at most `fuel` deep. -/
def PlanNode.ofJsonWithin (fuel : Nat) (data : Json) : Option PlanNode :=
  match fuel with
  | 0 => none
  | fuel + 1 => do
    let (word, payload) ← data.tagged?
    let members ← (← payload).members?
    let node (name : String) : Option PlanNode := do
      PlanNode.ofJsonWithin fuel (← Json.field? members name)
    let expr (name : String) : Option Expr := do
      Expr.ofJsonWithin fuel (← Json.field? members name)
    let column : Option ColumnName := do ColumnName.ofJson? (← Json.field? members "column")
    let columns : Option (List ColumnName) := do columnsOfJson? (← Json.field? members "columns")
    let op : Option BinaryOp := do BinaryOp.ofJson? (← Json.field? members "op")
    let mark : Option String := do (← Json.field? members "mark").text?
    match word with
    | "Source" => return .source (← (← Json.field? members "name").text?)
    | "NaturalJoin" => return .naturalJoin (← node "left") (← node "right")
    | "Join" =>
      return .join (← node "left") (← node "right") (← column) (← op) (← expr "right_expr")
    | "OuterJoin" => return .outerJoin (← node "input") (← mark)
    | "LogicalUnion" => return .union (← node "left") (← node "right")
    | "Project" => return .project (← node "input") (← columns)
    | "Cache" => return .cache (← node "input") (← (← Json.field? members "id").nat?)
    | "CacheMark" => return .cacheMark (← node "input") (← mark)
    | "ConstantSelect" => return .constantSelect (← node "input") (← expr "predicate")
    | "SimpleSelect" =>
      return .simpleSelect (← node "input") (← column) (← op) (← expr "value")
    | "SimplePatternSelect" =>
      let op ← MatchOp.ofJson? (← Json.field? members "op")
      let escape ← (← Json.optionalField? members "escape").option? (Expr.ofJsonWithin fuel)
      return .patternSelect (← node "input") (← column) op (← expr "pattern") escape
    | "ExhaustiveSelect" => return .exhaustiveSelect (← node "input") (← expr "predicate")
    | "NonCorrelatedAnyAll" =>
      let quantifier ← Quantifier.ofJson? (← Json.field? members "quantifier")
      return .anyAllSelect (← node "input") (← node "sub_query") (← columns) (← op) quantifier
    | _ => none

end

/-- The expression that data stands for. -/
def Expr.ofJson? (data : Json) : Option Expr := Expr.ofJsonWithin data.depth data

/-- The plan tree that data stands for. -/
def PlanNode.ofJson? (data : Json) : Option PlanNode := PlanNode.ofJsonWithin data.depth data

/-- The nested query that data stands for. -/
def SubQuery.ofJson? (data : Json) : Option SubQuery := do
  let members ← data.members?
  let plan ← PlanNode.ofJson? (← Json.field? members "plan")
  let entries ← (← Json.field? members "correlated").items?
  return ⟨plan, ← entries.mapM CorrelatedReference.ofJson?⟩

end QueryPlan
