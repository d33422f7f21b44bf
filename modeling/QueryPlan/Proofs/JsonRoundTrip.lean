import QueryPlan.Expr.Json
import QueryPlan.Expr.Same

/-!
# Expressions and plan trees that went through JSON

What is written as JSON reads back as it was, except for the numbers that JSON
has no numeral for: they are written as `null`, and nothing that holds one reads
back.

* `Expr.allFinite`, `PlanNode.allFinite`: whether every number with a fraction is
  finite, those inside nested queries included.
* `Expr.ofJsonWithin_unary` and the like: how the fields of one kind of node are read.
* `Expr.ofJsonWithin_toJson`, `PlanNode.ofJsonWithin_toJson`: reading what was
  written, with any fuel that reaches to the leaves.
* `Expr.same_self`, `PlanNode.same_self`: a finite value equals itself.
* `finite_reads_back`: a finite value reads back as an equal one, any other does not
  read back.
-/

namespace QueryPlan

/-! ## Finite values -/

/-- Whether a number is neither a NaN nor infinite. -/
def Binary64.isFinite : Binary64 → Bool
  | .finite .. => true
  | _ => false

/-- Whether a literal is no number with a fraction, or a finite one. -/
def Literal.isFinite : Literal → Bool
  | .float value => value.isFinite
  | _ => true

mutual

/-- Whether every number with a fraction in an expression is finite, those of nested queries
included. -/
def Expr.allFinite : Expr → Bool
  | .constant value => value.isFinite
  | .reference _ => true
  | .unary _ e => e.allFinite
  | .binary l _ r => l.allFinite && r.allFinite
  | .pattern _ l p escape => l.allFinite && p.allFinite && escapeAllFinite escape
  | .call _ args => listAllFinite args
  | .query plan _ => plan.allFinite
  | .quantified _ _ l r => l.allFinite && r.allFinite

/-- Whether every number with a fraction in an escape is finite. -/
def escapeAllFinite : Option Expr → Bool
  | none => true
  | some e => e.allFinite

/-- Whether every number with a fraction in arguments is finite. -/
def listAllFinite : List Expr → Bool
  | [] => true
  | e :: rest => e.allFinite && listAllFinite rest

/-- Whether every number with a fraction in the predicates of a plan tree is finite. -/
def PlanNode.allFinite : PlanNode → Bool
  | .source _ => true
  | .naturalJoin l r => l.allFinite && r.allFinite
  | .join l r _ _ value => l.allFinite && r.allFinite && value.allFinite
  | .outerJoin input _ => input.allFinite
  | .union l r => l.allFinite && r.allFinite
  | .project input _ => input.allFinite
  | .cache input _ => input.allFinite
  | .cacheMark input _ => input.allFinite
  | .constantSelect input predicate => input.allFinite && predicate.allFinite
  | .simpleSelect input _ _ value => input.allFinite && value.allFinite
  | .patternSelect input _ _ pattern escape =>
    input.allFinite && pattern.allFinite && escapeAllFinite escape
  | .exhaustiveSelect input predicate => input.allFinite && predicate.allFinite
  | .anyAllSelect input subQuery _ _ _ => input.allFinite && subQuery.allFinite

end

/-! ## Depth -/

namespace Json

/-- Data have a depth of one at least, which is the fuel that reads their outermost tag. -/
theorem depth_pos (data : Json) : 0 < data.depth := by
  cases data <;> simp [depth]

/-- A member of an object is no deeper than the deepest of them. -/
theorem depth_le_depthOfMembers : ∀ {members : List (String × Json)} {member : String × Json},
    member ∈ members → member.2.depth ≤ depthOfMembers members
  | _ :: _, _, .head _ => Nat.le_max_left ..
  | _ :: _, _, .tail _ h => Nat.le_trans (depth_le_depthOfMembers h) (Nat.le_max_right ..)

/-- Fuel for a node leaves fuel for each of its fields. -/
theorem fuel_of_fields {word : String} {members : List (String × Json)} {fuel : Nat}
    (h : (tag word (.object members)).depth ≤ fuel) :
    ∃ rest, fuel = rest + 1 ∧ ∀ member ∈ members, member.2.depth ≤ rest := by
  obtain _ | rest := fuel
  · exact absurd h (Nat.not_le_of_lt (depth_pos _))
  · refine ⟨rest, rfl, fun member mem => ?_⟩
    have inside : depthOfMembers members + 1 ≤ rest := by
      have := depth_le_depthOfMembers (List.mem_singleton_self (word, Json.object members))
      simp only [tag, depth] at h this
      omega
    have := depth_le_depthOfMembers mem
    omega

end Json

/-! ## Scalars -/

/-- A column name reads back. -/
theorem ColumnName.ofJson?_toJson (name : ColumnName) :
    ColumnName.ofJson? name.toJson = some name := by
  obtain ⟨table, column⟩ := name
  cases table <;>
    simp [ColumnName.ofJson?, ColumnName.toJson, Json.members?, Json.optionalField?, Json.field?,
      Json.ofOption, Json.option?, Json.text?]

/-- A list reads back when each of its items does. -/
theorem mapM_map_eq_some {α β : Type} {f : α → β} {g : β → Option α}
    (back : ∀ a, g (f a) = some a) (l : List α) : (l.map f).mapM g = some l := by
  induction l with
  | nil => rfl
  | cons a l ih =>
    rw [List.map_cons, List.mapM_cons, back a, ih]
    rfl

/-- A list of column names reads back. -/
theorem columnsOfJson?_toJson (columns : List ColumnName) :
    columnsOfJson? (columnsToJson columns) = some columns :=
  mapM_map_eq_some ColumnName.ofJson?_toJson columns

/-- A binary operator reads back. -/
theorem BinaryOp.ofJson?_toJson (op : BinaryOp) : BinaryOp.ofJson? op.toJson = some op := by
  cases op <;> rfl

/-- A unary operator reads back. -/
theorem UnaryOp.ofJson?_toJson (op : UnaryOp) : UnaryOp.ofJson? op.toJson = some op := by
  cases op <;> rfl

/-- A pattern operator reads back. -/
theorem MatchOp.ofJson?_toJson (op : MatchOp) : MatchOp.ofJson? op.toJson = some op := by
  cases op <;> rfl

/-- A quantifier reads back. -/
theorem Quantifier.ofJson?_toJson (quantifier : Quantifier) :
    Quantifier.ofJson? quantifier.toJson = some quantifier := by
  cases quantifier <;> rfl

/-- A signed number of 64 bits is in the range that is read. -/
theorem Json.int64?_toInt (value : Int64) : Json.int64? (.integer value.toInt) = some value := by
  have low := Int64.le_toInt value
  have high := Int64.toInt_lt value
  rw [Json.int64?, if_pos ⟨by omega, by omega⟩, Int64.ofInt_toInt]

/-- A word of 32 bits is in the range that is read. -/
theorem Json.word32?_toNat (value : UInt32) : Json.word32? (.integer value.toNat) = some value := by
  have high := value.toNat_lt
  rw [Json.word32?, if_pos ⟨by omega, by omega⟩, Int.toNat_natCast, UInt32.ofNat_toNat]

theorem Json.nat?_natCast (n : Nat) : Json.nat? (.integer n) = some n := by
  rw [Json.nat?, if_pos (Int.natCast_nonneg n), Int.toNat_natCast]

/-- A literal reads back, unless it is a float that is written as null. -/
theorem Literal.ofJson?_toJson (value : Literal) :
    Literal.ofJson? value.toJson = bif value.isFinite then some value else none := by
  cases value with
  | null => rfl
  | bool value => rfl
  | int value =>
    rw [Literal.toJson]
    exact congrArg (Option.map Literal.int) (Json.int64?_toInt value)
  | float value => cases value <;> rfl
  | string value => rfl

/-- An entry is read from its two fields. -/
theorem CorrelatedReference.ofJson?_object (name level : Json) :
    CorrelatedReference.ofJson? (.object [("name", name), ("query_level", level)]) = do
      return ⟨← ColumnName.ofJson? name, ← level.word32?⟩ := by
  simp [CorrelatedReference.ofJson?, Json.members?, Json.field?]

/-- A correlated reference reads back. -/
theorem CorrelatedReference.ofJson?_toJson (entry : CorrelatedReference) :
    CorrelatedReference.ofJson? entry.toJson = some entry := by
  rw [CorrelatedReference.toJson, CorrelatedReference.ofJson?_object, ColumnName.ofJson?_toJson,
    Json.word32?_toNat]
  rfl

/-- A list of correlated references reads back. -/
theorem correlatedOfJson?_toJson (correlated : List CorrelatedReference) :
    (correlated.map CorrelatedReference.toJson).mapM CorrelatedReference.ofJson? =
      some correlated :=
  mapM_map_eq_some CorrelatedReference.ofJson?_toJson correlated

/-! ## Reading one node -/

section Nodes

variable (fuel : Nat)

namespace Expr

theorem ofJsonWithin_constant (value : Json) :
    Expr.ofJsonWithin (fuel + 1) (.tag "Constant" value) =
      (Literal.ofJson? value).map .constant := rfl

theorem ofJsonWithin_reference (name : Json) :
    Expr.ofJsonWithin (fuel + 1) (.tag "Reference" name) =
      (ColumnName.ofJson? name).map .reference := rfl

theorem ofJsonWithin_unary (op e : Json) :
    Expr.ofJsonWithin (fuel + 1) (.tag "UnaryOp" (.object [("op", op), ("expr", e)])) = do
      return .unary (← UnaryOp.ofJson? op) (← Expr.ofJsonWithin fuel e) := rfl

theorem ofJsonWithin_binary (l op r : Json) :
    Expr.ofJsonWithin (fuel + 1)
        (.tag "BinaryOp" (.object [("left", l), ("op", op), ("right", r)])) = do
      let op ← BinaryOp.ofJson? op
      return .binary (← Expr.ofJsonWithin fuel l) op (← Expr.ofJsonWithin fuel r) := rfl

theorem ofJsonWithin_pattern (op l p escape : Json) :
    Expr.ofJsonWithin (fuel + 1) (.tag "StringMatch"
        (.object [("op", op), ("left", l), ("pattern", p), ("escape", escape)])) = do
      let op ← MatchOp.ofJson? op
      let escape ← escape.option? (Expr.ofJsonWithin fuel)
      return .pattern op (← Expr.ofJsonWithin fuel l) (← Expr.ofJsonWithin fuel p) escape := rfl

theorem ofJsonWithin_call (name : String) (args : List Json) :
    Expr.ofJsonWithin (fuel + 1)
        (.tag "Function" (.object [("name", .string name), ("args", .array args)])) = do
      return .call name (← args.mapM (Expr.ofJsonWithin fuel)) := rfl

theorem ofJsonWithin_query (plan : Json) (correlated : List Json) :
    Expr.ofJsonWithin (fuel + 1)
        (.tag "Query" (.object [("plan", plan), ("correlated", .array correlated)])) = do
      let plan ← PlanNode.ofJsonWithin fuel plan
      return .query plan (← correlated.mapM CorrelatedReference.ofJson?) := rfl

theorem ofJsonWithin_quantified (quantifier op l r : Json) :
    Expr.ofJsonWithin (fuel + 1) (.tag "Quantified"
        (.object [("quantifier", quantifier), ("op", op), ("left", l), ("right", r)])) = do
      let quantifier ← Quantifier.ofJson? quantifier
      let op ← BinaryOp.ofJson? op
      return .quantified quantifier op (← Expr.ofJsonWithin fuel l)
        (← Expr.ofJsonWithin fuel r) := rfl

end Expr

namespace PlanNode

theorem ofJsonWithin_source (name : String) :
    PlanNode.ofJsonWithin (fuel + 1) (.tag "Source" (.object [("name", .string name)])) =
      some (.source name) := rfl

theorem ofJsonWithin_naturalJoin (l r : Json) :
    PlanNode.ofJsonWithin (fuel + 1)
        (.tag "NaturalJoin" (.object [("left", l), ("right", r)])) = do
      return .naturalJoin (← PlanNode.ofJsonWithin fuel l) (← PlanNode.ofJsonWithin fuel r) := rfl

theorem ofJsonWithin_join (l r column op value : Json) :
    PlanNode.ofJsonWithin (fuel + 1) (.tag "Join" (.object
        [("left", l), ("right", r), ("column", column), ("op", op), ("right_expr", value)])) = do
      return .join (← PlanNode.ofJsonWithin fuel l) (← PlanNode.ofJsonWithin fuel r)
        (← ColumnName.ofJson? column) (← BinaryOp.ofJson? op)
        (← Expr.ofJsonWithin fuel value) := rfl

theorem ofJsonWithin_outerJoin (input : Json) (mark : String) :
    PlanNode.ofJsonWithin (fuel + 1)
        (.tag "OuterJoin" (.object [("input", input), ("mark", .string mark)])) = do
      return .outerJoin (← PlanNode.ofJsonWithin fuel input) mark := rfl

theorem ofJsonWithin_union (l r : Json) :
    PlanNode.ofJsonWithin (fuel + 1)
        (.tag "LogicalUnion" (.object [("left", l), ("right", r)])) = do
      return .union (← PlanNode.ofJsonWithin fuel l) (← PlanNode.ofJsonWithin fuel r) := rfl

theorem ofJsonWithin_project (input columns : Json) :
    PlanNode.ofJsonWithin (fuel + 1)
        (.tag "Project" (.object [("input", input), ("columns", columns)])) = do
      return .project (← PlanNode.ofJsonWithin fuel input) (← columnsOfJson? columns) := rfl

theorem ofJsonWithin_cache (input id : Json) :
    PlanNode.ofJsonWithin (fuel + 1)
        (.tag "Cache" (.object [("input", input), ("id", id)])) = do
      return .cache (← PlanNode.ofJsonWithin fuel input) (← id.nat?) := rfl

theorem ofJsonWithin_cacheMark (input : Json) (mark : String) :
    PlanNode.ofJsonWithin (fuel + 1)
        (.tag "CacheMark" (.object [("input", input), ("mark", .string mark)])) = do
      return .cacheMark (← PlanNode.ofJsonWithin fuel input) mark := rfl

theorem ofJsonWithin_constantSelect (input predicate : Json) :
    PlanNode.ofJsonWithin (fuel + 1)
        (.tag "ConstantSelect" (.object [("input", input), ("predicate", predicate)])) = do
      return .constantSelect (← PlanNode.ofJsonWithin fuel input)
        (← Expr.ofJsonWithin fuel predicate) := rfl

theorem ofJsonWithin_simpleSelect (input column op value : Json) :
    PlanNode.ofJsonWithin (fuel + 1) (.tag "SimpleSelect" (.object
        [("input", input), ("column", column), ("op", op), ("value", value)])) = do
      return .simpleSelect (← PlanNode.ofJsonWithin fuel input) (← ColumnName.ofJson? column)
        (← BinaryOp.ofJson? op) (← Expr.ofJsonWithin fuel value) := rfl

theorem ofJsonWithin_patternSelect (input column op pattern escape : Json) :
    PlanNode.ofJsonWithin (fuel + 1) (.tag "SimplePatternSelect" (.object
        [("input", input), ("column", column), ("op", op), ("pattern", pattern),
          ("escape", escape)])) = do
      let op ← MatchOp.ofJson? op
      let escape ← escape.option? (Expr.ofJsonWithin fuel)
      return .patternSelect (← PlanNode.ofJsonWithin fuel input) (← ColumnName.ofJson? column) op
        (← Expr.ofJsonWithin fuel pattern) escape := rfl

theorem ofJsonWithin_exhaustiveSelect (input predicate : Json) :
    PlanNode.ofJsonWithin (fuel + 1)
        (.tag "ExhaustiveSelect" (.object [("input", input), ("predicate", predicate)])) = do
      return .exhaustiveSelect (← PlanNode.ofJsonWithin fuel input)
        (← Expr.ofJsonWithin fuel predicate) := rfl

theorem ofJsonWithin_anyAllSelect (input subQuery columns op quantifier : Json) :
    PlanNode.ofJsonWithin (fuel + 1) (.tag "NonCorrelatedAnyAll" (.object
        [("input", input), ("sub_query", subQuery), ("columns", columns), ("op", op),
          ("quantifier", quantifier)])) = do
      let quantifier ← Quantifier.ofJson? quantifier
      return .anyAllSelect (← PlanNode.ofJsonWithin fuel input)
        (← PlanNode.ofJsonWithin fuel subQuery) (← columnsOfJson? columns)
        (← BinaryOp.ofJson? op) quantifier := rfl

end PlanNode

end Nodes

/-! ## Reading what was written -/

section Finite

variable {α β : Type} (c d : Bool) (a : α)

/-- A part that reads back or not, followed by the rest. -/
@[simp] theorem bind_cond_none (f : α → Option β) :
    (bif c then some a else none).bind f = bif c then f a else none := by
  cases c <;> rfl

/-- A part that reads back or not, put into a whole. -/
@[simp] theorem map_cond_none (f : α → β) :
    (bif c then some a else none).map f = bif c then some (f a) else none := by
  cases c <;> rfl

/-- Two parts read back if both do. -/
@[simp] theorem cond_cond_none :
    (bif c then bif d then some a else none else none) = bif c && d then some a else none := by
  cases c <;> rfl

end Finite

/-- An expression is never written as `null`, which is what an absent escape is written as. -/
theorem Expr.option?_toJson {α : Type} (f : Json → Option α) (e : Expr) :
    e.toJson.option? f = (f e.toJson).map some := by
  cases e <;> rfl

mutual

/-- With fuel for the depth of its JSON, an expression reads back exactly if its floats are finite.
-/
theorem Expr.ofJsonWithin_toJson : ∀ (e : Expr) {fuel : Nat}, e.toJson.depth ≤ fuel →
    Expr.ofJsonWithin fuel e.toJson = bif e.allFinite then some e else none
  -- One case for each constructor. A literal has no fields, so that its fuel is looked at here.
  | .constant value, 0, h => absurd h (Nat.not_le_of_lt (Json.depth_pos _))
  | .constant value, fuel + 1, h => by
    rw [Expr.toJson, Expr.ofJsonWithin_constant, Literal.ofJson?_toJson, map_cond_none,
      Expr.allFinite]
  | .reference name, 0, h => absurd h (Nat.not_le_of_lt (Json.depth_pos _))
  | .reference name, fuel + 1, h => by
    rw [Expr.toJson, Expr.ofJsonWithin_reference, ColumnName.ofJson?_toJson]
    rfl
  | .unary op e, fuel, h => by
    obtain ⟨fuel, rfl, enough⟩ := Json.fuel_of_fields h
    have he := e.ofJsonWithin_toJson (enough ("expr", _) (by simp))
    rw [Expr.toJson, Expr.ofJsonWithin_unary, UnaryOp.ofJson?_toJson, he]
    exact bind_cond_none ..
  | .binary l op r, fuel, h => by
    obtain ⟨fuel, rfl, enough⟩ := Json.fuel_of_fields h
    have hl := l.ofJsonWithin_toJson (enough ("left", _) (by simp))
    have hr := r.ofJsonWithin_toJson (enough ("right", _) (by simp))
    rw [Expr.toJson, Expr.ofJsonWithin_binary, BinaryOp.ofJson?_toJson, hl, hr, Expr.allFinite]
    simp
  | .pattern op l p escape, fuel, h => by
    obtain ⟨fuel, rfl, enough⟩ := Json.fuel_of_fields h
    have hl := l.ofJsonWithin_toJson (enough ("left", _) (by simp))
    have hp := p.ofJsonWithin_toJson (enough ("pattern", _) (by simp))
    have hescape := escapeOfJson?_toJson escape (enough ("escape", _) (by simp))
    rw [Expr.toJson, Expr.ofJsonWithin_pattern, MatchOp.ofJson?_toJson, hescape, hl, hp,
      Expr.allFinite]
    -- The escape is read first, so the conditions come in another order.
    cases l.allFinite <;> cases p.allFinite <;> cases escapeAllFinite escape <;> rfl
  | .call name args, fuel, h => by
    obtain ⟨fuel, rfl, enough⟩ := Json.fuel_of_fields h
    have within := enough ("args", .array (exprsToJson args)) (by simp)
    have hargs := exprsOfJson?_toJson args (Nat.le_of_succ_le within)
    rw [Expr.toJson, Expr.ofJsonWithin_call, hargs, Expr.allFinite]
    simp
  | .query plan correlated, fuel, h => by
    obtain ⟨fuel, rfl, enough⟩ := Json.fuel_of_fields h
    have hplan := plan.ofJsonWithin_toJson (enough ("plan", _) (by simp))
    rw [Expr.toJson, Expr.ofJsonWithin_query, hplan, correlatedOfJson?_toJson, Expr.allFinite]
    simp
  | .quantified quantifier op l r, fuel, h => by
    obtain ⟨fuel, rfl, enough⟩ := Json.fuel_of_fields h
    have hl := l.ofJsonWithin_toJson (enough ("left", _) (by simp))
    have hr := r.ofJsonWithin_toJson (enough ("right", _) (by simp))
    rw [Expr.toJson, Expr.ofJsonWithin_quantified, Quantifier.ofJson?_toJson,
      BinaryOp.ofJson?_toJson, hl, hr, Expr.allFinite]
    simp

/-- An escape, which may be missing, reads back exactly if its floats are finite. -/
theorem escapeOfJson?_toJson : ∀ (escape : Option Expr) {fuel : Nat},
    (escapeToJson escape).depth ≤ fuel →
      (escapeToJson escape).option? (Expr.ofJsonWithin fuel) =
        bif escapeAllFinite escape then some escape else none
  | none, _, _ => rfl
  | some e, _, h => by
    rw [escapeToJson, Expr.option?_toJson, e.ofJsonWithin_toJson h, map_cond_none, escapeAllFinite]

/-- A list of arguments reads back exactly if its floats are finite. -/
theorem exprsOfJson?_toJson : ∀ (args : List Expr) {fuel : Nat},
    Json.depthOfItems (exprsToJson args) ≤ fuel →
      (exprsToJson args).mapM (Expr.ofJsonWithin fuel) =
        bif listAllFinite args then some args else none
  | [], _, _ => rfl
  | e :: rest, _, h => by
    have he := e.ofJsonWithin_toJson (Nat.le_trans (Nat.le_max_left ..) h)
    have hrest := exprsOfJson?_toJson rest (Nat.le_trans (Nat.le_max_right ..) h)
    rw [exprsToJson, List.mapM_cons, he, hrest, listAllFinite]
    simp

/-- A plan tree reads back exactly if the floats in its expressions and nested trees are finite. -/
theorem PlanNode.ofJsonWithin_toJson : ∀ (node : PlanNode) {fuel : Nat},
    node.toJson.depth ≤ fuel →
      PlanNode.ofJsonWithin fuel node.toJson = bif node.allFinite then some node else none
  -- One case for each constructor: the fields are read with the fuel that is left below the tag,
  -- and the node reads back if all of them do.
  | .source name, fuel, h => by
    obtain ⟨fuel, rfl, -⟩ := Json.fuel_of_fields h
    rw [PlanNode.toJson, PlanNode.ofJsonWithin_source, PlanNode.allFinite]
    rfl
  | .naturalJoin l r, fuel, h => by
    obtain ⟨fuel, rfl, enough⟩ := Json.fuel_of_fields h
    have hl := l.ofJsonWithin_toJson (enough ("left", _) (by simp))
    have hr := r.ofJsonWithin_toJson (enough ("right", _) (by simp))
    rw [PlanNode.toJson, PlanNode.ofJsonWithin_naturalJoin, hl, hr, PlanNode.allFinite]
    simp
  | .join l r column op value, fuel, h => by
    obtain ⟨fuel, rfl, enough⟩ := Json.fuel_of_fields h
    have hl := l.ofJsonWithin_toJson (enough ("left", _) (by simp))
    have hr := r.ofJsonWithin_toJson (enough ("right", _) (by simp))
    have hvalue := value.ofJsonWithin_toJson (enough ("right_expr", _) (by simp))
    rw [PlanNode.toJson, PlanNode.ofJsonWithin_join, hl, hr, ColumnName.ofJson?_toJson,
      BinaryOp.ofJson?_toJson, hvalue, PlanNode.allFinite]
    simp [Bool.and_assoc]
  | .outerJoin input mark, fuel, h => by
    obtain ⟨fuel, rfl, enough⟩ := Json.fuel_of_fields h
    have hinput := input.ofJsonWithin_toJson (enough ("input", _) (by simp))
    rw [PlanNode.toJson, PlanNode.ofJsonWithin_outerJoin, hinput, PlanNode.allFinite]
    simp
  | .union l r, fuel, h => by
    obtain ⟨fuel, rfl, enough⟩ := Json.fuel_of_fields h
    have hl := l.ofJsonWithin_toJson (enough ("left", _) (by simp))
    have hr := r.ofJsonWithin_toJson (enough ("right", _) (by simp))
    rw [PlanNode.toJson, PlanNode.ofJsonWithin_union, hl, hr, PlanNode.allFinite]
    simp
  | .project input columns, fuel, h => by
    obtain ⟨fuel, rfl, enough⟩ := Json.fuel_of_fields h
    have hinput := input.ofJsonWithin_toJson (enough ("input", _) (by simp))
    rw [PlanNode.toJson, PlanNode.ofJsonWithin_project, hinput, columnsOfJson?_toJson,
      PlanNode.allFinite]
    simp
  | .cache input id, fuel, h => by
    obtain ⟨fuel, rfl, enough⟩ := Json.fuel_of_fields h
    have hinput := input.ofJsonWithin_toJson (enough ("input", _) (by simp))
    rw [PlanNode.toJson, PlanNode.ofJsonWithin_cache, hinput, Json.nat?_natCast, PlanNode.allFinite]
    simp
  | .cacheMark input mark, fuel, h => by
    obtain ⟨fuel, rfl, enough⟩ := Json.fuel_of_fields h
    have hinput := input.ofJsonWithin_toJson (enough ("input", _) (by simp))
    rw [PlanNode.toJson, PlanNode.ofJsonWithin_cacheMark, hinput, PlanNode.allFinite]
    simp
  | .constantSelect input predicate, fuel, h => by
    obtain ⟨fuel, rfl, enough⟩ := Json.fuel_of_fields h
    have hinput := input.ofJsonWithin_toJson (enough ("input", _) (by simp))
    have hpredicate := predicate.ofJsonWithin_toJson (enough ("predicate", _) (by simp))
    rw [PlanNode.toJson, PlanNode.ofJsonWithin_constantSelect, hinput, hpredicate,
      PlanNode.allFinite]
    simp
  | .simpleSelect input column op value, fuel, h => by
    obtain ⟨fuel, rfl, enough⟩ := Json.fuel_of_fields h
    have hinput := input.ofJsonWithin_toJson (enough ("input", _) (by simp))
    have hvalue := value.ofJsonWithin_toJson (enough ("value", _) (by simp))
    rw [PlanNode.toJson, PlanNode.ofJsonWithin_simpleSelect, hinput, ColumnName.ofJson?_toJson,
      BinaryOp.ofJson?_toJson, hvalue, PlanNode.allFinite]
    simp
  | .patternSelect input column op pattern escape, fuel, h => by
    obtain ⟨fuel, rfl, enough⟩ := Json.fuel_of_fields h
    have hinput := input.ofJsonWithin_toJson (enough ("input", _) (by simp))
    have hpattern := pattern.ofJsonWithin_toJson (enough ("pattern", _) (by simp))
    have hescape := escapeOfJson?_toJson escape (enough ("escape", _) (by simp))
    rw [PlanNode.toJson, PlanNode.ofJsonWithin_patternSelect, MatchOp.ofJson?_toJson, hescape,
      hinput, ColumnName.ofJson?_toJson, hpattern, PlanNode.allFinite]
    cases input.allFinite <;> cases pattern.allFinite <;> cases escapeAllFinite escape <;> rfl
  | .exhaustiveSelect input predicate, fuel, h => by
    obtain ⟨fuel, rfl, enough⟩ := Json.fuel_of_fields h
    have hinput := input.ofJsonWithin_toJson (enough ("input", _) (by simp))
    have hpredicate := predicate.ofJsonWithin_toJson (enough ("predicate", _) (by simp))
    rw [PlanNode.toJson, PlanNode.ofJsonWithin_exhaustiveSelect, hinput, hpredicate,
      PlanNode.allFinite]
    simp
  | .anyAllSelect input subQuery columns op quantifier, fuel, h => by
    obtain ⟨fuel, rfl, enough⟩ := Json.fuel_of_fields h
    have hinput := input.ofJsonWithin_toJson (enough ("input", _) (by simp))
    have hsub := subQuery.ofJsonWithin_toJson (enough ("sub_query", _) (by simp))
    rw [PlanNode.toJson, PlanNode.ofJsonWithin_anyAllSelect, Quantifier.ofJson?_toJson, hinput,
      hsub, columnsOfJson?_toJson, BinaryOp.ofJson?_toJson, PlanNode.allFinite]
    simp

end

/-! ## Equal values -/

/-- A finite literal is the same as itself; only NaN is not. -/
theorem Literal.same_self (value : Literal) (h : value.isFinite = true) : value.same value := by
  cases value with
  | float value =>
    cases value <;> simp_all [Literal.isFinite, Binary64.isFinite, Literal.same, Binary64.equal]
  | _ => simp [Literal.same]

mutual

/-- An expression with finite floats is the same as itself. -/
theorem Expr.same_self : ∀ e : Expr, e.allFinite = Bool.true → e.same e
  | .constant value, h => value.same_self h
  | .reference _, _ => by simp [Expr.same]
  | .unary _ e, h => by simp [Expr.same, e.same_self h]
  | .binary l _ r, h => by
    obtain ⟨hl, hr⟩ := Bool.and_eq_true_iff.mp h
    simp [Expr.same, l.same_self hl, r.same_self hr]
  | .pattern _ l p escape, h => by
    obtain ⟨h, hescape⟩ := Bool.and_eq_true_iff.mp h
    obtain ⟨hl, hp⟩ := Bool.and_eq_true_iff.mp h
    simp [Expr.same, l.same_self hl, p.same_self hp, sameOption_self escape hescape]
  | .call _ args, h => by simp [Expr.same, sameList_self args h]
  | .query plan _, h => by simp [Expr.same, plan.same_self h]
  | .quantified _ _ l r, h => by
    obtain ⟨hl, hr⟩ := Bool.and_eq_true_iff.mp h
    simp [Expr.same, l.same_self hl, r.same_self hr]

/-- An escape with finite floats is the same as itself. -/
theorem sameOption_self : ∀ escape : Option Expr, escapeAllFinite escape = true →
    sameOption escape escape
  | none, _ => rfl
  | some e, h => e.same_self h

/-- A list of arguments with finite floats is the same as itself. -/
theorem sameList_self : ∀ args : List Expr, listAllFinite args = true → sameList args args
  | [], _ => rfl
  | e :: rest, h => by
    obtain ⟨he, hrest⟩ := Bool.and_eq_true_iff.mp h
    simp [sameList, e.same_self he, sameList_self rest hrest]

/-- A plan tree with finite floats is the same as itself. -/
theorem PlanNode.same_self : ∀ node : PlanNode, node.allFinite = true → node.same node
  | .source _, _ => by simp [PlanNode.same]
  | .naturalJoin l r, h | .union l r, h => by
    obtain ⟨hl, hr⟩ := Bool.and_eq_true_iff.mp h
    simp [PlanNode.same, l.same_self hl, r.same_self hr]
  | .join l r _ _ value, h => by
    obtain ⟨h, hvalue⟩ := Bool.and_eq_true_iff.mp h
    obtain ⟨hl, hr⟩ := Bool.and_eq_true_iff.mp h
    simp [PlanNode.same, l.same_self hl, r.same_self hr, value.same_self hvalue]
  | .outerJoin input _, h | .project input _, h | .cache input _, h | .cacheMark input _, h => by
    simp [PlanNode.same, input.same_self h]
  | .constantSelect input e, h | .exhaustiveSelect input e, h
  | .simpleSelect input _ _ e, h => by
    obtain ⟨hinput, he⟩ := Bool.and_eq_true_iff.mp h
    simp [PlanNode.same, input.same_self hinput, e.same_self he]
  | .patternSelect input _ _ pattern escape, h => by
    obtain ⟨h, hescape⟩ := Bool.and_eq_true_iff.mp h
    obtain ⟨hinput, hpattern⟩ := Bool.and_eq_true_iff.mp h
    simp [PlanNode.same, input.same_self hinput, pattern.same_self hpattern,
      sameOption_self escape hescape]
  | .anyAllSelect input subQuery _ _ _, h => by
    obtain ⟨hinput, hsub⟩ := Bool.and_eq_true_iff.mp h
    simp [PlanNode.same, input.same_self hinput, subQuery.same_self hsub]

end

/-! ## The round trip -/

/-- Finite expressions and plan trees read back from their JSON form as equal values; those with
a number that is not finite do not read back. -/
theorem finite_reads_back :
    (∀ e : Expr,
      (e.allFinite = true → Expr.ofJson? e.toJson = some e ∧ (e == e) = true) ∧
        (e.allFinite = false → Expr.ofJson? e.toJson = none)) ∧
      ∀ node : PlanNode,
        (node.allFinite = true →
          PlanNode.ofJson? node.toJson = some node ∧ (node == node) = true) ∧
          (node.allFinite = false → PlanNode.ofJson? node.toJson = none) := by
  refine ⟨fun e => ?_, fun node => ?_⟩
  · have read : Expr.ofJson? e.toJson = _ := e.ofJsonWithin_toJson (Nat.le_refl _)
    exact ⟨fun h => ⟨by rw [read, h]; rfl, e.same_self h⟩, fun h => by rw [read, h]; rfl⟩
  · have read : PlanNode.ofJson? node.toJson = _ := node.ofJsonWithin_toJson (Nat.le_refl _)
    exact ⟨fun h => ⟨by rw [read, h]; rfl, node.same_self h⟩, fun h => by rw [read, h]; rfl⟩

/-- A negative zero compared with a nested query that reads an outer column and has no escape. -/
def zeroBelowAny : Expr :=
  .quantified .any .lt (.constant (.float (.finite true ⟨0, by decide⟩)))
    (.query (.patternSelect (.cache (.source "a") 1) (.qualified "a" "x") .like
      (.constant (.string "%")) none) [⟨.unqualified "y", 1⟩])

/-- A plan tree with a NaN in a nested query. -/
def nestedNaN : PlanNode :=
  .constantSelect (.source "a")
    (.query (.exhaustiveSelect (.source "b") (.constant (.float .nan))) [])

theorem zeroBelowAny_reads_back :
    (Expr.ofJson? zeroBelowAny.toJson = some zeroBelowAny ∧ (zeroBelowAny == zeroBelowAny) = true) ∧
      PlanNode.ofJson? nestedNaN.toJson = none :=
  ⟨(finite_reads_back.1 zeroBelowAny).1 (by decide), (finite_reads_back.2 nestedNaN).2 (by decide)⟩

end QueryPlan
