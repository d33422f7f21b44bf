import QueryPlan.Proofs.FirstAppearances
import QueryPlan.Proofs.MarkPairs

/-!
# Explained trees

The explanation of a tree has a line for each node, indented by the depth of the node.
The indentation alone says which line is an input of which: the tree can be read back,
except for what the labels leave out.

- `PlanNode.nodeAt?`, `PlanNode.Addresses`: nodes by the way down to them from the root.
- `PlanNode.Alike`: trees with the same shape and the same labels.
- `alike_of_levels`: depths and labels in preorder determine the tree and where it ends.
- `levels_of_lines`: depths and labels are read back from the lines.
- `alike_iff_explain`: trees are alike just if their explanations are equal.
-/

namespace QueryPlan

/-- The lines of a text. -/
def textLines (text : String) : List String := (text.toList.splitOn '\n').map String.ofList

namespace PlanNode

/-! ## Addresses -/

/-- The node at an address, which names an input by its number for each step down from the root. -/
def nodeAt? : PlanNode → List Nat → Option PlanNode
  | node, [] => some node
  | node, i :: address => node.children[i]?.bind fun child => child.nodeAt? address

@[simp] theorem nodeAt?_nil (node : PlanNode) : node.nodeAt? [] = some node := rfl

theorem nodeAt?_cons (node : PlanNode) (i : Nat) (address : List Nat) :
    node.nodeAt? (i :: address) = node.children[i]?.bind fun child => child.nodeAt? address := rfl

/-- All addresses of the tree in the order of a dictionary: a node before the nodes below it, and
these before all that is further to the right. -/
structure Addresses (node : PlanNode) (addresses : List (List Nat)) : Prop where
  sorted : addresses.Pairwise (· < ·)
  mem_iff : ∀ address, address ∈ addresses ↔ (node.nodeAt? address).isSome

theorem preorder_eq (node : PlanNode) (depth : Nat) :
    node.preorder depth = (depth, node) :: node.children.flatMap (preorder (depth + 1)) := by
  cases node <;> simp [preorder, children]

/-- The addresses of a tree are its root and those in each input, after the number of the input. -/
theorem Addresses.of_children {node : PlanNode} {below : PlanNode → List (List Nat)}
    (h : ∀ child ∈ node.children, child.Addresses (below child)) :
    node.Addresses ([] :: node.children.zipIdx.flatMap fun entry =>
      (below entry.1).map (entry.2 :: ·)) where
  sorted := by
    refine List.pairwise_cons.mpr ⟨fun address hmem => ?_, ?_⟩
    · obtain ⟨entry, -, hmem⟩ := List.mem_flatMap.mp hmem
      obtain ⟨_, -, rfl⟩ := List.mem_map.mp hmem
      exact List.nil_lt_cons _ _
    · exact pairwise_numbered below fun child hchild => (h child hchild).sorted
  mem_iff address := by
    -- The empty address is the node itself, and any other one leads into an input.
    cases address with
    | nil => simp
    | cons i address =>
      rw [List.mem_cons, or_iff_right (List.cons_ne_nil i address), nodeAt?_cons]
      constructor
      · intro hmem
        obtain ⟨⟨child, j⟩, hentry, hmem⟩ := List.mem_flatMap.mp hmem
        obtain ⟨_, hmem, heq⟩ := List.mem_map.mp hmem
        cases heq
        have hchild := List.mem_zipIdx_iff_getElem?.mp hentry
        rw [hchild]
        exact ((h child (List.mem_of_getElem? hchild)).mem_iff address).mp hmem
      · intro hsome
        obtain ⟨n, hn⟩ := Option.isSome_iff_exists.mp hsome
        obtain ⟨child, hchild, hn⟩ := Option.bind_eq_some_iff.mp hn
        have hmem : address ∈ below child :=
          ((h child (List.mem_of_getElem? hchild)).mem_iff address).mpr (hn ▸ rfl)
        exact List.mem_flatMap.mpr ⟨(child, i), List.mem_zipIdx_iff_getElem?.mpr hchild,
          List.mem_map_of_mem hmem⟩

/-- A tree is visited in the order of its addresses, and a node is as deep as its address is
long. -/
theorem exists_addresses (node : PlanNode) : ∃ addresses, node.Addresses addresses ∧
    ∀ depth, (node.preorder depth).map (fun entry => (entry.1, some entry.2)) =
      addresses.map fun address => (depth + address.length, node.nodeAt? address) := by
  induction node using induction_children with
  | step node ih =>
    choose! below hbelow hvisits using ih
    refine ⟨_, Addresses.of_children hbelow, fun depth => ?_⟩
    rw [preorder_eq, List.map_cons, List.map_cons, List.map_flatMap, List.map_flatMap]
    refine congrArg (_ :: ·) ?_
    rw [← List.zipIdx_map_fst 0 node.children, List.flatMap_map, List.zipIdx_map_fst]
    refine List.flatMap_congr fun ⟨child, i⟩ hentry => ?_
    have hchild := List.mem_zipIdx_iff_getElem?.mp hentry
    rw [hvisits child (List.mem_of_getElem? hchild), List.map_map]
    refine List.map_congr_left fun address _ => ?_
    rw [Function.comp_apply, nodeAt?_cons, hchild, List.length_cons, Option.bind_some,
      Nat.add_assoc, Nat.add_comm 1]

/-! ## Trees alike -/

/-- The trees have nodes at the same addresses, with the same labels and equally many inputs. -/
def Alike (a b : PlanNode) : Prop :=
  ∀ address, Option.Rel (fun n m => n.label = m.label ∧ n.children.length = m.children.length)
    (a.nodeAt? address) (b.nodeAt? address)

/-- Trees are alike if their roots have one label and their inputs are alike, one by one. -/
theorem alike_iff {a b : PlanNode} :
    a.Alike b ↔ a.label = b.label ∧ List.Forall₂ Alike a.children b.children := by
  constructor
  · intro h
    obtain ⟨hlabel, hlength⟩ : a.label = b.label ∧ a.children.length = b.children.length := by
      cases h [] with
      | some hroot => exact hroot
    refine ⟨hlabel, List.forall₂_iff_get.mpr ⟨hlength, fun i hi hi' address => ?_⟩⟩
    have haddress := h (i :: address)
    rw [nodeAt?_cons, nodeAt?_cons, List.getElem?_eq_getElem hi, List.getElem?_eq_getElem hi']
      at haddress
    exact haddress
  · rintro ⟨hlabel, hchildren⟩ address
    obtain ⟨hlength, hget⟩ := List.forall₂_iff_get.mp hchildren
    cases address with
    | nil => exact .some ⟨hlabel, hlength⟩
    | cons i address =>
      rw [nodeAt?_cons, nodeAt?_cons]
      by_cases hi : i < a.children.length
      · rw [List.getElem?_eq_getElem hi, List.getElem?_eq_getElem (hlength ▸ hi)]
        exact hget i hi (hlength ▸ hi) address
      · rw [List.getElem?_eq_none (Nat.le_of_not_lt hi),
          List.getElem?_eq_none (hlength ▸ Nat.le_of_not_lt hi)]
        exact .none

/-! ## Depths and labels -/

/-- The depth and the label of each node, in preorder. -/
def levels (depth : Nat) (node : PlanNode) : List (Nat × String) :=
  (node.preorder depth).map fun entry => (entry.1, entry.2.label)

theorem levels_eq (node : PlanNode) (depth : Nat) :
    node.levels depth = (depth, node.label) :: node.children.flatMap (levels (depth + 1)) := by
  rw [levels, preorder_eq, List.map_cons, List.map_flatMap]
  rfl

/-- The list does not go on with an entry that is deeper than `depth`. -/
def Closes (depth : Nat) (rest : List (Nat × String)) : Prop :=
  ∀ entry ∈ rest.head?, entry.1 ≤ depth

variable {depth : Nat} {as bs : List PlanNode} {rest rest' : List (Nat × String)}

theorem closes_nil : Closes depth [] := by
  rintro entry ⟨⟩

theorem not_closes_levels (node : PlanNode) :
    ¬ Closes depth (node.levels (depth + 1) ++ rest) := by
  intro h
  rw [levels_eq] at h
  exact Nat.not_succ_le_self depth (h _ rfl)

theorem Closes.flatMap_append (h : Closes depth rest) :
    Closes (depth + 1) (as.flatMap (levels (depth + 1)) ++ rest) := by
  cases as with
  | nil => exact fun entry hentry => Nat.le_succ_of_le (h entry hentry)
  | cons a as =>
    rw [List.flatMap_cons, levels_eq]
    rintro entry ⟨⟩
    exact le_rfl

/-- In a list, the entries of a tree that nothing deeper follows determine the tree and where it
ends. -/
def Determined (a : PlanNode) : Prop :=
  ∀ {b depth rest rest'}, Closes depth rest → Closes depth rest' →
    a.levels depth ++ rest = b.levels depth ++ rest' → a.Alike b ∧ rest = rest'

theorem forall₂_of_levels (hdetermined : ∀ a ∈ as, a.Determined) (hrest : Closes depth rest)
    (hrest' : Closes depth rest') (h : as.flatMap (levels (depth + 1)) ++ rest =
      bs.flatMap (levels (depth + 1)) ++ rest') : List.Forall₂ Alike as bs ∧ rest = rest' := by
  induction as generalizing bs with
  | nil =>
    cases bs with
    | nil => exact ⟨.nil, h⟩
    | cons b bs =>
      rw [List.flatMap_nil, List.nil_append, List.flatMap_cons, List.append_assoc] at h
      exact absurd (h ▸ hrest) (not_closes_levels b)
  | cons a as ih =>
    cases bs with
    | nil =>
      rw [List.flatMap_nil, List.nil_append, List.flatMap_cons, List.append_assoc] at h
      exact absurd (h ▸ hrest') (not_closes_levels a)
    | cons b bs =>
      rw [List.flatMap_cons, List.flatMap_cons, List.append_assoc, List.append_assoc] at h
      rw [List.forall_mem_cons] at hdetermined
      obtain ⟨halike, h⟩ := hdetermined.1 hrest.flatMap_append hrest'.flatMap_append h
      obtain ⟨hrests, rfl⟩ := ih hdetermined.2 h
      exact ⟨.cons halike hrests, rfl⟩

/-- Depths and labels in preorder determine a tree and where it ends. -/
theorem alike_of_levels (a : PlanNode) : a.Determined := by
  induction a using induction_children with
  | step a ih =>
    intro b depth rest rest' hrest hrest' h
    rw [levels_eq, levels_eq, List.cons_append, List.cons_append, List.cons_eq_cons,
      Prod.mk.injEq] at h
    obtain ⟨⟨-, hlabel⟩, h⟩ := h
    obtain ⟨hchildren, hends⟩ := forall₂_of_levels ih hrest hrest' h
    exact ⟨alike_iff.mpr ⟨hlabel, hchildren⟩, hends⟩

theorem Alike.levels_eq {a b : PlanNode} (h : a.Alike b) (depth : Nat) :
    a.levels depth = b.levels depth := by
  induction a using induction_children generalizing b depth with
  | step a ih =>
    obtain ⟨hlabel, hchildren⟩ := alike_iff.mp h
    rw [PlanNode.levels_eq, PlanNode.levels_eq, hlabel]
    refine congrArg (_ :: ·) ?_
    generalize a.children = as at ih hchildren
    generalize b.children = bs at hchildren
    induction hchildren with
    | nil => rfl
    | cons hchild _ ihrest =>
      rw [List.forall_mem_cons] at ih
      rw [List.flatMap_cons, List.flatMap_cons, ih.1 hchild, ihrest ih.2]

/-! ## Lines -/

/-- The text starts with a character that is not a space. -/
def Flush (text : String) : Prop := ∃ c rest, text.toList = c :: rest ∧ c ≠ ' '

theorem Flush.append {s : String} (h : Flush s) (t : String) : Flush (s ++ t) := by
  obtain ⟨c, rest, hs, hc⟩ := h
  exact ⟨c, rest ++ t.toList, by rw [String.toList_append, hs, List.cons_append], hc⟩

/-- No label starts with a space. -/
theorem flush_label (node : PlanNode) : Flush node.label := by
  cases node with
  | source name => exact Flush.append ⟨'S', _, rfl, by decide⟩ _
  | naturalJoin l r =>
    show Flush "NaturalJoin"
    exact ⟨'N', _, rfl, by decide⟩
  | join l r column op value =>
    exact ((((Flush.append ⟨'J', _, rfl, by decide⟩ _).append _).append _).append _).append _
  | outerJoin input mark => exact Flush.append ⟨'O', _, rfl, by decide⟩ _
  | union l r =>
    show Flush "LogicalUnion"
    exact ⟨'L', _, rfl, by decide⟩
  | project input columns => exact Flush.append ⟨'P', _, rfl, by decide⟩ _
  | cache input id => exact Flush.append ⟨'C', _, rfl, by decide⟩ _
  | cacheMark input mark => exact Flush.append ⟨'C', _, rfl, by decide⟩ _
  | constantSelect input predicate => exact Flush.append ⟨'C', _, rfl, by decide⟩ _
  | simpleSelect input column op value =>
    exact ((((Flush.append ⟨'S', _, rfl, by decide⟩ _).append _).append _).append _).append _
  | patternSelect input column op pattern escape =>
    have hstart : Flush ("SimplePatternSelect " ++ column.render ++ " " ++ op.symbol ++ " " ++
        pattern.render) :=
      ((((Flush.append ⟨'S', _, rfl, by decide⟩ _).append _).append _).append _).append _
    cases escape with
    | none => exact hstart
    | some e => exact (hstart.append _).append _
  | exhaustiveSelect input predicate => exact Flush.append ⟨'E', _, rfl, by decide⟩ _
  | anyAllSelect input subQuery columns op quantifier =>
    exact ((((Flush.append ⟨'N', _, rfl, by decide⟩ _).append _).append _).append _).append _

/-- The depth and the label that a line was made of. -/
def levelOfLine (text : String) : Nat × String :=
  ((text.toList.takeWhile (· == ' ')).length / 2,
    String.ofList (text.toList.dropWhile (· == ' ')))

/-- Indentation is even, and it ends where the label starts. -/
theorem levelOfLine_line (entry : Nat × PlanNode) :
    levelOfLine (line entry) = (entry.1, entry.2.label) := by
  obtain ⟨c, rest, hlabel, hc⟩ := flush_label entry.2
  have hspaces : ∀ x ∈ List.replicate (2 * entry.1) ' ', (x == ' ') = true := by
    intro x hx
    rw [List.eq_of_mem_replicate hx, beq_self_eq_true]
  have hstop : (c == ' ') = false := beq_false_of_ne hc
  have hline : (line entry).toList = List.replicate (2 * entry.1) ' ' ++ c :: rest := by
    rw [line, String.toList_append, String.toList_ofList, hlabel]
  rw [levelOfLine, hline, List.takeWhile_append_of_pos hspaces,
    List.dropWhile_append_of_pos hspaces,
    List.takeWhile_cons_of_neg (by rw [hstop]; exact Bool.false_ne_true),
    List.dropWhile_cons_of_neg (by rw [hstop]; exact Bool.false_ne_true), List.append_nil,
    List.length_replicate, Nat.mul_div_cancel_left _ Nat.two_pos, ← hlabel, String.ofList_toList]

theorem preorder_ne_nil (node : PlanNode) (depth : Nat) : node.preorder depth ≠ [] := by
  rw [preorder_eq]
  exact List.cons_ne_nil _ _

/-- If no label has a line break, each line of the explanation is the one of a node. -/
theorem textLines_explain {node : PlanNode} (h : ∀ n ∈ node.walk, '\n' ∉ n.label.toList) :
    textLines node.explain = (node.preorder 0).map line := by
  have hbreaks : ∀ l ∈ ((node.preorder 0).map line).map String.toList, '\n' ∉ l := by
    intro l hl
    rw [List.map_map] at hl
    obtain ⟨entry, hentry, rfl⟩ := List.mem_map.mp hl
    rw [Function.comp_apply, line, String.toList_append, String.toList_ofList, List.mem_append,
      not_or]
    refine ⟨fun hmem => ?_, h entry.2 (List.mem_map_of_mem hentry)⟩
    exact absurd (List.eq_of_mem_replicate hmem) (by decide)
  have hne : ((node.preorder 0).map line).map String.toList ≠ [] := by
    rw [Ne, List.map_eq_nil_iff, List.map_eq_nil_iff]
    exact preorder_ne_nil node 0
  rw [textLines, explain, String.toList_intercalate]
  show (List.splitOn '\n' (['\n'].intercalate _)).map _ = _
  rw [List.splitOn_intercalate '\n' hbreaks hne, List.map_map]
  exact (List.map_congr_left fun text _ => String.ofList_toList).trans (List.map_id _)

/-- Depths and labels are read back from the lines. -/
theorem levels_of_lines {node : PlanNode} (h : ∀ n ∈ node.walk, '\n' ∉ n.label.toList) :
    node.levels 0 = (textLines node.explain).map levelOfLine := by
  rw [textLines_explain h, List.map_map]
  exact (List.map_congr_left fun entry _ => levelOfLine_line entry).symm

theorem explain_of_levels (node : PlanNode) : node.explain = "\n".intercalate
    ((node.levels 0).map fun level =>
      String.ofList (List.replicate (2 * level.1) ' ') ++ level.2) := by
  rw [explain, levels, List.map_map]
  rfl

/-- Unless labels have line breaks, trees are alike just if their explanations are equal. The lines
of an explanation stand for the nodes as they are visited, which is in the order of their addresses:
each has the label of its node, after two spaces for each step of the address. -/
theorem alike_iff_explain {a : PlanNode} (ha : ∀ n ∈ a.walk, '\n' ∉ n.label.toList) :
    (∀ b : PlanNode, (∀ n ∈ b.walk, '\n' ∉ n.label.toList) → (a.Alike b ↔ a.explain = b.explain)) ∧
    (textLines a.explain).length = a.walk.length ∧
    ∃ addresses, a.Addresses addresses ∧ addresses.length = a.walk.length ∧
      ∀ (k : Nat) (n : PlanNode), a.walk[k]? = some n → ∃ address, addresses[k]? = some address ∧
        a.nodeAt? address = some n ∧ (textLines a.explain)[k]? =
          some (String.ofList (List.replicate (2 * address.length) ' ') ++ n.label) := by
  refine ⟨fun b hb => ⟨fun h => ?_, fun h => ?_⟩, ?_, ?_⟩
  · rw [explain_of_levels, explain_of_levels, h.levels_eq]
  · have hlevels : a.levels 0 ++ [] = b.levels 0 ++ [] := by
      rw [levels_of_lines ha, levels_of_lines hb, h]
    exact (alike_of_levels a closes_nil closes_nil hlevels).1
  · rw [textLines_explain ha, walk, List.length_map, List.length_map]
  · obtain ⟨addresses, haddresses, hvisits⟩ := exists_addresses a
    have hlength := congrArg List.length (hvisits 0)
    rw [List.length_map, List.length_map] at hlength
    refine ⟨addresses, haddresses, by rw [walk, List.length_map, hlength], fun k n hn => ?_⟩
    rw [walk, List.getElem?_map] at hn
    obtain ⟨⟨depth, m⟩, hentry, rfl⟩ := Option.map_eq_some_iff.mp hn
    have hk := congrArg (fun visited => visited[k]?) (hvisits 0)
    simp only [List.getElem?_map, hentry, Option.map_some] at hk
    obtain ⟨address, haddress, heq⟩ := Option.map_eq_some_iff.mp hk.symm
    rw [Prod.mk.injEq, Nat.zero_add] at heq
    refine ⟨address, haddress, heq.2, ?_⟩
    rw [textLines_explain ha, List.getElem?_map, hentry, heq.1]
    rfl

/-- A column of a table and a column with a dot in its name give trees that are alike, with one
explanation of five lines. The last one stands for the nested query, at the fifth address. -/
theorem alike_iff_explain_dotted :
    let tree (column : ColumnName) : PlanNode :=
      .anyAllSelect (.project (.cache (.source "t") 1) [column]) (.source "s") [column] .eq .any
    let a := tree (.qualified "t" "x")
    let b := tree (.unqualified "t.x")
    a ≠ b ∧ a.Alike b ∧
      textLines a.explain = ["NonCorrelatedAnyAll (t.x) = ANY", "  Project t.x", "    Cache id=1",
        "      Source t", "  Source s"] ∧
      ∃ addresses, a.Addresses addresses ∧ addresses.length = 5 ∧
        ∃ address, addresses[4]? = some address ∧ a.nodeAt? address = some (.source "s") := by
  intro tree a b
  have ha : ∀ n ∈ a.walk, '\n' ∉ n.label.toList := by decide
  have hb : ∀ n ∈ b.walk, '\n' ∉ n.label.toList := by decide
  have hexplain : a.explain = b.explain := by decide
  have hne : a ≠ b := fun h => absurd (PlanNode.anyAllSelect.inj h).2.2.1 (by decide)
  obtain ⟨hiff, -, addresses, haddresses, hlength, hvisits⟩ := alike_iff_explain ha
  obtain ⟨address, haddress, hnode, -⟩ := hvisits 4 (.source "s") rfl
  refine ⟨hne, (hiff b hb).mpr hexplain, ?_, addresses, haddresses, hlength, address, haddress,
    hnode⟩
  rw [textLines_explain ha]
  decide

end PlanNode

end QueryPlan
