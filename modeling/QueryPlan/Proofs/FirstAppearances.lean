import Mathlib.Data.List.Basic
import Mathlib.Tactic.Choose
import QueryPlan.Expr.References

/-!
# First appearances

What an expression reads is listed once, at its first appearance. Appearances are named
by addresses: the number of an operand for each step down from the whole expression, and
for what a nested query reads one number more, its place among the reads of the query. In
the order of a dictionary the addresses follow the text from left to right.

- `FirstAppearances`: the elements that stand at some position, each once, in the order
  of their first positions.
- `Expr.partAt?`, `MentionsAt`, `ReadsAt`: parts, columns and outer reads by address.
- `Expr.exists_entries`: what is collected operand by operand is listed in the order of
  its addresses.
- `Expr.hasSubQuery_iff`: when a part is a nested query.
- `Expr.firstAppearances_references`: the free columns, and the outer columns that are
  read at a level, at their first appearances. At the last level they are returned only
  if there is no nested query.
-/

namespace QueryPlan

/-- The elements that stand at some position, each once, in the order of the first positions they
stand at. -/
structure FirstAppearances {P α : Type} [LT P] (At : P → α → Prop) (xs : List α) : Prop where
  nodup : xs.Nodup
  mem_iff : ∀ x, x ∈ xs ↔ ∃ position, At position x
  inOrder : xs.Pairwise fun x y =>
    ∃ position, At position x ∧ ∀ later, At later y → position < later

section

variable {P α : Type} [LT P] {At : P → α → Prop} {entries : List (P × α)}

/-- If nothing stands anywhere, the list is empty. -/
theorem FirstAppearances.iff_nil {xs : List α} (h : ∀ position x, ¬ At position x) :
    FirstAppearances At xs ↔ xs = [] := by
  constructor
  · intro hxs
    refine List.eq_nil_iff_forall_not_mem.mpr fun x hx => ?_
    obtain ⟨position, hposition⟩ := (hxs.mem_iff x).mp hx
    exact h position x hposition
  · rintro rfl
    exact ⟨.nil, fun x => iff_of_false List.not_mem_nil fun ⟨position, hx⟩ => h position x hx, .nil⟩

variable [DecidableEq α]

/-- What appears first stays first when the later appearances are dropped. -/
theorem pairwise_distinct (h : entries.Pairwise fun a b => a.1 < b.1) :
    (distinct (entries.map Prod.snd)).Pairwise fun x y =>
      ∃ position, (position, x) ∈ entries ∧ ∀ later, (later, y) ∈ entries → position < later := by
  induction entries with
  | nil => exact .nil
  | cons first rest ih =>
    obtain ⟨hfirst, hrest⟩ := List.pairwise_cons.mp h
    have hin : ∀ {later y}, y ≠ first.2 → (later, y) ∈ first :: rest → (later, y) ∈ rest := by
      intro later y hy hmem
      exact (List.mem_cons.mp hmem).resolve_left fun heq => hy (by rw [← heq])
    rw [List.map_cons, distinct, List.pairwise_cons]
    constructor
    · intro y hy
      have hne : y ≠ first.2 := of_decide_eq_true (List.mem_filter.mp hy).2
      exact ⟨first.1, List.mem_cons_self, fun later hlater => hfirst _ (hin hne hlater)⟩
    · refine ((ih hrest).filter _).imp_of_mem fun {x y} _ hy hxy => ?_
      have hne : y ≠ first.2 := of_decide_eq_true (List.mem_filter.mp hy).2
      obtain ⟨position, hx, hbefore⟩ := hxy
      exact ⟨position, List.mem_cons_of_mem _ hx, fun later hlater => hbefore _ (hin hne hlater)⟩

/-- Of entries in the order of their positions, the distinct elements stand in the order of their
first positions. -/
theorem FirstAppearances.of_entries (hsorted : entries.Pairwise fun a b => a.1 < b.1)
    (hat : ∀ position x, (position, x) ∈ entries ↔ At position x) :
    FirstAppearances At (distinct (entries.map Prod.snd)) where
  nodup := nodup_distinct _
  mem_iff x := by
    rw [mem_distinct, List.mem_map]
    constructor
    · rintro ⟨⟨position, _⟩, hmem, rfl⟩
      exact ⟨position, (hat _ _).mp hmem⟩
    · rintro ⟨position, hx⟩
      exact ⟨(position, x), (hat _ _).mpr hx, rfl⟩
  inOrder := by
    refine (pairwise_distinct hsorted).imp ?_
    rintro x y ⟨position, hx, hbefore⟩
    exact ⟨position, (hat _ _).mp hx, fun later hy => hbefore _ ((hat _ _).mpr hy)⟩

end

/-! ## Numbered items -/

/-- Addresses below numbered items, each after the number of its item, are in the order of a
dictionary if those below each item are. -/
theorem pairwise_numbered {β : Type} (below : β → List (List Nat)) {items : List β}
    (h : ∀ item ∈ items, (below item).Pairwise (· < ·)) :
    (items.zipIdx.flatMap fun entry => (below entry.1).map (entry.2 :: ·)).Pairwise (· < ·) := by
  rw [List.pairwise_flatMap]
  constructor
  · intro entry hentry
    have hitem := List.mem_of_getElem? (List.mem_zipIdx_iff_getElem?.mp hentry)
    exact List.pairwise_map.mpr ((h _ hitem).imp List.cons_lt_cons_self.mpr)
  · have hnumbers : items.zipIdx.Pairwise fun entry entry' => entry.2 < entry'.2 := by
      rw [← List.pairwise_map, List.zipIdx_map_snd]
      exact List.pairwise_lt_range' 1
    refine hnumbers.imp fun hlt address hmem address' hmem' => ?_
    obtain ⟨_, -, rfl⟩ := List.mem_map.mp hmem
    obtain ⟨_, -, rfl⟩ := List.mem_map.mp hmem'
    exact List.cons_lt_cons_iff.mpr (Or.inl hlt)

section

variable {α β : Type} {below : β → List (List Nat × α)} {items : List β}

/-- What is found below each item, its address after the number of the item. -/
def numbered (below : β → List (List Nat × α)) (items : List β) : List (List Nat × α) :=
  items.zipIdx.flatMap fun entry =>
    (below entry.1).map fun found => (entry.2 :: found.1, found.2)

/-- Addresses that are in order below each item are in order below all of them. -/
theorem sorted_numbered (h : ∀ item ∈ items, (below item).Pairwise fun a b => a.1 < b.1) :
    (numbered below items).Pairwise fun a b => a.1 < b.1 := by
  have haddresses := pairwise_numbered (fun item => (below item).map Prod.fst)
    fun item hitem => List.pairwise_map.mpr (h item hitem)
  rw [← List.pairwise_map, numbered, List.map_flatMap]
  simp only [List.map_map] at haddresses ⊢
  exact haddresses

theorem not_nil_mem_numbered {x : α} : ([], x) ∉ numbered below items := by
  intro hmem
  obtain ⟨entry, -, hmem⟩ := List.mem_flatMap.mp hmem
  obtain ⟨found, -, heq⟩ := List.mem_map.mp hmem
  cases heq

/-- An address below an item starts with the number of the item. -/
theorem mem_numbered {i : Nat} {address : List Nat} {x : α} :
    (i :: address, x) ∈ numbered below items ↔
      ∃ item, items[i]? = some item ∧ (address, x) ∈ below item := by
  constructor
  · intro hmem
    obtain ⟨⟨item, j⟩, hentry, hmem⟩ := List.mem_flatMap.mp hmem
    obtain ⟨found, hfound, heq⟩ := List.mem_map.mp hmem
    cases heq
    exact ⟨item, List.mem_zipIdx_iff_getElem?.mp hentry, hfound⟩
  · rintro ⟨item, hi, hx⟩
    exact List.mem_flatMap.mpr ⟨(item, i), List.mem_zipIdx_iff_getElem?.mpr hi,
      List.mem_map.mpr ⟨(address, x), hx, rfl⟩⟩

/-- Without addresses, it is what is below each item in turn. -/
theorem map_snd_numbered :
    (numbered below items).map Prod.snd = items.flatMap fun item => (below item).map Prod.snd := by
  rw [numbered, List.map_flatMap, ← List.zipIdx_map_fst 0 items, List.flatMap_map,
    List.zipIdx_map_fst]
  exact List.flatMap_congr fun entry _ => List.map_map

end

namespace Expr

/-! ## Addresses -/

/-- The operands, left to right: an escape after its pattern, arguments in their order. What is
inside a nested query is no operand. -/
def operands : Expr → List Expr
  | .constant _ => []
  | .reference _ => []
  | .unary _ e => [e]
  | .binary l _ r => [l, r]
  | .pattern _ l p escape => l :: p :: escape.toList
  | .call _ args => args
  | .query _ _ => []
  | .quantified _ _ l r => [l, r]

/-- The part at an address, which names an operand by its number for each step down. -/
def partAt? : Expr → List Nat → Option Expr
  | e, [] => some e
  | e, i :: address => e.operands[i]?.bind fun operand => operand.partAt? address

/-- The column is mentioned at the address. -/
def MentionsAt (e : Expr) (address : List Nat) (name : ColumnName) : Prop :=
  e.partAt? address = some (.reference name)

/-- The outer column is read at the address: that of a nested query, and the place of the column
among those that the query reads. -/
def ReadsAt (e : Expr) (address : List Nat) (entry : CorrelatedReference) : Prop :=
  ∃ path plan correlated place, e.partAt? path = some (.query plan correlated) ∧
    correlated[place]? = some entry ∧ address = path ++ [place]

mutual

theorem induction_operands {motive : Expr → Prop}
    (step : ∀ e : Expr, (∀ operand ∈ e.operands, motive operand) → motive e) : ∀ e, motive e
  | .constant _ => step _ (List.forall_mem_nil _)
  | .reference _ => step _ (List.forall_mem_nil _)
  | .unary _ e => step _ (List.forall_mem_singleton.mpr (induction_operands step e))
  | .binary l _ r => step _ (List.forall_mem_cons.mpr
      ⟨induction_operands step l, List.forall_mem_singleton.mpr (induction_operands step r)⟩)
  | .pattern _ l p escape => step _ (List.forall_mem_cons.mpr
      ⟨induction_operands step l, List.forall_mem_cons.mpr
        ⟨induction_operands step p, forall_escape step escape⟩⟩)
  | .call _ args => step _ (forall_args step args)
  | .query _ _ => step _ (List.forall_mem_nil _)
  | .quantified _ _ l r => step _ (List.forall_mem_cons.mpr
      ⟨induction_operands step l, List.forall_mem_singleton.mpr (induction_operands step r)⟩)

theorem forall_escape {motive : Expr → Prop}
    (step : ∀ e : Expr, (∀ operand ∈ e.operands, motive operand) → motive e) :
    ∀ escape : Option Expr, ∀ e ∈ escape.toList, motive e
  | none => List.forall_mem_nil _
  | some e => List.forall_mem_singleton.mpr (induction_operands step e)

theorem forall_args {motive : Expr → Prop}
    (step : ∀ e : Expr, (∀ operand ∈ e.operands, motive operand) → motive e) :
    ∀ args : List Expr, ∀ e ∈ args, motive e
  | [] => List.forall_mem_nil _
  | e :: rest => List.forall_mem_cons.mpr ⟨induction_operands step e, forall_args step rest⟩

end

/-! ## Collecting by operands -/

section

variable {α : Type} {own : Expr → List (List Nat × α)} {collect : Expr → List α}

/-- Something that the part at an address has of its own, with the address continued by its place
in the part. -/
def HasAt (own : Expr → List (List Nat × α)) (e : Expr) (address : List Nat) (x : α) : Prop :=
  ∃ path part place, e.partAt? path = some part ∧ (place, x) ∈ own part ∧ address = path ++ place

theorem not_hasAt_nil {e : Expr} {x : α} (h : own e = []) : ¬ HasAt own e [] x := by
  rintro ⟨path, part, place, hpart, hplace, haddress⟩
  obtain ⟨rfl, rfl⟩ := List.append_eq_nil_iff.mp haddress.symm
  cases hpart
  rw [h] at hplace
  cases hplace

/-- What stands below an operand has the number of the operand first in its address. -/
theorem hasAt_cons {e : Expr} {i : Nat} {address : List Nat} {x : α} (h : own e = []) :
    HasAt own e (i :: address) x ↔
      ∃ operand, e.operands[i]? = some operand ∧ HasAt own operand address x := by
  constructor
  · rintro ⟨path, part, place, hpart, hplace, haddress⟩
    cases path with
    | nil =>
      cases hpart
      rw [h] at hplace
      cases hplace
    | cons j path =>
      obtain ⟨rfl, rfl⟩ := List.cons_eq_cons.mp haddress
      obtain ⟨operand, hi, hpart⟩ := Option.bind_eq_some_iff.mp hpart
      exact ⟨operand, hi, path, part, place, hpart, hplace, rfl⟩
  · rintro ⟨operand, hi, path, part, place, hpart, hplace, rfl⟩
    exact ⟨i :: path, part, place, by rw [partAt?, hi]; exact hpart, hplace, rfl⟩

/-- Without operands, all that stands somewhere is of the expression itself. -/
theorem hasAt_of_no_operands {e : Expr} {address : List Nat} {x : α} (h : e.operands = []) :
    HasAt own e address x ↔ (address, x) ∈ own e := by
  constructor
  · rintro ⟨path, part, place, hpart, hplace, rfl⟩
    cases path with
    | nil =>
      cases hpart
      exact hplace
    | cons i path =>
      rw [partAt?, h] at hpart
      cases hpart
  · exact fun h => ⟨[], e, address, rfl, h, rfl⟩

/-- What is collected operand by operand is listed in the order of its addresses, if a part has
something of its own only where it has no operands. -/
theorem exists_entries (hsorted : ∀ e, (own e).Pairwise fun a b => a.1 < b.1)
    (hown : ∀ e, own e = [] ∨ e.operands = [])
    (hcollect : ∀ e, collect e = (own e).map Prod.snd ++ e.operands.flatMap collect) (e : Expr) :
    ∃ entries : List (List Nat × α), (entries.Pairwise fun a b => a.1 < b.1) ∧
      (∀ address x, (address, x) ∈ entries ↔ HasAt own e address x) ∧
      entries.map Prod.snd = collect e := by
  induction e using induction_operands with
  | step e ih =>
    rcases hown e with hnone | hleaf
    · choose! below hbelow hat hlist using ih
      refine ⟨numbered below e.operands, sorted_numbered hbelow, fun address x => ?_, ?_⟩
      · cases address with
        | nil => exact iff_of_false not_nil_mem_numbered (not_hasAt_nil hnone)
        | cons i address =>
          rw [mem_numbered, hasAt_cons hnone]
          refine exists_congr fun operand => and_congr_right fun hi => ?_
          exact hat operand (List.mem_of_getElem? hi) address x
      · rw [map_snd_numbered, hcollect e, hnone, List.map_nil, List.nil_append]
        exact List.flatMap_congr hlist
    · refine ⟨own e, hsorted e, fun address x => (hasAt_of_no_operands hleaf).symm, ?_⟩
      rw [hcollect e, hleaf, List.flatMap_nil, List.append_nil]

end

/-! ## Columns and outer reads -/

/-- The column that the expression is, if it is nothing but a column. -/
def ownMentions : Expr → List (List Nat × ColumnName)
  | .reference name => [([], name)]
  | _ => []

/-- What a nested query reads, with the place of each column among these. -/
def ownReads : Expr → List (List Nat × CorrelatedReference)
  | .query _ correlated => correlated.zipIdx.map fun entry => ([entry.2], entry.1)
  | _ => []

theorem mentionsOfAll_eq (args : List Expr) : mentionsOfAll args = args.flatMap mentions := by
  induction args with
  | nil => rfl
  | cons e rest ih => rw [mentionsOfAll, ih, List.flatMap_cons]

theorem outerReadsOfAll_eq (args : List Expr) : outerReadsOfAll args = args.flatMap outerReads := by
  induction args with
  | nil => rfl
  | cons e rest ih => rw [outerReadsOfAll, ih, List.flatMap_cons]

/-- The columns of an expression are its own and those of its operands. -/
theorem mentions_eq (e : Expr) :
    e.mentions = e.ownMentions.map Prod.snd ++ e.operands.flatMap mentions := by
  cases e with
  | pattern op l p escape =>
    cases escape <;> simp [mentions, mentionsOfEscape, ownMentions, operands]
  | call name args => exact mentionsOfAll_eq args
  | _ => simp [mentions, ownMentions, operands]

/-- The outer columns that an expression reads are its own and those of its operands. -/
theorem outerReads_eq (e : Expr) :
    e.outerReads = e.ownReads.map Prod.snd ++ e.operands.flatMap outerReads := by
  cases e with
  | pattern op l p escape =>
    cases escape <;> simp [outerReads, outerReadsOfEscape, ownReads, operands]
  | call name args => exact outerReadsOfAll_eq args
  | query plan correlated =>
    show correlated = (correlated.zipIdx.map fun entry => ([entry.2], entry.1)).map Prod.snd ++ []
    rw [List.map_map, List.append_nil]
    exact (List.zipIdx_map_fst 0 correlated).symm
  | _ => simp [outerReads, ownReads, operands]

/-- Columns stand where they are mentioned. -/
theorem hasAt_ownMentions {e : Expr} {address : List Nat} {name : ColumnName} :
    HasAt ownMentions e address name ↔ e.MentionsAt address name := by
  constructor
  · rintro ⟨path, part, place, hpart, hplace, rfl⟩
    cases part with
    | reference own =>
      cases List.mem_singleton.mp hplace
      rw [MentionsAt, List.append_nil, hpart]
    | _ => cases hplace
  · intro h
    exact ⟨address, _, [], h, List.mem_singleton.mpr rfl, (List.append_nil _).symm⟩

/-- Outer reads stand where a nested query has them. -/
theorem hasAt_ownReads {e : Expr} {address : List Nat} {entry : CorrelatedReference} :
    HasAt ownReads e address entry ↔ e.ReadsAt address entry := by
  constructor
  · rintro ⟨path, part, place, hpart, hplace, rfl⟩
    cases part with
    | query plan correlated =>
      obtain ⟨⟨read, i⟩, hread, heq⟩ := List.mem_map.mp hplace
      cases heq
      exact ⟨path, plan, correlated, i, hpart, List.mem_zipIdx_iff_getElem?.mp hread, rfl⟩
    | _ => cases hplace
  · rintro ⟨path, plan, correlated, place, hpart, hread, rfl⟩
    exact ⟨path, _, [place], hpart, List.mem_map.mpr
      ⟨(entry, place), List.mem_zipIdx_iff_getElem?.mpr hread, rfl⟩, rfl⟩

/-- The free columns are listed at their first mentions. -/
theorem firstAppearances_mentions (e : Expr) : FirstAppearances e.MentionsAt e.references := by
  have hsorted : ∀ e : Expr, e.ownMentions.Pairwise fun a b => a.1 < b.1 := by
    intro e
    cases e with
    | reference name => exact List.pairwise_singleton _ _
    | _ => exact .nil
  have hown : ∀ e : Expr, e.ownMentions = [] ∨ e.operands = [] := by
    intro e
    cases e with
    | reference name => exact Or.inr rfl
    | _ => exact Or.inl rfl
  obtain ⟨entries, hentries, hat, hlist⟩ := exists_entries hsorted hown mentions_eq e
  rw [references, ← hlist]
  exact .of_entries hentries fun address name => (hat address name).trans hasAt_ownMentions

/-- The outer columns that are read across so many boundaries are listed at their first reads. -/
theorem firstAppearances_reads (e : Expr) (boundaries : UInt32) :
    FirstAppearances (fun address entry => e.ReadsAt address entry ∧ entry.level = boundaries)
      (e.readsAcross boundaries) := by
  have hsorted : ∀ e : Expr, e.ownReads.Pairwise fun a b => a.1 < b.1 := by
    intro e
    cases e with
    | query plan correlated =>
      have hplaces : correlated.zipIdx.Pairwise fun a b => a.2 < b.2 := by
        rw [← List.pairwise_map, List.zipIdx_map_snd]
        exact List.pairwise_lt_range' 1
      exact List.pairwise_map.mpr (hplaces.imp fun h => List.cons_lt_cons_iff.mpr (Or.inl h))
    | _ => exact .nil
  have hown : ∀ e : Expr, e.ownReads = [] ∨ e.operands = [] := by
    intro e
    cases e with
    | query plan correlated => exact Or.inr rfl
    | _ => exact Or.inl rfl
  obtain ⟨entries, hentries, hat, hlist⟩ := exists_entries hsorted hown outerReads_eq e
  have hlevel : correlatedAt e.outerReads boundaries =
      (entries.filter fun found => found.2.level = boundaries).map Prod.snd := by
    rw [correlatedAt, ← hlist, List.filter_map]
    rfl
  rw [readsAcross, hlevel]
  refine .of_entries (hentries.filter _) fun address entry => ?_
  rw [List.mem_filter, hat, hasAt_ownReads, decide_eq_true_iff]

/-! ## Nested queries -/

/-- A part of the expression is a nested query. -/
def HasQuery (e : Expr) : Prop :=
  ∃ path plan correlated, e.partAt? path = some (.query plan correlated)

theorem anyHasSubQuery_eq (args : List Expr) : anyHasSubQuery args = args.any hasSubQuery := by
  induction args with
  | nil => rfl
  | cons e rest ih => rw [anyHasSubQuery, ih, List.any_cons]

/-- An expression that is no nested query has one in it just if an operand has. -/
theorem hasSubQuery_eq {e : Expr} (hquery : ∀ plan correlated, e ≠ .query plan correlated) :
    e.hasSubQuery = e.operands.any hasSubQuery := by
  cases e with
  | query plan correlated => exact absurd rfl (hquery plan correlated)
  | pattern op l p escape =>
    cases escape <;> simp [hasSubQuery, escapeHasSubQuery, operands, Bool.or_assoc]
  | call name args => exact anyHasSubQuery_eq args
  | _ => simp [hasSubQuery, operands]

/-- What is no nested query itself has one in an operand, if at all. -/
theorem hasQuery_iff_operands {e : Expr} (hquery : ∀ plan correlated, e ≠ .query plan correlated) :
    e.HasQuery ↔ ∃ operand ∈ e.operands, operand.HasQuery := by
  constructor
  · rintro ⟨_ | ⟨i, path⟩, plan, correlated, hpart⟩
    · exact absurd (Option.some.inj hpart) (hquery plan correlated)
    · obtain ⟨operand, hi, hpart⟩ := Option.bind_eq_some_iff.mp hpart
      exact ⟨operand, List.mem_of_getElem? hi, path, plan, correlated, hpart⟩
  · rintro ⟨operand, hoperand, path, plan, correlated, hpart⟩
    obtain ⟨i, hi⟩ := List.mem_iff_getElem?.mp hoperand
    exact ⟨i :: path, plan, correlated, by rw [partAt?, hi]; exact hpart⟩

/-- The check for nested queries looks at all parts. -/
theorem hasSubQuery_iff (e : Expr) : e.hasSubQuery ↔ e.HasQuery := by
  induction e using induction_operands with
  | step e ih =>
    by_cases hquery : ∃ plan correlated, e = .query plan correlated
    · obtain ⟨plan, correlated, rfl⟩ := hquery
      exact iff_of_true rfl ⟨[], plan, correlated, rfl⟩
    · push Not at hquery
      rw [hasSubQuery_eq hquery, List.any_eq_true, hasQuery_iff_operands hquery]
      exact exists_congr fun operand => and_congr_right fun hoperand => ih operand hoperand

/-! ## Levels -/

/-- The outer column is read `level` queries outward of the expression: one boundary more than
`level` lies between it and the nested plan. -/
def ReadsOutward (e : Expr) (level : Nat) (address : List Nat) (entry : CorrelatedReference) :
    Prop :=
  e.ReadsAt address entry ∧ entry.level.toNat = level + 1

/-- The boundary further out is one more. -/
theorem outward?_eq_some {level boundaries : UInt32} (h : outward? level = some boundaries) :
    boundaries.toNat = level.toNat + 1 := by
  obtain ⟨hlevel, heq⟩ := Option.ite_none_right_eq_some.mp h
  rw [← Option.some.inj heq, UInt32.toNat_add, UInt32.toNat_one, Nat.mod_eq_of_lt hlevel]

/-- The last level alone has no boundary further out. -/
theorem outward?_eq_none_iff {level : UInt32} :
    outward? level = none ↔ level.toNat + 1 = UInt32.size := by
  have := level.toNat_lt_size
  unfold outward?
  split
  · exact iff_of_false (Option.some_ne_none _) (by omega)
  · exact iff_of_true rfl (by omega)

/-- Nothing is returned for the last level if there is a nested query. -/
theorem correlatedReferences_eq_none_iff {e : Expr} {level : UInt32} :
    e.correlatedReferences level = none ↔ level.toNat + 1 = UInt32.size ∧ e.HasQuery := by
  rw [← hasSubQuery_iff, ← outward?_eq_none_iff, correlatedReferences]
  split
  · rw [Option.map_eq_none_iff, and_iff_left ‹_›]
  · exact iff_of_false (Option.some_ne_none _) fun h => absurd h.2 ‹_›

/-- What is returned for a level are the outer columns that are read there, at their first reads. -/
theorem firstAppearances_correlatedReferences {e : Expr} {level : UInt32}
    {found : List CorrelatedReference} (h : e.correlatedReferences level = some found) :
    FirstAppearances (e.ReadsOutward level.toNat) found := by
  unfold correlatedReferences at h
  split at h
  · obtain ⟨boundaries, hlevel, rfl⟩ := Option.map_eq_some_iff.mp h
    have hreads := firstAppearances_reads e boundaries
    simp only [← UInt32.toNat_inj, outward?_eq_some hlevel] at hreads
    exact hreads
  · rename_i hsub
    -- What is read at all is read by a nested query.
    have hnone : ∀ address entry, ¬ e.ReadsOutward level.toNat address entry := by
      rintro _ _ ⟨⟨path, plan, correlated, _, hpart, -, -⟩, -⟩
      exact hsub (e.hasSubQuery_iff.mpr ⟨path, plan, correlated, hpart⟩)
    exact (FirstAppearances.iff_nil hnone).mpr (Option.some.inj h).symm

/-- The free columns of an expression are exactly those mentioned outside nested queries, at their
first mentions from left to right. So are the outer columns read at a level, at their first reads,
unless it is the last level and there is a nested query: its boundary can not be counted then, and
nothing is returned. -/
theorem firstAppearances_references (e : Expr) :
    FirstAppearances e.MentionsAt e.references ∧ ∀ level : UInt32,
      ((∃ found, e.correlatedReferences level = some found ∧
          FirstAppearances (e.ReadsOutward level.toNat) found) ↔
        level.toNat + 1 < UInt32.size ∨ ¬ e.HasQuery) ∧
      (e.correlatedReferences level = none ↔ level.toNat + 1 = UInt32.size ∧ e.HasQuery) := by
  refine ⟨firstAppearances_mentions e, fun level => ⟨?_, correlatedReferences_eq_none_iff⟩⟩
  have hlast : level.toNat + 1 ≠ UInt32.size ↔ level.toNat + 1 < UInt32.size :=
    ⟨Nat.lt_of_le_of_ne level.toNat_lt_size, Nat.ne_of_lt⟩
  have hreturned : (∃ found, e.correlatedReferences level = some found) ↔
      level.toNat + 1 < UInt32.size ∨ ¬ e.HasQuery := by
    rw [← hlast, ← Option.ne_none_iff_exists', ne_eq, correlatedReferences_eq_none_iff, not_and_or]
  rw [← hreturned]
  exact exists_congr fun found => and_iff_left_of_imp firstAppearances_correlatedReferences

/-- For the last level nothing is returned if there is a nested query, where no column at all should
be. -/
theorem not_firstAppearances_references : ¬ ∀ e : Expr,
    FirstAppearances e.MentionsAt e.references ∧ ∀ level : UInt32,
      ∃ found, e.correlatedReferences level = some found ∧
        FirstAppearances (e.ReadsOutward level.toNat) found := by
  intro h
  obtain ⟨found, hfound, -⟩ :=
    (h (.query (.source "s") [⟨.unqualified "x", 0⟩])).2 4294967295
  exact Option.some_ne_none found (hfound.symm.trans (by decide))

/-- Of two nested queries the left one is read first, and each column is listed once. -/
example : (Expr.binary (.query (.source "s") [⟨.unqualified "b", 1⟩, ⟨.unqualified "a", 1⟩]) .eq
    (.query (.source "t") [⟨.unqualified "a", 1⟩, ⟨.unqualified "c", 2⟩])).correlatedReferences 0 =
      some [⟨.unqualified "b", 1⟩, ⟨.unqualified "a", 1⟩] := by decide

end Expr

end QueryPlan
