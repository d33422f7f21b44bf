import QueryPlan.Proofs.Forests

/-!
# Chains of linked plans

Links lead from a plan to the one on its right. Where they are answered and lead up, each
plan is in one of the chains that start at plans without a link on their left.

- `TableSet.next?`: the plan on the right of a plan.
- `TableSet.chains`: the plans of a set, each chain from its first plan on.
- `Leveled.next_induction`: what holds of a plan if it holds of the one before it, holds of
  every plan.
- `Leveled.exists_chain`, `Leveled.chain_unique`: each plan is in one chain.
- `Leveled.chains_perm`: the chains are the plans of the set, in another order.
-/

namespace QueryPlan

variable {set : TableSet}

/-! ## The chains of a set -/

namespace TableSet

/-- The plan on the right of a plan. -/
def next? (set : TableSet) (p : TablePlan) : Option TablePlan :=
  p.right.bind fun link => set.get? link.target

/-- The plan and at most `fuel` plans that follow it to the right. -/
def chainFrom (set : TableSet) : Nat → TablePlan → List TablePlan
  | 0, p => [p]
  | fuel + 1, p => p :: (set.next? p).elim [] (set.chainFrom fuel)

/-- The chains of plans from left to right, each from a plan without a link on its left. A chain
has no more plans than the set. -/
def chains (set : TableSet) : List (List TablePlan) :=
  (set.tables.filter fun p => p.left.isNone).map (set.chainFrom set.tables.length)

variable {p q s : TablePlan} {m n : Nat}

theorem head?_chainFrom (set : TableSet) (n : Nat) (p : TablePlan) :
    (set.chainFrom n p).head? = some p := by
  cases n <;> rfl

theorem mem_chainFrom_self (set : TableSet) (n : Nat) (p : TablePlan) : p ∈ set.chainFrom n p :=
  List.mem_of_mem_head? (set.head?_chainFrom n p)

theorem mem_chainFrom_succ : q ∈ set.chainFrom (n + 1) p ↔
    q = p ∨ ∃ s, set.next? p = some s ∧ q ∈ set.chainFrom n s := by
  rw [chainFrom, List.mem_cons]
  refine or_congr_right ?_
  cases set.next? p with
  | none =>
    constructor
    · rintro ⟨⟩
    · rintro ⟨_, ⟨⟩, _⟩
  | some s =>
    constructor
    · exact fun h => ⟨s, rfl, h⟩
    · rintro ⟨_, ⟨⟩, h⟩
      exact h

/-- What follows a plan of a chain is in the chain, too. -/
theorem mem_chainFrom_of_next (hq : q ∈ set.chainFrom n p) (hnext : set.next? q = some s) :
    s ∈ set.chainFrom (n + 1) p := by
  induction n generalizing p with
  | zero =>
    obtain rfl := List.mem_singleton.mp hq
    exact mem_chainFrom_succ.mpr (Or.inr ⟨s, hnext, mem_chainFrom_self set 0 s⟩)
  | succ n ih =>
    rcases mem_chainFrom_succ.mp hq with rfl | ⟨t, ht, hq⟩
    · exact mem_chainFrom_succ.mpr (Or.inr ⟨s, hnext, mem_chainFrom_self set _ s⟩)
    · exact mem_chainFrom_succ.mpr (Or.inr ⟨t, ht, ih hq⟩)

/-- A plan of a chain that is not its first follows another one. -/
theorem eq_or_next_of_mem_chainFrom (hq : q ∈ set.chainFrom n p) :
    q = p ∨ ∃ s ∈ set.chainFrom n p, set.next? s = some q := by
  induction n generalizing p with
  | zero => exact Or.inl (List.mem_singleton.mp hq)
  | succ n ih =>
    rcases mem_chainFrom_succ.mp hq with rfl | ⟨t, ht, hq⟩
    · exact Or.inl rfl
    · rcases ih hq with rfl | ⟨s, hs, hnext⟩
      · exact Or.inr ⟨p, mem_chainFrom_self set _ p, ht⟩
      · exact Or.inr ⟨s, mem_chainFrom_succ.mpr (Or.inr ⟨t, ht, hs⟩), hnext⟩

theorem mem_of_mem_chainFrom {n : Nat} (hp : p ∈ set.tables) (hq : q ∈ set.chainFrom n p) :
    q ∈ set.tables := by
  rcases eq_or_next_of_mem_chainFrom hq with rfl | ⟨s, -, hnext⟩
  · exact hp
  · obtain ⟨link, -, hget⟩ := Option.bind_eq_some_iff.mp hnext
    exact (mem_of_get? hget).1

theorem chainFrom_mono (hle : m ≤ n) (hq : q ∈ set.chainFrom m p) : q ∈ set.chainFrom n p := by
  induction m generalizing n p with
  | zero =>
    obtain rfl := List.mem_singleton.mp hq
    exact mem_chainFrom_self set n q
  | succ m ih =>
    obtain ⟨n, rfl⟩ : ∃ n', n = n' + 1 := ⟨n - 1, by omega⟩
    rcases mem_chainFrom_succ.mp hq with rfl | ⟨t, ht, hq⟩
    · exact mem_chainFrom_self set _ q
    · exact mem_chainFrom_succ.mpr (Or.inr ⟨t, ht, ih (by omega) hq⟩)

/-- The plan at a position is reached in as many steps. -/
theorem getElem_mem_chainFrom {i : Nat} (hi : i < (set.chainFrom n p).length) :
    (set.chainFrom n p)[i] ∈ set.chainFrom i p := by
  induction i generalizing n p with
  | zero =>
    have hhead := set.head?_chainFrom n p
    rw [List.head?_eq_getElem?, List.getElem?_eq_getElem hi] at hhead
    rw [Option.some.inj hhead]
    exact mem_chainFrom_self set 0 p
  | succ i ih =>
    cases n with
    | zero => exact absurd hi (by simp [chainFrom])
    | succ n =>
      cases hnext : set.next? p with
      | none =>
        rw [chainFrom, hnext] at hi
        exact absurd hi (by simp)
      | some s =>
        refine mem_chainFrom_succ.mpr (Or.inr ⟨s, hnext, ?_⟩)
        simp only [chainFrom, hnext, Option.elim_some, List.length_cons, List.getElem_cons_succ]
          at hi ⊢
        exact ih (by omega)

end TableSet

/-! ## Neighbours in a chain -/

section

variable {p q s : TablePlan}

theorem TableSet.next?_eq_some_iff (hids : (set.tables.map TablePlan.id).Nodup) :
    set.next? p = some q ↔
      q ∈ set.tables ∧ ∃ link, p.right = some link ∧ link.target = q.id := by
  unfold TableSet.next?
  rw [Option.bind_eq_some_iff]
  constructor
  · rintro ⟨link, hlink, hget⟩
    obtain ⟨hq, hid⟩ := TableSet.mem_of_get? hget
    exact ⟨hq, link, hlink, hid.symm⟩
  · rintro ⟨hq, link, hlink, htarget⟩
    exact ⟨link, hlink, (get?_eq_some_of_nodup hids).mpr ⟨hq, htarget.symm⟩⟩

/-- Seen from the other end, the plan on the right of a plan is the one whose left link leads
back to it. -/
theorem Answered.next?_eq_some_iff (ht : Answered set.tables) (hp : p ∈ set.tables) :
    set.next? p = some q ↔
      q ∈ set.tables ∧ ∃ back, q.left = some back ∧ back.target = p.id := by
  rw [TableSet.next?_eq_some_iff ht.nodup]
  constructor
  · rintro ⟨hq, link, hlink, htarget⟩
    obtain ⟨t, hmem, hid, -, back, hback, hto, -⟩ := ht.back .right p hp link hlink
    obtain rfl := ht.eq_of_id hmem hq (hid.trans htarget)
    exact ⟨hq, back, hback, hto⟩
  · rintro ⟨hq, back, hback, htarget⟩
    obtain ⟨t, hmem, hid, -, link, hlink, hto, -⟩ := ht.back .left q hq back hback
    obtain rfl := ht.eq_of_id hmem hp (hid.trans htarget)
    exact ⟨hq, link, hlink, hto⟩

/-- A plan without one on its right has no link there. -/
theorem Answered.right_eq_none (ht : Answered set.tables) (hp : p ∈ set.tables)
    (hnext : set.next? p = none) : p.right = none := by
  cases hlink : p.right with
  | none => rfl
  | some link =>
    obtain ⟨q, hq, hid, -⟩ := ht.back .right p hp link hlink
    have hsome := (TableSet.next?_eq_some_iff ht.nodup).mpr ⟨hq, link, hlink, hid.symm⟩
    rw [hnext] at hsome
    cases hsome

/-- A plan with a link on its left is on the right of another one. -/
theorem Answered.exists_before (ht : Answered set.tables) (hq : q ∈ set.tables) {link : JoinLink}
    (hlink : q.left = some link) : ∃ p ∈ set.tables, set.next? p = some q := by
  obtain ⟨p, hp, hid, -⟩ := ht.back .left q hq link hlink
  exact ⟨p, hp, (ht.next?_eq_some_iff hp).mpr ⟨hq, link, hlink, hid.symm⟩⟩

/-- Two plans with one plan on their right are one. -/
theorem Answered.eq_of_next? (ht : Answered set.tables) (hp : p ∈ set.tables) (hs : s ∈ set.tables)
    (hpq : set.next? p = some q) (hsq : set.next? s = some q) : p = s := by
  obtain ⟨-, link, hlink, htarget⟩ := (ht.next?_eq_some_iff hp).mp hpq
  obtain ⟨-, link', hlink', htarget'⟩ := (ht.next?_eq_some_iff hs).mp hsq
  obtain rfl := Option.some.inj (hlink.symm.trans hlink')
  exact ht.eq_of_id hp hs (htarget.symm.trans htarget')

theorem TableSet.isChain_chainFrom (set : TableSet) (n : Nat) (p : TablePlan) :
    (set.chainFrom n p).IsChain fun q s => set.next? q = some s := by
  induction n generalizing p with
  | zero => exact List.isChain_singleton p
  | succ n ih =>
    rw [TableSet.chainFrom]
    cases hnext : set.next? p with
    | none => exact List.isChain_singleton p
    | some s =>
      refine List.isChain_cons.mpr ⟨fun t ht => ?_, ih s⟩
      rw [Option.elim_some, TableSet.head?_chainFrom] at ht
      exact Option.some.inj ht ▸ hnext

/-- A chain that stops short of its bound ends at a plan without one on its right. -/
theorem TableSet.next?_of_getLast? {n : Nat} (hlength : (set.chainFrom n p).length ≤ n)
    (hlast : (set.chainFrom n p).getLast? = some q) : set.next? q = none := by
  induction n generalizing p with
  | zero => exact absurd hlength (by simp [TableSet.chainFrom])
  | succ n ih =>
    cases hnext : set.next? p with
    | none =>
      rw [TableSet.chainFrom, hnext] at hlast
      exact Option.some.inj hlast ▸ hnext
    | some s =>
      rw [TableSet.chainFrom, hnext, Option.elim_some] at hlength hlast
      have hne : set.chainFrom n s ≠ [] := List.ne_nil_of_mem (set.mem_chainFrom_self n s)
      rw [List.getLast?_cons_of_ne_nil hne] at hlast
      exact ih (by simpa using hlength) hlast

end

/-! ## Chains and heights -/

namespace Leveled

variable {height : PlanId → Int} {p q s : TablePlan} {n : Nat}

section

variable (h : Leveled height set.tables)

include h

theorem next? (hp : p ∈ set.tables) (hnext : set.next? p = some s) :
    height s.id = height p.id + 1 := by
  obtain ⟨link, hlink, hget⟩ := Option.bind_eq_some_iff.mp hnext
  rw [(TableSet.mem_of_get? hget).2]
  exact h p hp link hlink

/-- What holds of a plan if it holds of the one before it, holds of every plan. -/
theorem next_induction {P : TablePlan → Prop}
    (hstep : ∀ q ∈ set.tables, (∀ p ∈ set.tables, set.next? p = some q → P p) → P q) :
    ∀ q ∈ set.tables, P q := by
  intro q hq
  by_contra hnot
  have hfinite : {p | p ∈ set.tables ∧ ¬ P p}.Finite :=
    set.tables.finite_toSet.subset fun _ h => h.1
  obtain ⟨s, ⟨hs, hsnot⟩, hmin⟩ :=
    Set.exists_min_image _ (fun p : TablePlan => height p.id) hfinite ⟨q, hq, hnot⟩
  refine hsnot (hstep s hs fun p hp hnext => ?_)
  by_contra hpnot
  have hle := hmin p ⟨hp, hpnot⟩
  have hup := h.next? hp hnext
  omega

/-- The plans of a chain go up. -/
theorem pairwise_chainFrom (hp : p ∈ set.tables) :
    (∀ q ∈ set.chainFrom n p, height p.id ≤ height q.id) ∧
      (set.chainFrom n p).Pairwise fun q s => height q.id < height s.id := by
  induction n generalizing p with
  | zero =>
    refine ⟨fun q hq => ?_, List.pairwise_singleton _ _⟩
    rw [List.mem_singleton.mp hq]
  | succ n ih =>
    rw [TableSet.chainFrom]
    cases hnext : set.next? p with
    | none =>
      refine ⟨fun q hq => ?_, List.pairwise_singleton _ _⟩
      rw [List.mem_singleton.mp hq]
    | some s =>
      have hup := h.next? hp hnext
      obtain ⟨link, -, hget⟩ := Option.bind_eq_some_iff.mp hnext
      obtain ⟨hle, hpair⟩ := ih (TableSet.mem_of_get? hget).1
      have hlt : ∀ q ∈ set.chainFrom n s, height p.id < height q.id := by
        intro q hq
        have := hle q hq
        omega
      refine ⟨fun q hq => ?_, List.pairwise_cons.mpr ⟨hlt, hpair⟩⟩
      rcases List.mem_cons.mp hq with rfl | hq
      · exact le_refl _
      · exact (hlt q hq).le

/-- No plan comes twice in a chain. -/
theorem nodup_chainFrom (hp : p ∈ set.tables) : ((set.chainFrom n p).map TablePlan.id).Nodup := by
  refine List.pairwise_map.mpr ((h.pairwise_chainFrom hp).2.imp fun hlt heq => ?_)
  rw [heq] at hlt
  exact lt_irrefl _ hlt

theorem length_chainFrom_le (hp : p ∈ set.tables) :
    (set.chainFrom n p).length ≤ set.tables.length :=
  (((h.nodup_chainFrom hp).of_map _).subperm
    fun _ hs => TableSet.mem_of_mem_chainFrom hp hs).length_le

/-- A chain is complete after as many steps as the set has plans. -/
theorem mem_chainFrom_length (hp : p ∈ set.tables) (hq : q ∈ set.chainFrom n p) :
    q ∈ set.chainFrom set.tables.length p := by
  obtain ⟨i, hi, rfl⟩ := List.getElem_of_mem hq
  have hlength := h.length_chainFrom_le (n := n) hp
  exact TableSet.chainFrom_mono (by omega) (TableSet.getElem_mem_chainFrom hi)

end

section

variable (h : Leveled height set.tables) (ht : Answered set.tables)

include h ht

/-- Every plan is in a chain from a plan without a link on its left. -/
theorem exists_chain : ∀ q ∈ set.tables,
    ∃ k ∈ set.tables, k.left = none ∧ q ∈ set.chainFrom set.tables.length k := by
  refine h.next_induction fun q hq ih => ?_
  cases hleft : q.left with
  | none => exact ⟨q, hq, hleft, TableSet.mem_chainFrom_self set _ q⟩
  | some link =>
    obtain ⟨p, hp, hnext⟩ := ht.exists_before hq hleft
    obtain ⟨k, hk, hkleft, hpk⟩ := ih p hp hnext
    refine ⟨k, hk, hkleft, h.mem_chainFrom_length (n := set.tables.length + 1) hk ?_⟩
    exact TableSet.mem_chainFrom_of_next hpk hnext

/-- No plan is in the chains from two such plans. -/
theorem chain_unique {k k' : TablePlan} (hk : k ∈ set.tables) (hk' : k' ∈ set.tables)
    (hleft : k.left = none) (hleft' : k'.left = none) : ∀ q ∈ set.tables,
      q ∈ set.chainFrom n k → q ∈ set.chainFrom n k' → k = k' := by
  have hfirst : ∀ {c s : TablePlan}, s ∈ set.tables → c.left = none → set.next? s ≠ some c := by
    intro c s hs hnone hnext
    obtain ⟨-, back, hback, -⟩ := (ht.next?_eq_some_iff hs).mp hnext
    rw [hnone] at hback
    cases hback
  refine h.next_induction fun q _ ih hqk hqk' => ?_
  rcases TableSet.eq_or_next_of_mem_chainFrom hqk with rfl | ⟨s, hsk, hsq⟩
  · rcases TableSet.eq_or_next_of_mem_chainFrom hqk' with heq | ⟨s, hsk', hsq⟩
    · exact heq
    · exact absurd hsq (hfirst (TableSet.mem_of_mem_chainFrom hk' hsk') hleft)
  · have hs := TableSet.mem_of_mem_chainFrom hk hsk
    rcases TableSet.eq_or_next_of_mem_chainFrom hqk' with rfl | ⟨s', hsk', hsq'⟩
    · exact absurd hsq (hfirst hs hleft')
    · obtain rfl := ht.eq_of_next? hs (TableSet.mem_of_mem_chainFrom hk' hsk') hsq hsq'
      exact ih s hs hsq hsk hsk'

theorem mem_chains : (∃ chain ∈ set.chains, q ∈ chain) ↔ q ∈ set.tables := by
  unfold TableSet.chains
  simp only [List.mem_map, List.mem_filter, Option.isNone_iff_eq_none, exists_exists_and_eq_and]
  constructor
  · rintro ⟨k, ⟨hk, -⟩, hq⟩
    exact TableSet.mem_of_mem_chainFrom hk hq
  · intro hq
    obtain ⟨k, hk, hleft, hqk⟩ := h.exists_chain ht q hq
    exact ⟨k, ⟨hk, hleft⟩, hqk⟩

/-- No plan comes twice in the chains. -/
theorem nodup_chains : (set.chains.flatten.map TablePlan.id).Nodup := by
  have hroot : ∀ k, k ∈ set.tables.filter (fun p => p.left.isNone) →
      k ∈ set.tables ∧ k.left = none := by
    intro k hk
    rwa [List.mem_filter, Option.isNone_iff_eq_none] at hk
  unfold TableSet.chains
  rw [List.map_flatten, List.nodup_flatten, List.map_map, List.forall_mem_map, List.pairwise_map]
  refine ⟨fun k hk => h.nodup_chainFrom (hroot k hk).1, ?_⟩
  have hne : (set.tables.filter fun p => p.left.isNone).Pairwise fun k k' => k.id ≠ k'.id :=
    (List.pairwise_map.mp ht.nodup).sublist List.filter_sublist
  refine hne.imp_of_mem fun hk hk' hneid i hi hi' => ?_
  obtain ⟨hk, hleft⟩ := hroot _ hk
  obtain ⟨hk', hleft'⟩ := hroot _ hk'
  obtain ⟨p, hp, rfl⟩ := List.mem_map.mp hi
  obtain ⟨p', hp', hid⟩ := List.mem_map.mp hi'
  have hpmem := TableSet.mem_of_mem_chainFrom hk hp
  obtain rfl := ht.eq_of_id (TableSet.mem_of_mem_chainFrom hk' hp') hpmem hid
  exact hneid (congrArg _ (h.chain_unique ht hk hk' hleft hleft' p' hpmem hp hp'))

/-- The chains are the plans of the set, in another order. -/
theorem chains_perm : set.chains.flatten.Perm set.tables := by
  refine (List.perm_ext_iff_of_nodup ((h.nodup_chains ht).of_map _) (ht.nodup.of_map _)).mpr
    fun q => ?_
  rw [List.mem_flatten, h.mem_chains ht]

end

end Leveled

end QueryPlan
