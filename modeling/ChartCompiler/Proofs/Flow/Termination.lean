import ChartCompiler.Proofs.Flow.Edits
import ChartCompiler.Proofs.Flow.Rewriting
import Mathlib.Algebra.Order.BigOperators.Group.Finset

/-!
# Rebuilding ends

Joining and removing leave fewer nodes. Lifting leaves as many, but one node fewer stands below one
that it outranks: only the two that change places are turned round, and a node that is an only child
takes no others above or below with it. Both counts together are a weight that every single step
lowers.

Results:

* `Rewrites.weight_lt`: a single step lowers the weight.
* `weight_lt_maxRounds`: the bound on the number of rounds is not met.
* `optimize_rewrites`: what a rebuild gives comes about by single steps.
* `optimize_settles`: rounds follow one another until one changes nothing.
-/

namespace ChartCompiler.Flow

open Classical in
/-- The pairs of nodes of which the second hangs under the first and outranks it. -/
noncomputable def misplaced (g : Flow) : Finset (Nat × Nat) :=
  (Finset.range g.nextId ×ˢ Finset.range g.nextId).filter fun e =>
    g.Under e.1 e.2 ∧ ∃ n m, g.node? e.1 = some n ∧ g.node? e.2 = some m ∧ m.outranks n = true

/-- What every single step lowers: the number of nodes, then that of misplaced pairs. -/
noncomputable def weight (g : Flow) : Nat :=
  g.ids.length * (g.nextId * g.nextId + 1) + g.misplaced.card

variable {g h : Flow}

/-! ## Nodes -/

theorem length_ids_le (g : Flow) : g.ids.length ≤ g.nextId := by
  simpa [ids] using List.length_filter_le g.contains (List.range g.nextId)

theorem ids_congr (hn : h.nextId = g.nextId) (hc : ∀ i, h.contains i = g.contains i) :
    h.ids = g.ids := by
  have hcontains : h.contains = g.contains := funext hc
  unfold ids
  rw [hn, hcontains]

/-- One node fewer. -/
theorem length_ids_lt {id : Nat} (hid : g.contains id = true) (hn : h.nextId = g.nextId)
    (hc : ∀ i, h.contains i = true ↔ i ≠ id ∧ g.contains i = true) :
    h.ids.length < g.ids.length := by
  have hids : h.ids = g.ids.filter (· != id) := by
    unfold ids
    rw [hn, List.filter_filter]
    apply List.filter_congr
    intro i _
    rw [Bool.eq_iff_iff, hc i]
    simp
  rw [hids, List.length_filter_lt_length_iff_exists]
  exact ⟨id, mem_ids.2 hid, by simp⟩

/-! ## Misplaced pairs -/

theorem mem_misplaced {a x : Nat} : (a, x) ∈ g.misplaced ↔
    g.Under a x ∧ ∃ n m, g.node? a = some n ∧ g.node? x = some m ∧ m.outranks n = true := by
  simp only [misplaced, Finset.mem_filter, Finset.mem_product, Finset.mem_range]
  refine ⟨fun h => h.2, fun h => ⟨?_, h⟩⟩
  obtain ⟨-, n, m, hn, hm, -⟩ := h
  obtain ⟨p, hp, -⟩ := place?_of_node? hn
  obtain ⟨q, hq, -⟩ := place?_of_node? hm
  exact ⟨lt_nextId_of_place? hp, lt_nextId_of_place? hq⟩

theorem card_misplaced_le (g : Flow) : g.misplaced.card ≤ g.nextId * g.nextId := by
  classical
  simpa [misplaced] using Finset.card_filter_le (Finset.range g.nextId ×ˢ Finset.range g.nextId)
    fun e => g.Under e.1 e.2 ∧
      ∃ n m, g.node? e.1 = some n ∧ g.node? e.2 = some m ∧ m.outranks n = true

theorem outranks_iff {n m : FlowNode} :
    n.outranks m = true ↔ ∃ a b, n.rank? = some a ∧ m.rank? = some b ∧ b < a := by
  unfold FlowNode.outranks
  split
  · next a b hn hm => simp [hn, hm]
  · next hno =>
    simp only [Bool.false_eq_true, false_iff]
    rintro ⟨a, b, hn, hm, -⟩
    exact hno a b hn hm

theorem not_outranks_back {n m : FlowNode} (h : n.outranks m = true) : m.outranks n = false := by
  obtain ⟨a, b, hn, hm, hlt⟩ := outranks_iff.1 h
  apply Bool.eq_false_iff.2
  intro hback
  obtain ⟨b', a', hm', hn', hlt'⟩ := outranks_iff.1 hback
  obtain rfl : b = b' := Option.some.inj (hm.symm.trans hm')
  obtain rfl : a = a' := Option.some.inj (hn.symm.trans hn')
  omega

/-- Below whom a node hangs after an only child was lifted: below whom it hung before, but that the
two are turned round. -/
theorem under_lifted (hg : g.IsForest) {id p : Nat} {place above : Place}
    (hp : g.place? id = some place) (hpar : place.parent = some p) (ha : g.place? p = some above)
    (honly : above.children = [id]) {a x : Nat} (hu : (g.lifted id p place above).Under a x) :
    g.Under a x ∨ (a = id ∧ x = p) := by
  have hup := parent?_lifted hg hp ha
  have hpid : g.parent? id = some p := (parent?_of_place? hp).trans hpar
  have hforest : (g.lifted id p place above).IsForest := hg.lifted hp hpar ha
  -- one link of the lifted graph, seen in the graph before
  have hlink : ∀ {b y}, (g.lifted id p place above).parent? y = some b →
      (b = id ∧ y = p) ∨ (y = id ∧ g.parent? p = some b) ∨ (b = p ∧ g.parent? y = some id) ∨
        (y ≠ id ∧ y ≠ p ∧ b ≠ p ∧ b ≠ id ∧ g.parent? y = some b) := by
    intro b y hy
    rw [hup] at hy
    split_ifs at hy with h1 h2 h3
    · exact Or.inl ⟨(Option.some.inj hy).symm, h1⟩
    · exact Or.inr (Or.inl ⟨h2, hy⟩)
    · exact Or.inr (Or.inr (Or.inl ⟨(Option.some.inj hy).symm, h3⟩))
    · refine Or.inr (Or.inr (Or.inr ⟨h2, h1, fun e => h2 ?_, fun e => h3 (e ▸ hy), hy⟩))
      have hmem : y ∈ above.children := (hg.mem_children ha).2 (e ▸ hy)
      simpa [honly] using hmem
  induction hu with
  | @single y hy =>
    rcases hlink hy with ⟨rfl, rfl⟩ | ⟨rfl, h⟩ | ⟨rfl, h⟩ | ⟨-, -, -, -, h⟩
    · exact Or.inr ⟨rfl, rfl⟩
    · exact Or.inl (.tail (.single h) hpid)
    · exact Or.inl (.tail (.single hpid) h)
    · exact Or.inl (.single h)
  | @tail b y hab hby ih =>
    rcases hlink hby with ⟨rfl, rfl⟩ | ⟨rfl, h⟩ | ⟨rfl, h⟩ | ⟨-, -, hbp, -, h⟩
    · -- from the lifted node down to the one that it passed
      rcases ih with ih | ⟨rfl, rfl⟩
      · obtain ⟨c, hac, hc⟩ := Relation.TransGen.tail'_iff.1 ih
        obtain rfl : y = c := Option.some.inj (hpid.symm.trans hc)
        rcases Relation.reflTransGen_iff_eq_or_transGen.1 hac with rfl | hac
        · exact absurd (Relation.TransGen.tail hab hby) (hforest.not_under_self _)
        · exact Or.inl hac
      · exact absurd hpid (hg.parent?_ne_self _)
    · rcases ih with ih | ⟨rfl, rfl⟩
      · exact Or.inl (.tail (.tail ih h) hpid)
      · exact absurd h (hg.parent?_ne_self _)
    · rcases ih with ih | ⟨rfl, -⟩
      · exact Or.inl (.tail (.tail ih hpid) h)
      · exact Or.inl (.single h)
    · rcases ih with ih | ⟨-, rfl⟩
      · exact Or.inl (.tail ih h)
      · exact absurd rfl hbp

/-- Lifting an only child above a parent that it outranks. -/
theorem card_misplaced_lifted (hg : g.IsForest) {id p : Nat} {place above : Place}
    (hp : g.place? id = some place) (hpar : place.parent = some p) (ha : g.place? p = some above)
    (honly : above.children = [id]) (hrank : place.node.outranks above.node = true) :
    (g.lifted id p place above).misplaced.card < g.misplaced.card := by
  have hpid : g.parent? id = some p := (parent?_of_place? hp).trans hpar
  have hup : (g.lifted id p place above).parent? p = some id := by
    rw [parent?_lifted hg hp ha, if_pos rfl]
  have hforest : (g.lifted id p place above).IsForest := hg.lifted hp hpar ha
  refine Finset.card_lt_card ((Finset.ssubset_iff_of_subset ?_).2 ⟨(p, id), ?_, ?_⟩)
  · rintro ⟨a, x⟩ hmem
    obtain ⟨hu, n, m, hn, hm, hnm⟩ := mem_misplaced.1 hmem
    rw [node?_lifted] at hn hm
    rcases under_lifted hg hp hpar ha honly hu with hu | ⟨rfl, rfl⟩
    · exact mem_misplaced.2 ⟨hu, n, m, hn, hm, hnm⟩
    · rw [node?_of_place? hp] at hn
      rw [node?_of_place? ha] at hm
      cases hn
      cases hm
      simp [not_outranks_back hrank] at hnm
  · exact mem_misplaced.2 ⟨.single hpid, _, _, node?_of_place? ha, node?_of_place? hp, hrank⟩
  · intro hmem
    exact hforest.not_under_self p (.tail' (mem_misplaced.1 hmem).1.to_reflTransGen hup)

/-! ## The weight -/

theorem weight_lt_of_ids_lt (hn : h.nextId = g.nextId) (hlt : h.ids.length < g.ids.length) :
    h.weight < g.weight := by
  have hcard : h.misplaced.card ≤ g.nextId * g.nextId := hn ▸ card_misplaced_le h
  have hmul : (h.ids.length + 1) * (g.nextId * g.nextId + 1) ≤
      g.ids.length * (g.nextId * g.nextId + 1) := Nat.mul_le_mul_right _ hlt
  rw [Nat.add_one_mul] at hmul
  rw [weight, weight, hn]
  omega

theorem Rewrites.weight_lt (hg : g.IsForest) (hr : g.Rewrites h) : h.weight < g.weight := by
  have hn : h.nextId = g.nextId := hr.nextId
  cases hr with
  | joinSiblings hk ha _ _ _ _ =>
    exact weight_lt_of_ids_lt hn (length_ids_lt (contains_of_place? ha) hn contains_joined)
  | joinParent hp _ _ _ _ =>
    exact weight_lt_of_ids_lt hn (length_ids_lt (contains_of_place? hp) hn contains_joined)
  | prune hp _ _ =>
    exact weight_lt_of_ids_lt hn (length_ids_lt (contains_of_place? hp) hn contains_removed)
  | hoist hp hpar ha honly _ hpass =>
    have hcard := card_misplaced_lifted hg hp hpar ha honly (FlowNode.mayPass_iff.1 hpass).1
    rw [weight, weight, ids_congr hn contains_lifted, hn]
    omega

theorem weight_lt_of_rewrites (hg : g.IsForest) (hr : Relation.TransGen Rewrites g h) :
    h.weight < g.weight := by
  induction hr with
  | single hr => exact hr.weight_lt hg
  | tail hrs hr ih =>
    exact (hr.weight_lt (isForest_of_rewrites hg hrs.to_reflTransGen)).trans ih

theorem weight_lt_maxRounds (g : Flow) : g.weight < g.maxRounds := by
  have hcard := card_misplaced_le g
  have hmul : g.ids.length * (g.nextId * g.nextId + 1) ≤ g.nextId * (g.nextId * g.nextId + 1) :=
    Nat.mul_le_mul_right _ (length_ids_le g)
  rw [weight, maxRounds, Nat.add_one_mul]
  omega

/-! ## Rounds -/

/-- Rounds that follow one another until one changes nothing; their number, and what is left. -/
inductive Settles : Flow → Nat → Flow → Prop
  | still {g : Flow} : g.round = .ok ⟨g, false⟩ → Settles g 1 g
  | again {g h k : Flow} {n : Nat} : g.round = .ok ⟨h, true⟩ → Settles h n k → Settles g (n + 1) k

theorem Settles.rewrites {n : Nat} (hg : g.IsForest) (hs : g.Settles n h) :
    Relation.ReflTransGen Rewrites g h := by
  induction hs with
  | still _ => exact .refl
  | again hround _ ih =>
    obtain ⟨p, hp, hadv⟩ := round_ok hg
    cases hround.symm.trans hp
    exact hadv.reflTransGen.trans (ih (isForest_of_rewrites hg hadv.reflTransGen))

theorem optimizeWithin_settles {fuel : Nat} :
    ∀ (done : Nat) {g : Flow}, g.IsForest → g.weight < fuel →
      ∃ n h, g.Settles n h ∧ optimizeWithin fuel done g = .ok ⟨h, done + n⟩ := by
  induction fuel with
  | zero => exact fun _ _ _ hlt => absurd hlt (Nat.not_lt_zero _)
  | succ fuel ih =>
    intro done g hg hlt
    obtain ⟨⟨h, changed⟩, hround, hadv⟩ := round_ok hg
    simp only [optimizeWithin, hround, bind, Except.bind]
    cases hadv with
    | same => exact ⟨1, _, .still hround, rfl⟩
    | changed hrs =>
      have hw : h.weight < g.weight := weight_lt_of_rewrites hg hrs
      have hfuel : h.weight < fuel := by omega
      obtain ⟨n, k, hs, hk⟩ :=
        ih (done + 1) (isForest_of_rewrites hg hrs.to_reflTransGen) hfuel
      refine ⟨n + 1, k, .again hround hs, ?_⟩
      rw [if_pos rfl, hk]
      congr 2
      omega

/-- Rebuilding a forest gives a result, by single steps. -/
theorem optimize_rewrites (hg : g.IsForest) :
    ∃ n h, g.optimize = .ok ⟨h, n⟩ ∧ Relation.ReflTransGen Rewrites g h := by
  obtain ⟨n, h, hs, ho⟩ := optimizeWithin_settles 0 hg g.weight_lt_maxRounds
  exact ⟨0 + n, h, ho, hs.rewrites hg⟩

/-- In a forest, rounds follow one another until one changes nothing, and what that one leaves is
the result: the bound on their number is never met. -/
theorem optimize_settles (hg : g.IsForest) :
    ∃ n h, g.Settles n h ∧ g.optimize = .ok ⟨h, n⟩ := by
  obtain ⟨n, h, hs, ho⟩ := optimizeWithin_settles 0 hg g.weight_lt_maxRounds
  exact ⟨n, h, hs, by rw [optimize, ho, Nat.zero_add]⟩

/-- A formula below a filter, and an outlet that reads it. -/
theorem formula_below_filter_settles :
    ∃ g : Flow, g.node? 0 = some (.filter ⟨"", {}⟩) ∧ g.parent? 1 = some 0 ∧
      g.node? 1 = some (.formula "" "a") ∧ ∃ n h, g.Settles n h ∧ g.optimize = .ok ⟨h, n⟩ := by
  have h1 : Reached ⟨#[some ⟨.filter ⟨"", {}⟩, none, []⟩], [0]⟩ :=
    .step (e := .addRoot (.filter ⟨"", {}⟩)) .empty trivial rfl
  have h2 : Reached ⟨#[some ⟨.filter ⟨"", {}⟩, none, [1]⟩, some ⟨.formula "" "a", some 0, []⟩],
      [0]⟩ :=
    .step (e := .addChild 0 (.formula "" "a")) h1 rfl rfl
  have h3 : Reached ⟨#[some ⟨.filter ⟨"", {}⟩, none, [1]⟩, some ⟨.formula "" "a", some 0, [2]⟩,
      some ⟨.output ⟨"main", .ofList ["a"], {}⟩, some 1, []⟩], [0]⟩ :=
    .step (e := .addChild 1 (.output ⟨"main", .ofList ["a"], {}⟩)) h2 rfl rfl
  exact ⟨_, rfl, rfl, rfl, optimize_settles h3.isForest⟩

end ChartCompiler.Flow
