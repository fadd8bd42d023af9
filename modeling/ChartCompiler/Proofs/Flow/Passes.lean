import ChartCompiler.Proofs.Flow.Interpretations

/-!
# Single passes

A pass that lifts nodes changes nothing of the rows that arrive at outlets. A pass that removes
nodes changes them in fields only that the outlets do not read: what is removed is read by no node
below, so rows that differ in what it would have written differ in nothing else further down, also
where that field is written again.

Results:

* `Hoists.arriving`, `Prunes.arriving`: what one step keeps.
* `hoistPass_keeps_rows`, `prunePass_keeps_rows`: what a whole pass keeps, under every
  interpretation.
-/

namespace ChartCompiler.Flow

variable {V : Type} {I : Interpretation V} {g h : Flow} {id : Nat}

/-! ## Lifting -/

/-- Lifting keeps the outlets with the rows that arrive there. -/
theorem Hoists.arriving (hg : g.IsForest) (hh : g.Hoists id h) {i : Nat} {o : Outlet}
    (ho : g.node? i = some (.output o)) :
    h.node? i = some (.output o) ∧ I.arriving h i = I.arriving g i := by
  refine ⟨(hh.rewrites.node?_iff rfl).2 ho, ?_⟩
  cases hh with
  | @intro p place above hp hpar ha honly hrises hpass =>
    have hs := swaps_lifted hg hp hpar ha honly
    have hbefore := I.carries_rowsAt hg
    have hafter := I.carries_rowsAt hs.isForest
    have hpair : I.act place.node (I.act above.node (g.atParent I.entering
        (I.rowsAt (g.lifted id p place above)) p)) = I.rowsAt (g.lifted id p place above) p := by
      rw [hs.behind_upper hafter, Interpretation.act_comm hrises hpass]
    obtain ⟨hsame, -⟩ :=
      hs.toRewritesPair.related hg (descends_eq _ g) hbefore hafter hpair
    have hid : i ≠ id :=
      ne_of_outlet ho hs.lower (isOutlet_of_disposable (disposable_of_rises hrises))
    have hip : i ≠ p := ne_of_outlet ho hs.upper (isOutlet_of_mayPass hpass)
    exact (hsame i _ hid hip ho).symm

/-- Lifting nodes at every node in turn changes nothing of the rows that arrive at outlets. -/
theorem hoistPass_keeps_rows (hg : g.IsForest) (c : Bool) :
    ∃ p, pass Flow.hoist ⟨g, c⟩ = .ok p ∧
      ∀ (V : Type) (I : Interpretation V) (id : Nat) (o : Outlet), g.node? id = some (.output o) →
        p.flow.node? id = some (.output o) ∧ I.arriving p.flow id = I.arriving g id := by
  refine pass_keeps hoist_takes (fun _ _ _ => Hoists.rewrites)
    (P := fun k => ∀ (V : Type) (I : Interpretation V) (id : Nat) (o : Outlet),
      g.node? id = some (.output o) →
        k.node? id = some (.output o) ∧ I.arriving k id = I.arriving g id) ?_ hg
    (fun _ _ _ _ ho => ⟨ho, rfl⟩) c
  intro k k' _ hk hstep hkept V I id o ho
  obtain ⟨hmid, hrows⟩ := hkept V I id o ho
  obtain ⟨hlast, hrows'⟩ := hstep.arriving (I := I) hk hmid
  exact ⟨hlast, hrows'.trans hrows⟩

/-- A formula below a filter, and an outlet that reads what it writes. -/
def filteredFormula : Flow :=
  ⟨#[some ⟨.filter (.ofExpr "datum.b"), none, [1]⟩, some ⟨.formula "datum.c" "a", some 0, [2]⟩,
    some ⟨.output ⟨"main", .ofList ["a"], {}⟩, some 1, []⟩], [0]⟩

theorem filteredFormula_isForest : filteredFormula.IsForest :=
  Growth.isForest_chain (.filter (.ofExpr "datum.b"))
    [.formula "datum.c" "a", .output ⟨"main", .ofList ["a"], {}⟩] rfl

/-- The formula is lifted above the filter, and the outlet receives the same rows. -/
theorem filteredFormula_lifted :
    filteredFormula.parent? 1 = some 0 ∧
      ∃ p, pass Flow.hoist ⟨filteredFormula, false⟩ = .ok p ∧ p.flow.parent? 0 = some 1 ∧
        ∀ (V : Type) (I : Interpretation V),
          I.arriving p.flow 2 = I.arriving filteredFormula 2 := by
  obtain ⟨p, hp, hrows⟩ := hoistPass_keeps_rows filteredFormula_isForest false
  obtain ⟨q, hq, hup⟩ : ∃ q, pass Flow.hoist ⟨filteredFormula, false⟩ = .ok q ∧
    q.flow.parent? 0 = some 1 := ⟨_, rfl, rfl⟩
  cases hp.symm.trans hq
  exact ⟨rfl, p, hp, hup, fun V I => (hrows V I 2 _ rfl).2⟩

/-! ## Removing -/

/-- Rows that differ only in fields that nobody below a node reads do so at every node below it. -/
theorem descends_unread (I : Interpretation V) {fields : FieldSet}
    (hunread : ∀ r n, g.Under id r → g.node? r = some n → n.reads fields = false) :
    Descends (fun _ => I.act) g (fun c => Row.AgreeOn fun f => g.Under id c → f ∉ fields)
      fun c => Row.AgreeOn fun f => g.Within id c → f ∉ fields where
  refl _ rs := .refl _ rs
  trans h h' := h.trans h'
  enter hp _ h := h.mono fun _ hf hw => hf (Relation.TransGen.tail' hw hp)
  leave {c n _ _} hn h := by
    have hreads : ∀ f ∈ n.dependent, g.Under id c → f ∉ fields := by
      intro f hf hu hin
      exact FlowNode.reads_eq_false_iff.1 (hunread c n hu hn) f hin hf
    exact (Interpretation.act_agree h hreads).mono fun _ hf hu => hf hu.to_reflTransGen

/-- Removing a node keeps the outlets, with the rows that arrive there in the fields that they
read. -/
theorem Prunes.arriving (hg : g.IsForest) (hp : g.Prunes id h) {i : Nat} {o : Outlet}
    (ho : g.node? i = some (.output o)) :
    h.node? i = some (.output o) ∧
      Row.AgreeOn (· ∈ o.dependent) (I.arriving g i) (I.arriving h i) := by
  refine ⟨(hp.rewrites.node?_iff rfl).2 ho, ?_⟩
  cases hp with
  | @intro place hplace hd hunread =>
    have hr := removes_removed hg hplace
    obtain ⟨hsame, -⟩ := hr.related hg (descends_unread I hunread) (I.carries_rowsAt hg)
      (I.carries_rowsAt hr.isForest)
      ((Interpretation.act_unproduced hd _).mono fun f hf => hf .refl)
    have hne : i ≠ id := ne_of_outlet ho hr.gone (isOutlet_of_disposable hd)
    exact (hsame i _ hne ho).mono fun f hf hu hin =>
      FlowNode.reads_eq_false_iff.1 (hunread i _ hu ho) f hin hf

/-- Removing nodes at every node in turn changes nothing of the rows that arrive at outlets in the
fields that an outlet requires and those that are selected. -/
theorem prunePass_keeps_rows (hg : g.IsForest) (c : Bool) :
    ∃ p, pass Flow.prune ⟨g, c⟩ = .ok p ∧
      ∀ (V : Type) (I : Interpretation V) (id : Nat) (o : Outlet), g.node? id = some (.output o) →
        p.flow.node? id = some (.output o) ∧
          (I.arriving p.flow id).map (Row.only (o.required.union o.selected)) =
            (I.arriving g id).map (Row.only (o.required.union o.selected)) := by
  refine pass_keeps prune_takes (fun _ _ _ => Prunes.rewrites)
    (P := fun k => ∀ (V : Type) (I : Interpretation V) (id : Nat) (o : Outlet),
      g.node? id = some (.output o) → k.node? id = some (.output o) ∧
        (I.arriving k id).map (Row.only (o.required.union o.selected)) =
          (I.arriving g id).map (Row.only (o.required.union o.selected))) ?_ hg
    (fun _ _ _ _ ho => ⟨ho, rfl⟩) c
  intro k k' _ hk hstep hkept V I id o ho
  obtain ⟨hmid, hrows⟩ := hkept V I id o ho
  obtain ⟨hlast, hrows'⟩ := hstep.arriving (I := I) hk hmid
  exact ⟨hlast, (hrows'.only_eq fun _ hf => hf).symm.trans hrows⟩

/-- A source of one row. -/
def rowOfTwo : RowSource :=
  ⟨"source_0", ⟨none, some [.obj [("a", .int 1), ("b", .int 2)]], none, none⟩, false⟩

/-- A formula that overwrites a field of a source, and an outlet that does not read it. -/
def overwrittenSource : Flow :=
  ⟨#[some ⟨.source rowOfTwo, none, [1]⟩, some ⟨.formula "datum.b" "a", some 0, [2]⟩,
    some ⟨.output ⟨"main", .ofList ["b"], {}⟩, some 1, []⟩], [0]⟩

theorem overwrittenSource_isForest : overwrittenSource.IsForest :=
  Growth.isForest_chain (.source rowOfTwo)
    [.formula "datum.b" "a", .output ⟨"main", .ofList ["b"], {}⟩] rfl

/-- One row of zeros, and formulas that write a one. -/
def zeroThenOne : Interpretation Nat where
  entering := []
  opening _ := [fun _ => some 0]
  accepts _ _ := true
  change _ _ _ _ := some (some 1)
  gather _ rows := rows

/-- The formula is removed, and the outlet receives the same in the field that it reads, but not in
the one that was overwritten. -/
theorem overwrittenSource_pruned :
    overwrittenSource.contains 1 = true ∧
      ∃ p, pass Flow.prune ⟨overwrittenSource, false⟩ = .ok p ∧ p.flow.contains 1 = false ∧
        (∀ (V : Type) (I : Interpretation V),
          (I.arriving p.flow 2).map (Row.only (.ofList ["b"])) =
            (I.arriving overwrittenSource 2).map (Row.only (.ofList ["b"]))) ∧
        zeroThenOne.arriving p.flow 2 ≠ zeroThenOne.arriving overwrittenSource 2 := by
  obtain ⟨p, hp, hrows⟩ := prunePass_keeps_rows overwrittenSource_isForest false
  obtain ⟨q, hq, hgone, hbefore, hafter⟩ :
      ∃ q, pass Flow.prune ⟨overwrittenSource, false⟩ = .ok q ∧ q.flow.contains 1 = false ∧
        (zeroThenOne.arriving overwrittenSource 2).map (· "a") = [some 1] ∧
        (zeroThenOne.arriving q.flow 2).map (· "a") = [some 0] :=
    ⟨_, rfl, rfl, rfl, rfl⟩
  cases hp.symm.trans hq
  refine ⟨rfl, p, hp, hgone, fun V I => (hrows V I 2 _ rfl).2, fun hsame => ?_⟩
  rw [hsame, hbefore] at hafter
  cases hafter

end ChartCompiler.Flow
