import ChartCompiler.Proofs.Flow.Availability
import ChartCompiler.Proofs.Flow.Reach
import ChartCompiler.Proofs.Flow.Walk

/-!
# Checked fields

What a check of a graph decides, told apart from how it goes down the trees. The nodes above a node
say which fields its rows have: those of the schema of the nearest source, and what the nodes from
there on add, where a grouping leaves only its own. Where that source has no schema, nothing is
asked.

Results:

* `FlowNode.Offered`, `FlowNode.Known`: the fields behind some nodes, and whether they are known.
* `FlowNode.Tells.handsOn`, `IsForest.tells_knownAbove`: what the check takes to be known is that.
* `IsForest.check_walk`: the check of a tree is that of its nodes, in depth-first order.
* `IsForest.validate_decides`: the check succeeds iff every node below a root is served, and else
  names the first one that is not.
-/

namespace ChartCompiler

/-! ## Ways of nodes -/

namespace FlowNode

/-- The fields of the rows behind nodes that hang below each other, the lowest node first. -/
inductive Offered : List FlowNode → String → Prop
  | schema {s : RowSource} {fields : FieldSet} {above : List FlowNode} {f : String} :
      s.schema = some fields → f ∈ fields → Offered (.source s :: above) f
  | produced {n : FlowNode} {above : List FlowNode} {f : String} :
      f ∈ n.produced → Offered (n :: above) f
  | grouped {a : Grouping} {above : List FlowNode} {f : String} :
      f ∈ a.dimensions → Offered (.aggregate a :: above) f
  | passed {n : FlowNode} {above : List FlowNode} {f : String} :
      (∀ s, n ≠ .source s) → (∀ a, n ≠ .aggregate a) → Offered above f → Offered (n :: above) f

/-- Whether the nearest source has a schema. -/
inductive Known : List FlowNode → Prop
  | schema {s : RowSource} {fields : FieldSet} {above : List FlowNode} :
      s.schema = some fields → Known (.source s :: above)
  | passed {n : FlowNode} {above : List FlowNode} :
      (∀ s, n ≠ .source s) → Known above → Known (n :: above)

theorem known_of_other {n : FlowNode} {above : List FlowNode} (hn : ∀ s, n ≠ .source s) :
    Known (n :: above) ↔ Known above := by
  constructor
  · intro h
    cases h with
    | schema => exact absurd rfl (hn _)
    | passed _ h => exact h
  · exact .passed hn

theorem offered_source {s : RowSource} {fields : FieldSet} {above : List FlowNode} {f : String}
    (hs : s.schema = some fields) :
    Offered (.source s :: above) f ↔ f ∈ fields ∨ f ∈ s.produced := by
  constructor
  · intro h
    cases h with
    | schema hs' hf => exact Or.inl (Option.some.inj (hs.symm.trans hs') ▸ hf)
    | produced hf => exact Or.inr hf
    | passed hn => exact absurd rfl (hn s)
  · rintro (h | h)
    · exact .schema hs h
    · exact .produced h

theorem offered_aggregate {a : Grouping} {above : List FlowNode} {f : String} :
    Offered (.aggregate a :: above) f ↔ f ∈ a.dimensions ∨ f ∈ a.produced := by
  constructor
  · intro h
    cases h with
    | produced hf => exact Or.inr hf
    | grouped hf => exact Or.inl hf
    | passed _ ha => exact absurd rfl (ha a)
  · rintro (h | h)
    · exact .grouped h
    · exact .produced h

theorem offered_of_other {n : FlowNode} {above : List FlowNode} {f : String}
    (hn : ∀ s, n ≠ .source s) (ha : ∀ a, n ≠ .aggregate a) :
    Offered (n :: above) f ↔ Offered above f ∨ f ∈ n.produced := by
  constructor
  · intro h
    cases h with
    | schema => exact absurd rfl (hn _)
    | produced hf => exact Or.inr hf
    | grouped => exact absurd rfl (ha _)
    | passed _ _ h => exact Or.inl h
  · rintro (h | h)
    · exact .passed hn ha h
    · exact .produced h

/-- Whether fields are the known ones behind a way of nodes. -/
def Tells (way : List FlowNode) : Option FieldSet → Prop
  | none => ¬Known way
  | some fields => Known way ∧ ∀ f, f ∈ fields ↔ Offered way f

/-- A node hands on what is known behind it. -/
theorem Tells.handsOn {way : List FlowNode} {known : Option FieldSet} (h : Tells way known)
    (n : FlowNode) : Tells (n :: way) (n.handsOn known) := by
  by_cases hsource : ∃ s, n = .source s
  · obtain ⟨s, rfl⟩ := hsource
    show Tells _ (s.schema.map (FlowNode.source s).outgoing)
    cases hs : s.schema with
    | none =>
      intro hknown
      cases hknown with
      | schema hs' => cases hs.symm.trans hs'
      | passed hn => exact hn s rfl
    | some fields =>
      refine ⟨.schema hs, fun f => ?_⟩
      rw [offered_source hs]
      exact OrderedSet.mem_union
  · have hn : ∀ s, n ≠ .source s := fun s hs => hsource ⟨s, hs⟩
    have hrows : n.handsOn known = known.map n.outgoing := by
      cases n with
      | source s => exact absurd rfl (hn s)
      | _ => rfl
    rw [hrows]
    cases known with
    | none => exact fun hknown => h ((known_of_other hn).1 hknown)
    | some fields =>
      refine ⟨.passed hn h.1, fun f => ?_⟩
      by_cases hgroup : ∃ a, n = .aggregate a
      · obtain ⟨a, rfl⟩ := hgroup
        rw [offered_aggregate]
        exact OrderedSet.mem_union
      · have ha : ∀ a, n ≠ .aggregate a := fun a ha => hgroup ⟨a, ha⟩
        have hadds : f ∈ n.outgoing fields ↔ f ∈ fields ∨ f ∈ n.produced := by
          cases n with
          | aggregate a => exact absurd rfl (ha a)
          | _ => exact OrderedSet.mem_union
        rw [offered_of_other hn ha, ← h.2]
        exact hadds

end FlowNode

namespace Flow

open FlowNode

variable {g : Flow}

/-- The nodes above a node, the nearest first. -/
def nodesAbove (g : Flow) (id : Nat) : List FlowNode := (g.ancestors id).filterMap g.node?

/-- A node finds the fields that it requires, if it is known which there are. -/
def Served (g : Flow) (id : Nat) (n : FlowNode) : Prop :=
  Known (g.nodesAbove id) → ∀ f ∈ n.required, Offered (g.nodesAbove id) f

/-- What the check takes to be known at a node is what the nodes above it tell. -/
theorem IsForest.tells_knownAbove (hg : g.IsForest) (id : Nat) :
    Tells (g.nodesAbove id) (g.knownAbove id) := by
  refine hg.up_induction (motive := fun id => Tells (g.nodesAbove id) (g.knownAbove id))
    (fun id ih => ?_) id
  unfold nodesAbove
  cases hp : g.parent? id with
  | none =>
    rw [IsForest.ancestors_of_top hp, knownAbove, hp]
    intro hknown
    cases hknown
  | some p =>
    obtain ⟨place, hplace⟩ := contains_iff.1 (hg.parent_live hp)
    have hn : g.node? p = some place.node := node?_of_place? hplace
    rw [hg.ancestors_of_parent hp, List.filterMap_cons_some hn, knownAbove_of_parent hp,
      hg.knownBehind_eq hn]
    exact (ih p hp).handsOn place.node

/-! ## The check of a node -/

/-- A source requires nothing, so that its own schema is looked at makes no difference. -/
theorem missing?_incoming (n : FlowNode) (above : Option FieldSet) :
    n.missing? (n.incoming above) = n.missing? above := by
  cases n with
  | source s =>
    have hnone : ∀ known, (FlowNode.source s).missing? known = none := fun known =>
      missing?_eq_none.2 fun _ _ f hf => nomatch hf
    rw [hnone, hnone]
  | _ => rfl

theorem IsForest.served_iff (hg : g.IsForest) {id : Nat} {n : FlowNode} :
    n.missing? (n.incoming (g.knownAbove id)) = none ↔ g.Served id n := by
  have htells := hg.tells_knownAbove id
  rw [missing?_incoming, missing?_eq_none]
  cases hknown : g.knownAbove id with
  | none =>
    rw [hknown] at htells
    exact ⟨fun _ h => absurd h htells, fun _ _ h => nomatch h⟩
  | some fields =>
    rw [hknown] at htells
    constructor
    · exact fun h _ f hf => (htells.2 f).1 (h fields rfl f hf)
    · rintro h _ ⟨⟩ f hf
      exact (htells.2 f).2 (h htells.1 f hf)

/-- The field that is reported is the first one that is not there. -/
theorem IsForest.missing_first (hg : g.IsForest) {id : Nat} {n : FlowNode} {field : String}
    (h : n.missing? (n.incoming (g.knownAbove id)) = some field) :
    Known (g.nodesAbove id) ∧ ¬Offered (g.nodesAbove id) field ∧
      ∃ front back, n.required.toList = front ++ field :: back ∧
        ∀ f ∈ front, Offered (g.nodesAbove id) f := by
  have htells := hg.tells_knownAbove id
  rw [missing?_incoming] at h
  obtain ⟨fields, hknown, hfind⟩ := Option.bind_eq_some_iff.1 h
  rw [hknown] at htells
  obtain ⟨hout, front, back, heq, hfront⟩ := List.find?_eq_some_iff_append.1 hfind
  refine ⟨htells.1, ?_, front, back, heq, fun f hf => (htells.2 f).1 ?_⟩
  · rw [← htells.2]
    simpa using hout
  · simpa using hfront f hf

/-! ## The check of a graph -/

/-- What the check finds wrong with a node. -/
def fault? (g : Flow) (e : Nat × FlowNode) : Option CompileError :=
  (e.2.missing? (e.2.incoming (g.knownAbove e.1))).map fun field => .missingField field e.2.kind

/-- What the check reports of some nodes, one after the other. -/
def verdict (g : Flow) (es : List (Nat × FlowNode)) : Except CompileError Unit :=
  match es.findSome? g.fault? with
  | some e => .error e
  | none => .ok ()

theorem verdict_append (a b : List (Nat × FlowNode)) :
    g.verdict (a ++ b) = g.verdict a >>= fun _ => g.verdict b := by
  unfold verdict
  rw [List.findSome?_append]
  cases a.findSome? g.fault? <;> rfl

theorem verdict_eq_ok {es : List (Nat × FlowNode)} :
    g.verdict es = .ok () ↔ ∀ e ∈ es, g.fault? e = none := by
  rw [verdict, ← List.findSome?_eq_none_iff]
  cases es.findSome? g.fault? <;> simp

/-- The first node that something is wrong with is the one that is reported. -/
theorem verdict_ne_ok {es : List (Nat × FlowNode)} (h : g.verdict es ≠ .ok ()) :
    ∃ front e back fault, es = front ++ e :: back ∧ (∀ e' ∈ front, g.fault? e' = none) ∧
      g.fault? e = some fault ∧ g.verdict es = .error fault := by
  rw [verdict] at h ⊢
  cases hfirst : es.findSome? g.fault? with
  | none => simp [hfirst] at h
  | some fault =>
    obtain ⟨front, e, back, heq, hfault, hfront⟩ := List.findSome?_eq_some_iff.1 hfirst
    exact ⟨front, e, back, fault, heq, hfront, hfault, rfl⟩

theorem checkAll_walk {above : Option FieldSet} {cs : List Nat}
    (h : ∀ c ∈ cs, FlowTree.check above (g.tree c) = g.verdict (g.walk c)) :
    FlowTree.checkAll above (cs.map g.tree) = g.verdict (cs.flatMap g.walk) := by
  induction cs with
  | nil => rfl
  | cons c cs ih =>
    rw [List.map_cons, FlowTree.checkAll, h c List.mem_cons_self,
      ih fun x hx => h x (List.mem_cons_of_mem c hx), List.flatMap_cons, verdict_append]

namespace IsForest

/-- The check of a tree is that of its nodes, in depth-first order. -/
theorem check_walk (hg : g.IsForest) {id : Nat} (hid : g.contains id = true) :
    FlowTree.check (g.knownAbove id) (g.tree id) = g.verdict (g.walk id) := by
  refine hg.down_induction
    (motive := fun id => FlowTree.check (g.knownAbove id) (g.tree id) = g.verdict (g.walk id))
    (fun id place hp ih => ?_) hid
  -- each branch starts from what is known behind the node, so nothing passes between branches
  have hbehind : (place.node.incoming (g.knownAbove id)).map place.node.outgoing =
      g.knownBehind id := (hg.knownBehind_eq (node?_of_place? hp)).symm
  have hchildren : FlowTree.checkAll (g.knownBehind id) (place.children.map g.tree) =
      g.verdict (place.children.flatMap g.walk) := checkAll_walk fun c hc => by
    rw [← knownAbove_of_parent ((hg.mem_children hp).1 hc)]
    exact ih c hc
  rw [hg.tree_eq hp, FlowTree.check, hg.walk_eq hp, hbehind, hchildren, ← List.singleton_append,
    verdict_append]
  cases hmissing : place.node.missing? (place.node.incoming (g.knownAbove id)) with
  | some field => simp [verdict, fault?, hmissing]; rfl
  | none => simp [verdict, fault?, hmissing]; rfl

theorem validate_walk (hg : g.IsForest) : g.validate = g.verdict (g.roots.flatMap g.walk) := by
  refine checkAll_walk fun r hr => ?_
  have habove : g.knownAbove r = none := by rw [knownAbove, hg.roots_top hr, Option.bind_none]
  rw [← habove]
  exact hg.check_walk (hg.roots_live hr)

/-- The check of a graph succeeds iff every node below a root is served. Else it names the first
one, in depth-first order, that is not, with the first field that it does not find. -/
theorem validate_decides (hg : g.IsForest) :
    ∃ es, FlowTree.entriesOfAll g.forest = .ok es ∧
      (∀ i n, (i, n) ∈ es ↔ g.Reachable i ∧ g.node? i = some n) ∧
      (g.validate = .ok () ↔ ∀ i n, g.Reachable i → g.node? i = some n → g.Served i n) ∧
      (g.validate ≠ .ok () → ∃ front i n back field,
        es = front ++ (i, n) :: back ∧ (∀ e ∈ front, g.Served e.1 e.2) ∧ ¬g.Served i n ∧
        (∃ found more, n.required.toList = found ++ field :: more ∧
          (∀ f ∈ found, Offered (g.nodesAbove i) f) ∧ ¬Offered (g.nodesAbove i) field) ∧
        g.validate = .error (.missingField field n.kind)) := by
  have hmem : ∀ i n, (i, n) ∈ g.roots.flatMap g.walk ↔ g.Reachable i ∧ g.node? i = some n := by
    intro i n
    rw [List.mem_flatMap, Reachable, ← exists_and_right]
    refine exists_congr fun r => ?_
    rw [and_assoc]
    exact and_congr_right fun hr => hg.mem_walk (hg.roots_live hr)
  have hserved : ∀ e : Nat × FlowNode, g.fault? e = none ↔ g.Served e.1 e.2 := fun e => by
    rw [fault?, Option.map_eq_none_iff, hg.served_iff]
  refine ⟨_, hg.forest_walk, hmem, ?_, fun hfails => ?_⟩
  · rw [hg.validate_walk, verdict_eq_ok]
    constructor
    · exact fun h i n hi hn => (hserved (i, n)).1 (h _ ((hmem i n).2 ⟨hi, hn⟩))
    · rintro h ⟨i, n⟩ he
      obtain ⟨hi, hn⟩ := (hmem i n).1 he
      exact (hserved (i, n)).2 (h i n hi hn)
  · rw [hg.validate_walk] at hfails ⊢
    obtain ⟨front, ⟨i, n⟩, back, _, heq, hfront, hfault, hverdict⟩ := verdict_ne_ok hfails
    obtain ⟨field, hmissing, rfl⟩ := Option.map_eq_some_iff.1 hfault
    obtain ⟨hknown, hout, hrequired⟩ := hg.missing_first hmissing
    have hfield : field ∈ n.required := (missing?_eq_some hmissing).1
    obtain ⟨found, more, hsplit, hfound⟩ := hrequired
    exact ⟨front, i, n, back, field, heq, fun e he => (hserved e).1 (hfront e he),
      fun hserves => hout (hserves hknown field hfield), ⟨found, more, hsplit, hfound, hout⟩,
      hverdict⟩

end IsForest

/-- Rows with a field `a`. -/
def writtenRows : FlowNode :=
  .source ⟨"rows", ⟨none, some [.obj [("a", .null)]], none, none⟩, false⟩

/-- Keeps the rows whose `b` is set. -/
def setRows : FlowNode := .filter ⟨"datum.b", .ofList ["b"]⟩

/-- What a formula of a first branch writes is read in a second one. -/
def forks : Flow :=
  ⟨#[some ⟨writtenRows, none, [1, 2]⟩, some ⟨.formula "1" "b", some 0, []⟩,
    some ⟨setRows, some 0, []⟩], [0]⟩

theorem forks_unserved :
    ¬forks.Served 2 setRows ∧ ∃ i n field, forks.node? i = some n ∧ ¬forks.Served i n ∧
      forks.validate = .error (.missingField field n.kind) := by
  have h1 : Reached ⟨#[some ⟨writtenRows, none, []⟩], [0]⟩ :=
    .step (e := .addRoot writtenRows) .empty trivial rfl
  have h2 : Reached ⟨#[some ⟨writtenRows, none, [1]⟩, some ⟨.formula "1" "b", some 0, []⟩], [0]⟩ :=
    .step (e := .addChild 0 (.formula "1" "b")) h1 rfl rfl
  have h3 : Reached forks := .step (e := .addChild 0 setRows) h2 rfl rfl
  have habove : forks.nodesAbove 2 = [writtenRows] := rfl
  have hbad : ¬forks.Served 2 setRows := fun h => by
    rw [Served, habove] at h
    have hout := (offered_source rfl).1 (h (.schema rfl) "b" (by decide))
    revert hout
    decide
  have hroot : forks.Hangs 0 2 := rfl
  obtain ⟨es, -, hmem, hiff, hfirst⟩ := h3.isForest.validate_decides
  have hfails : forks.validate ≠ .ok () := fun hok =>
    hbad (hiff.1 hok 2 _ ⟨0, by decide, .single hroot⟩ rfl)
  obtain ⟨front, i, n, back, field, rfl, -, hlacks, -, herror⟩ := hfirst hfails
  exact ⟨hbad, i, n, field, ((hmem i n).1 (by simp)).2, hlacks, herror⟩

example : forks.validate = .error (.missingField "b" "filter") := rfl

end Flow

end ChartCompiler
