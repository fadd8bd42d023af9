import ChartCompiler.Proofs.Flow.Availability

/-!
# Graphs of one chain

A chart of a single view has a graph whose nodes all hang below each other. The check of such a
graph goes down the chain: each node finds what it requires among the fields that those above it
hand on.

Results:

* `FlowNode.Finds`: what the check asks of nodes that hang below each other.
* `Growth.addChain_strung`: a chain below the last node of a chain makes one chain.
* `Strung.validate_iff`: the check of a graph of one chain.
-/

namespace ChartCompiler

namespace FlowNode

/-- Whether nodes that hang below each other find what they require, below some known fields. -/
def Finds : List FlowNode → FieldSet → Prop
  | [], _ => True
  | n :: rest, fields => (∀ f ∈ n.required, f ∈ fields) ∧ Finds rest (n.outgoing fields)

theorem finds_append {nodes more : List FlowNode} : ∀ {fields : FieldSet},
    Finds (nodes ++ more) fields ↔ Finds nodes fields ∧ Finds more (through nodes fields) := by
  induction nodes with
  | nil => simp [Finds, through]
  | cons n rest ih =>
    intro fields
    rw [List.cons_append, Finds, Finds, ih, and_assoc]
    rfl

/-- What each node requires is behind those above it. -/
theorem finds_iff {nodes : List FlowNode} : ∀ {fields : FieldSet},
    Finds nodes fields ↔
      ∀ before n, before ++ [n] <+: nodes → ∀ f ∈ n.required, f ∈ through before fields := by
  induction nodes with
  | nil => simp [Finds]
  | cons m rest ih =>
    intro fields
    rw [Finds, ih]
    constructor
    · rintro ⟨hfirst, hrest⟩ before n hprefix
      cases before with
      | nil =>
        obtain ⟨rfl, -⟩ := List.cons_prefix_cons.1 hprefix
        exact hfirst
      | cons k before =>
        obtain ⟨rfl, htail⟩ := List.cons_prefix_cons.1 hprefix
        exact hrest before n htail
    · intro hall
      exact ⟨hall [] m (List.cons_prefix_cons.2 ⟨rfl, List.nil_prefix⟩),
        fun before n hprefix => hall (m :: before) n (List.cons_prefix_cons.2 ⟨rfl, hprefix⟩)⟩

end FlowNode

namespace Flow

variable {g : Flow} {nodes : List FlowNode}

/-- A graph of nodes that hang below each other: the ways down to its nodes are the first parts of
one. -/
structure Strung (g : Flow) (nodes : List FlowNode) : Prop where
  forest : g.IsForest
  on : ∀ i, g.contains i = true → ∃ way, way <+: nodes ∧ g.trail i = way.map some
  reaches : ∀ way, way <+: nodes → way ≠ [] → ∃ i, g.contains i = true ∧ g.trail i = way.map some

theorem strung_addRoot (node : FlowNode) : (Flow.empty.addRoot node).Strung [node] := by
  have htrail : (Flow.empty.addRoot node).trail Flow.empty.nextId = [some node] :=
    trail_addRoot IsForest.empty node
  refine ⟨(extends_addRoot IsForest.empty node).forest, fun i hi => ?_, fun way hway hne => ?_⟩
  · rw [addRoot_eq, attached, contains_relink, contains_insert] at hi
    rcases hi with rfl | hi
    · exact ⟨[node], List.prefix_rfl, htrail⟩
    · simp [Flow.empty, contains, place?] at hi
  · rcases List.prefix_cons_iff.1 hway with rfl | ⟨tail, rfl, htail⟩
    · exact absurd rfl hne
    · rw [List.prefix_nil.1 htail]
      exact ⟨_, contains_addRoot node, htrail⟩

/-- A node is added below the last one. -/
theorem Strung.addChild (hg : g.Strung nodes) {tail : Nat} (htail : g.contains tail = true)
    (htrail : g.trail tail = nodes.map some) (node : FlowNode) :
    ∃ h, g.addChild tail node = .ok h ∧ h.Strung (nodes ++ [node]) ∧
      h.contains g.nextId = true ∧ h.trail g.nextId = (nodes ++ [node]).map some := by
  obtain ⟨h, hadd, hext, hlive, hlast, -⟩ := extends_addChild hg.forest node htail
  rw [htrail, ← List.map_singleton, ← List.map_append] at hlast
  refine ⟨h, hadd, ⟨hext.forest, fun i hi => ?_, fun way hway hne => ?_⟩, hlive, hlast⟩
  · obtain ⟨hsame, -⟩ := hg.forest.addChild htail node
    cases hadd.symm.trans hsame
    rw [attached, contains_relink, contains_insert] at hi
    rcases hi with rfl | hi
    · exact ⟨_, List.prefix_rfl, hlast⟩
    · obtain ⟨way, hway, hold⟩ := hg.on i hi
      exact ⟨way, hway.trans (List.prefix_append ..), (hext.trail hg.forest i hi).trans hold⟩
  · rcases List.prefix_concat_iff.1 hway with rfl | hway
    · exact ⟨_, hlive, hlast⟩
    · obtain ⟨i, hi, hold⟩ := hg.reaches way hway hne
      exact ⟨i, hext.contains hi, (hext.trail hg.forest i hi).trans hold⟩

end Flow

theorem Growth.addChain_strung (more : List FlowNode) :
    ∀ {g : Flow} {nodes : List FlowNode} {tail : Nat}, g.Strung nodes → g.contains tail = true →
      g.trail tail = nodes.map some →
      ∃ h last, Growth.addChain g tail more = .ok (h, last) ∧ h.Strung (nodes ++ more) := by
  induction more with
  | nil => exact fun hg _ _ => ⟨_, _, rfl, by rwa [List.append_nil]⟩
  | cons node rest ih =>
    intro g nodes tail hg htail htrail
    obtain ⟨h, hadd, hstrung, hlive, hlast⟩ := hg.addChild htail htrail node
    obtain ⟨h', last, hrest, hstrung'⟩ := ih hstrung hlive hlast
    refine ⟨h', last, ?_, by simpa using hstrung'⟩
    rw [addChain, hadd]
    exact hrest

namespace Flow

variable {g : Flow}

/-- What a node on a chain below a source receives. -/
theorem IsForest.incoming_of_trail (hg : g.IsForest) {s : RowSource} {rest before : List FlowNode}
    {n : FlowNode} {fields : FieldSet} (hs : s.schema = some fields)
    (hrest : ∀ n ∈ rest, ∀ s', n ≠ .source s') (hstarts : before ++ [n] <+: rest) {i : Nat}
    (htrail : g.trail i = (.source s :: before ++ [n]).map some) :
    g.node? i = some n ∧ n.incoming (g.knownAbove i) =
      some (FlowNode.through before ((FlowNode.source s).outgoing fields)) := by
  have hsub : ∀ m ∈ before ++ [n], m ∈ rest := fun m hm => hstarts.subset hm
  obtain ⟨hn, habove⟩ := hg.knownAbove_of_trail htrail hs fun m hm =>
    hrest m (hsub m (List.mem_append_left _ hm))
  refine ⟨hn, ?_⟩
  rw [habove]
  cases n with
  | source s' => exact absurd rfl (hrest _ (hsub _ (by simp)) s')
  | _ => rfl

/-- Below a source whose fields are known, the check asks that each node finds what it requires. -/
theorem Strung.validate_iff {s : RowSource} {rest : List FlowNode} {fields : FieldSet}
    (hg : g.Strung (.source s :: rest))
    (hroots : ∀ i, g.contains i = true → ∃ r ∈ g.roots, g.Within r i)
    (hs : s.schema = some fields) (hrest : ∀ n ∈ rest, ∀ s', n ≠ .source s') :
    g.validate = .ok () ↔ FlowNode.Finds rest ((FlowNode.source s).outgoing fields) := by
  have hreports := hg.forest.validate_reports
  constructor
  · intro hvalid
    rw [hvalid] at hreports
    refine FlowNode.finds_iff.2 fun before n hprefix => ?_
    obtain ⟨i, hi, htrail⟩ := hg.reaches (.source s :: before ++ [n])
      (List.cons_prefix_cons.2 ⟨rfl, hprefix⟩) (by simp)
    obtain ⟨hn, hin⟩ := hg.forest.incoming_of_trail hs hrest hprefix htrail
    exact FlowNode.missing?_eq_none.1 (hreports i n (hroots i hi) hn) _ hin
  · intro hfinds
    cases hvalid : g.validate with
    | ok _ => rfl
    | error e =>
      rw [hvalid] at hreports
      obtain ⟨i, n, field, -, hn, hmissing, -⟩ := hreports
      obtain ⟨place, hplace, -⟩ := Option.map_eq_some_iff.1 hn
      obtain ⟨way, hway, htrail⟩ := hg.on i (contains_of_place? hplace)
      have hend := hg.forest.trail_eq i
      rw [htrail, hn, ← List.map_dropLast, ← List.map_singleton, ← List.map_append] at hend
      obtain ⟨before, rfl⟩ : ∃ before, way = before ++ [n] :=
        ⟨_, List.map_injective_iff.2 (fun _ _ => Option.some.inj) hend⟩
      obtain ⟨hfield, known, hin, hnot⟩ := FlowNode.missing?_eq_some hmissing
      cases before with
      | nil =>
        obtain ⟨rfl, -⟩ := List.cons_prefix_cons.1 hway
        exact absurd hfield OrderedSet.not_mem_empty
      | cons m before =>
        obtain ⟨rfl, hprefix⟩ := List.cons_prefix_cons.1 hway
        obtain ⟨-, habove⟩ := hg.forest.incoming_of_trail hs hrest hprefix htrail
        cases habove.symm.trans hin
        exact absurd (FlowNode.finds_iff.1 hfinds before n hprefix field hfield) hnot

end Flow

end ChartCompiler
