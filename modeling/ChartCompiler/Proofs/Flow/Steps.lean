import ChartCompiler.Proofs.Flow.Cutting

/-!
# Steps of cut graphs

Cutting a graph into datasets loses no step and moves none: the datasets that are closed, one behind
the other, and then the open one hold the steps of the nodes that were entered. This needs nothing
of the graph, whatever its nodes are called.

Results:

* `Closed.steps_add`, `Closed.steps_enter`: closing a dataset, and entering a node.
* `FlowTree.cut_steps`: cutting a tree.
* `Flow.datasets_steps`: the steps of all datasets are those of all nodes, in order.
-/

namespace ChartCompiler

namespace Closed

variable {c : Closed} {d : Dataset}

/-- The steps of the datasets that are closed. -/
def steps (c : Closed) : List OutputTransform := c.datasets.flatMap Dataset.transforms

theorem steps_add (c : Closed) (d : Dataset) : (c.add d).1.steps = c.steps ++ d.transforms := by
  simp [steps, add_datasets]

/-- A node that is entered puts its steps behind those that are there. -/
theorem steps_enter (c : Closed) (d : Dataset) (n : FlowNode) :
    (c.enter d n).1.steps ++ (c.enter d n).2.transforms =
      c.steps ++ d.transforms ++ n.steps := by
  cases n with
  | output o =>
    rw [FlowNode.steps, List.append_nil, enter, outlet]
    split_ifs
    · rfl
    · change (c.add d).1.steps ++ [] = _
      rw [steps_add, List.append_nil]
  | _ => exact (List.append_assoc ..).symm

end Closed

namespace FlowTree

/-- The steps of nodes. -/
def stepsOf (es : List (Nat × FlowNode)) : List OutputTransform := es.flatMap fun e => e.2.steps

theorem stepsOf_cons (e : Nat × FlowNode) (es : List (Nat × FlowNode)) :
    stepsOf (e :: es) = e.2.steps ++ stepsOf es := rfl

theorem stepsOf_append (es fs : List (Nat × FlowNode)) :
    stepsOf (es ++ fs) = stepsOf es ++ stepsOf fs := List.flatMap_append

theorem entriesOfAll_cons_eq_ok {tree : FlowTree} {rest : List FlowTree}
    {first others : List (Nat × FlowNode)} (hfirst : tree.entries = .ok first)
    (hothers : entriesOfAll rest = .ok others) :
    entriesOfAll (tree :: rest) = .ok (first ++ others) := by
  simp only [entriesOfAll, hfirst, hothers, bind, Except.bind, pure, Except.pure]

mutual

/-- A tree that is cut puts the steps of its nodes behind those that are there. -/
theorem cut_steps : ∀ {tree : FlowTree} {c c' : Closed} {d : Dataset}, tree.cut c d = .ok c' →
    ∃ es, tree.entries = .ok es ∧ c'.steps = c.steps ++ d.transforms ++ stepsOf es
  | .missing id, c, c', d, h => by
    rw [cut] at h
    cases h
  | .node id n children, c, c', d, h => by
    rw [cut] at h
    have hentered := c.steps_enter d n
    generalize c.enter d n = entered at h hentered
    obtain ⟨es, hes, hsteps⟩ := cutBelow_steps h
    refine ⟨(id, n) :: es, ?_, ?_⟩
    · simp only [entries, hes, bind, Except.bind, pure, Except.pure]
    · rw [hsteps, hentered, stepsOf_cons, List.append_assoc]

theorem cutBelow_steps : ∀ {children : List FlowTree} {c c' : Closed} {d : Dataset},
    cutBelow c d children = .ok c' →
      ∃ es, entriesOfAll children = .ok es ∧ c'.steps = c.steps ++ d.transforms ++ stepsOf es
  | [], c, c', d, h => by
    rw [cutBelow] at h
    cases h
    exact ⟨[], rfl, by simp [c.steps_add, stepsOf]⟩
  | [child], c, c', d, h => by
    rw [cutBelow] at h
    obtain ⟨es, hes, hsteps⟩ := cut_steps h
    exact ⟨es ++ [], entriesOfAll_cons_eq_ok hes rfl, by rw [hsteps, List.append_nil]⟩
  | first :: second :: rest, c, c', d, h => by
    rw [cutBelow] at h
    have hclosed := c.steps_add d
    generalize c.add d = closed at h hclosed
    obtain ⟨c₁, hfirst, hrest⟩ := bind_eq_ok.1 h
    obtain ⟨es, hes, hsteps⟩ := cut_steps hfirst
    obtain ⟨fs, hfs, hsteps'⟩ := cutBranches_steps hrest
    refine ⟨es ++ fs, entriesOfAll_cons_eq_ok hes hfs, ?_⟩
    rw [hsteps', hsteps, hclosed, stepsOf_append]
    simp [Dataset.readingFrom, Dataset.named]

theorem cutBranches_steps : ∀ {children : List FlowTree} {c c' : Closed} {source : String},
    cutBranches c source children = .ok c' →
      ∃ es, entriesOfAll children = .ok es ∧ c'.steps = c.steps ++ stepsOf es
  | [], c, c', source, h => by
    rw [cutBranches] at h
    cases h
    exact ⟨[], rfl, by simp [stepsOf]⟩
  | child :: rest, c, c', source, h => by
    rw [cutBranches] at h
    obtain ⟨c₁, hfirst, hrest⟩ := bind_eq_ok.1 h
    obtain ⟨es, hes, hsteps⟩ := cut_steps hfirst
    obtain ⟨fs, hfs, hsteps'⟩ := cutBranches_steps hrest
    refine ⟨es ++ fs, entriesOfAll_cons_eq_ok hes hfs, ?_⟩
    rw [hsteps', hsteps, stepsOf_append]
    simp [Dataset.readingFrom, Dataset.named]

end

/-- Trees that are cut one after the other. Nothing is done yet in the dataset that one opens. -/
theorem cutAll_steps {trees : List FlowTree} : ∀ {c c' : Closed},
    trees.foldlM (fun c tree => tree.cut c tree.opening) c = .ok c' →
      ∃ es, entriesOfAll trees = .ok es ∧ c'.steps = c.steps ++ stepsOf es := by
  induction trees with
  | nil =>
    intro c c' h
    cases h
    exact ⟨[], rfl, by simp [stepsOf]⟩
  | cons tree rest ih =>
    intro c c' h
    rw [List.foldlM_cons] at h
    obtain ⟨c₁, hfirst, hrest⟩ := bind_eq_ok.1 h
    obtain ⟨es, hes, hsteps⟩ := cut_steps hfirst
    obtain ⟨fs, hfs, hsteps'⟩ := ih hrest
    have hopening : tree.opening.transforms = [] := by
      unfold opening
      split <;> rfl
    refine ⟨es ++ fs, entriesOfAll_cons_eq_ok hes hfs, ?_⟩
    rw [hsteps', hsteps, hopening, List.append_nil, stepsOf_append, List.append_assoc]

end FlowTree

/-- The steps of the datasets of a graph are those of its nodes, each before its children. -/
theorem Flow.datasets_steps {g : Flow} {ds : List Dataset} (h : g.datasets = .ok ds) :
    ∃ es, FlowTree.entriesOfAll g.forest = .ok es ∧
      ds.flatMap Dataset.transforms = FlowTree.stepsOf es := by
  obtain ⟨c, hc, hds⟩ := bind_eq_ok.1 h
  cases hds
  obtain ⟨es, hes, hsteps⟩ := FlowTree.cutAll_steps hc
  exact ⟨es, hes, hsteps⟩

end ChartCompiler
