import ChartCompiler.Proofs.Flow.Rows
import ChartCompiler.Proofs.Flow.Simulation

/-!
# Interpretations

What nodes do to rows if nothing more is known of them than which fields they read and write. A
filter sees what it reads of a row, a formula or a truncation too, a binning sees what it reads of
all rows that arrive, and a grouping sees nothing else. A meaning says more: it fixes how bins and
truncations are built from expressions.

Results:

* `Interpretation.act_agree`: rows that agree on what a node reads agree behind it where they did
  before.
* `Interpretation.act_unproduced`: a node that assigns leaves what it does not produce.
* `Interpretation.act_comm`: a node that may move above its parent does the same there.
* `Interpretation.carries_rowsAt`: a node makes its rows of those that arrive.
* `Meaning.act_interpretation`, `Meaning.rowsAt_interpretation`: a meaning is an interpretation.
-/

namespace ChartCompiler

/-- What nodes do to rows. Each is told what it reads, and no more. -/
structure Interpretation (V : Type) where
  /-- The rows that arrive at nodes without a parent. -/
  entering : List (Row V)
  /-- The rows of a source. -/
  opening : RowSource → List (Row V)
  /-- Whether a filter accepts a row. -/
  accepts : RowFilter → Row V → Bool
  /-- What a node writes into a field of a row, if it does so: by the rows that it looks at, and the
  row. -/
  change : FlowNode → List (Row V) → Row V → String → Option (Option V)
  /-- The rows that stand for the groups of some rows. -/
  gather : Grouping → List (Row V) → List (Row V)

/-- The rows that a node looks at besides the one that it works on. The extent of a bin may be
computed from all of them. -/
def FlowNode.surveyed {V : Type} (n : FlowNode) (rows : List (Row V)) : List (Row V) :=
  match n with
  | .bin bs => rows.map (Row.only bs.dependent)
  | _ => []

namespace Interpretation

variable {V : Type}

/-- One of some rows behind a node that assigns: only what the node produces can change. -/
def written (I : Interpretation V) (n : FlowNode) (rows : List (Row V)) (r : Row V) : Row V :=
  fun f =>
    if f ∈ n.produced then (I.change n (n.surveyed rows) (r.only n.dependent) f).getD (r f)
    else r f

/-- The rows that a node hands on. -/
def act (I : Interpretation V) (n : FlowNode) (rows : List (Row V)) : List (Row V) :=
  match n with
  | .source s => I.opening s
  | .filter p => rows.filter fun r => I.accepts p (r.only p.fields)
  | .aggregate g => I.gather g (rows.map (Row.only g.dependent))
  | .output _ => rows
  | n => rows.map (I.written n rows)

/-- The rows behind a node: those that all nodes on the way down to it make of those that enter. -/
def rowsAt (I : Interpretation V) (g : Flow) (id : Nat) : List (Row V) :=
  (g.trail id).foldl (fun rows n => n.elim rows (I.act · rows)) I.entering

/-- The rows that arrive at a node. -/
def arriving (I : Interpretation V) (g : Flow) (id : Nat) : List (Row V) :=
  g.atParent I.entering (I.rowsAt g) id

variable {I : Interpretation V} {n p : FlowNode}

theorem act_of_disposable (h : n.isDisposable = true) (rows : List (Row V)) :
    I.act n rows = rows.map (I.written n rows) := by
  cases n <;> first | rfl | cases h

theorem written_of_mem {rows : List (Row V)} {r : Row V} {f : String} (h : f ∈ n.produced) :
    I.written n rows r f =
      (I.change n (n.surveyed rows) (r.only n.dependent) f).getD (r f) := by
  rw [written, if_pos h]

theorem written_of_notMem {rows : List (Row V)} {r : Row V} {f : String} (h : f ∉ n.produced) :
    I.written n rows r f = r f := by
  rw [written, if_neg h]

/-! ## One node -/

/-- Rows that agree on what a node reads are surveyed alike. -/
theorem surveyed_congr {wanted : String → Prop} {rs ss : List (Row V)}
    (h : Row.AgreeOn wanted rs ss) (hreads : ∀ f ∈ n.dependent, wanted f) :
    n.surveyed rs = n.surveyed ss := by
  cases n with
  | bin bs => exact h.only_eq hreads
  | _ => rfl

/-- Rows that agree on what a node reads agree behind it wherever they did before. -/
theorem act_agree {wanted : String → Prop} {rs ss : List (Row V)} (h : Row.AgreeOn wanted rs ss)
    (hreads : ∀ f ∈ n.dependent, wanted f) : Row.AgreeOn wanted (I.act n rs) (I.act n ss) := by
  have hassign : Row.AgreeOn wanted (rs.map (I.written n rs)) (ss.map (I.written n ss)) := by
    unfold Row.AgreeOn
    rw [List.forall₂_map_left_iff, List.forall₂_map_right_iff]
    refine List.Forall₂.imp (fun r s hrs f hf => ?_) h
    unfold written
    rw [surveyed_congr h hreads, Row.only_congr fun f hf => hrs f (hreads f hf), hrs f hf]
  cases n with
  | source s => exact .refl _ _
  | filter p =>
    refine h.filter fun r s hrs => ?_
    have honly : r.only p.fields = s.only p.fields := Row.only_congr fun f hf => hrs f (hreads f hf)
    rw [honly]
  | aggregate g =>
    have honly : rs.map (Row.only g.dependent) = ss.map (Row.only g.dependent) := h.only_eq hreads
    rw [act, act, honly]
    exact .refl _ _
  | output o => exact h
  | formula expr field => exact hassign
  | bin bs => exact hassign
  | timeUnit ts => exact hassign

/-- A node that assigns leaves what it does not produce. -/
theorem act_unproduced (h : n.isDisposable = true) (rows : List (Row V)) :
    Row.AgreeOn (· ∉ n.produced) (I.act n rows) rows := by
  rw [act_of_disposable h]
  unfold Row.AgreeOn
  rw [List.forall₂_map_left_iff]
  exact List.forall₂_same.2 fun _ _ _ hf => written_of_notMem hf

/-! ## Two nodes -/

section Two

variable {rows rows' : List (Row V)}

/-- What a node that rises writes does not depend on other rows. -/
theorem written_of_rises (h : n.rises = true) (rows rows' : List (Row V)) :
    I.written n rows = I.written n rows' := by
  cases n <;> first | rfl | cases h

/-- Two nodes that assign write the same into a row in either order if neither reads or writes what
the other writes. -/
theorem written_comm (hread : ∀ f ∈ p.produced, f ∉ n.dependent)
    (hwrite : ∀ f ∈ n.produced, f ∉ p.dependent ∧ f ∉ p.produced) (rows rows' : List (Row V))
    (r : Row V) :
    I.written n rows' (I.written p rows r) = I.written p rows (I.written n rows' r) := by
  have hn : (I.written p rows r).only n.dependent = r.only n.dependent :=
    Row.only_congr fun f hf => written_of_notMem fun hp => hread f hp hf
  have hp : (I.written n rows' r).only p.dependent = r.only p.dependent :=
    Row.only_congr fun f hf => written_of_notMem fun hn => (hwrite f hn).1 hf
  funext f
  by_cases hfn : f ∈ n.produced
  · have hfp : f ∉ p.produced := (hwrite f hfn).2
    rw [written_of_mem hfn, hn, written_of_notMem hfp, written_of_notMem hfp, written_of_mem hfn]
  · by_cases hfp : f ∈ p.produced
    · rw [written_of_notMem hfn, written_of_mem hfp, written_of_mem hfp, hp, written_of_notMem hfn]
    · rw [written_of_notMem hfn, written_of_notMem hfp, written_of_notMem hfp,
        written_of_notMem hfn]

/-- A node that may move above its parent does the same there. -/
theorem act_comm (hrises : n.rises = true) (hpass : n.mayPass p = true) (rows : List (Row V)) :
    I.act n (I.act p rows) = I.act p (I.act n rows) := by
  obtain ⟨hrank, hread, hwrite⟩ := FlowNode.mayPass_iff.1 hpass
  have hn : n.isDisposable = true := Flow.disposable_of_rises hrises
  rw [act_of_disposable hn, act_of_disposable hn, written_of_rises hrises (I.act p rows) rows]
  have hassign : (rows.map (I.written p rows)).map (I.written n rows) =
      (rows.map (I.written n rows)).map (I.written p (rows.map (I.written n rows))) := by
    have hsurveyed : p.surveyed (rows.map (I.written n rows)) = p.surveyed rows :=
      surveyed_congr (act_of_disposable hn rows ▸ act_unproduced hn rows) fun f hf hfn =>
        (hwrite f hfn).1 hf
    have hsame : I.written p (rows.map (I.written n rows)) = I.written p rows := by
      funext r f
      rw [written, written, hsurveyed]
    rw [hsame, List.map_map, List.map_map]
    exact List.map_congr_left fun r _ => written_comm hread hwrite rows rows r
  cases p with
  | filter q =>
    show (rows.filter _).map _ = (rows.map _).filter _
    rw [List.filter_map]
    congr 1
    refine List.filter_congr fun r _ => ?_
    have honly : (I.written n rows r).only q.fields = r.only q.fields :=
      Row.only_congr fun f hf => written_of_notMem fun hfn => (hwrite f hfn).1 hf
    rw [Function.comp_apply, honly]
  | formula expr field => exact hassign
  | bin bs => exact hassign
  | timeUnit ts => exact hassign
  | source s => simp [FlowNode.outranks, FlowNode.rank?] at hrank
  | aggregate g => simp [FlowNode.outranks, FlowNode.rank?] at hrank
  | output o => simp [FlowNode.outranks, FlowNode.rank?] at hrank

end Two

/-! ## The way down -/

/-- A node makes its rows of those that arrive. -/
theorem carries_rowsAt (I : Interpretation V) {g : Flow} (hg : g.IsForest) :
    Flow.Carries (fun _ => I.act) I.entering g (I.rowsAt g) := by
  intro id n hn
  cases hp : g.parent? id with
  | none =>
    rw [Flow.atParent_of_top hp, rowsAt, Flow.trail_of_top hp, hn]
    rfl
  | some p =>
    rw [Flow.atParent_of_parent hp, rowsAt, hg.trail_of_parent hp, List.foldl_append, hn]
    rfl

/-- An outlet hands on the rows that arrive. -/
theorem rowsAt_outlet (I : Interpretation V) {g : Flow} (hg : g.IsForest) {id : Nat} {o : Outlet}
    (ho : g.node? id = some (.output o)) : I.rowsAt g id = I.arriving g id :=
  I.carries_rowsAt hg id _ ho

end Interpretation

/-! ## Meanings -/

namespace Meaning

variable {V : Type} {m : Meaning V}

/-- One of some rows after several assignments. -/
def writtenAll (m : Meaning V) : List Assignment → List (Row V) → Row V → Row V
  | [], _, r => r
  | a :: rest, rows, r => m.writtenAll rest (m.assign rows a) (m.written rows a r)

/-- What a meaning says of nodes that are told what they read. -/
def interpretation (m : Meaning V) : Interpretation V where
  entering := []
  opening := m.opening
  accepts p := m.accepts p.expr
  change n rows r f :=
    if ∃ a ∈ n.assignments, f ∈ a.targets then some (m.writtenAll n.assignments rows r f) else none
  gather := m.gather

theorem foldl_assign_eq (as : List Assignment) (rows : List (Row V)) :
    as.foldl m.assign rows = rows.map (m.writtenAll as rows) := by
  induction as generalizing rows with
  | nil => exact (List.map_id rows).symm
  | cons a rest ih => rw [List.foldl_cons, ih, assign, List.map_map]; rfl

/-- What looks at one row at a time does not depend on the others. -/
theorem writtenAll_rowWise {as : List Assignment}
    (hwise : ∀ a ∈ as, ∀ e ∈ a, e.2.isRowWise = true) (rows rows' : List (Row V)) (r : Row V) :
    m.writtenAll as rows r = m.writtenAll as rows' r := by
  induction as generalizing rows rows' r with
  | nil => rfl
  | cons a rest ih =>
    have halone : m.written rows a r = m.written rows' a r := by
      funext f
      cases hl : a.lookup f with
      | none => simp only [written, hl]
      | some op =>
        obtain ⟨l, t, rfl, -⟩ := List.lookup_eq_some_iff.1 hl
        have hop : op.isRowWise = true := hwise _ List.mem_cons_self (f, op) (by simp)
        cases op with
        | value expr reads => simp only [written, hl, result]
        | start params computed field => cases hop
        | stop params computed field => cases hop
    rw [writtenAll, writtenAll, halone]
    exact ih (fun b hb => hwise b (by simp [hb])) _ _ _

/-- What a node writes into rows depends on what it reads of them. -/
theorem writtenAll_only (n : FlowNode) {rows : List (Row V)} {r : Row V} (hr : r ∈ rows)
    {f : String} (hf : n.Writes f) :
    m.writtenAll n.assignments rows r f =
      m.writtenAll n.assignments (rows.map (Row.only n.dependent)) (r.only n.dependent) f := by
  have hagree : Row.AgreeOn (· ∈ n.dependent) rows (rows.map (Row.only n.dependent)) := by
    unfold Row.AgreeOn
    rw [List.forall₂_map_right_iff]
    exact List.forall₂_same.2 fun _ _ _ hf => (if_pos hf).symm
  have hall := foldl_assign_agree (m := m) hagree n.readsOnly_assignments
  rw [foldl_assign_eq, foldl_assign_eq, Row.AgreeOn, List.map_map, List.forall₂_map_left_iff,
    List.forall₂_map_right_iff] at hall
  exact List.forall₂_same.1 hall r hr f (Or.inr hf)

theorem writtenAll_surveyed (n : FlowNode) {rows : List (Row V)} {r : Row V} (hr : r ∈ rows)
    {f : String} (hf : n.Writes f) :
    m.writtenAll n.assignments rows r f =
      m.writtenAll n.assignments (n.surveyed rows) (r.only n.dependent) f := by
  rw [writtenAll_only n hr hf]
  cases n with
  | bin bs => rfl
  | formula expr field => exact congrFun (writtenAll_rowWise (FlowNode.isRowWise_of_rises rfl) ..) f
  | timeUnit ts => exact congrFun (writtenAll_rowWise (FlowNode.isRowWise_of_rises rfl) ..) f
  | _ => rfl

theorem writtenAll_of_not_writes {n : FlowNode} (hn : n.isDisposable = true) {rows : List (Row V)}
    {r : Row V} (hr : r ∈ rows) {f : String} (hf : ¬n.Writes f) :
    m.writtenAll n.assignments rows r f = r f := by
  have hall := act_unwritten (m := m) hn rows
  rw [act_of_disposable hn, foldl_assign_eq, Row.AgreeOn, List.forall₂_map_left_iff] at hall
  exact List.forall₂_same.1 hall r hr f hf

/-- A meaning is an interpretation: nodes need no more than what they read. -/
theorem act_interpretation (m : Meaning V) (n : FlowNode) (rows : List (Row V)) :
    m.interpretation.act n rows = m.act n rows := by
  have hassign : n.isDisposable = true → m.interpretation.act n rows = m.act n rows := by
    intro hn
    rw [Interpretation.act_of_disposable hn, act_of_disposable hn, foldl_assign_eq]
    refine List.map_congr_left fun r hr => funext fun f => ?_
    by_cases hw : n.Writes f
    · rw [Interpretation.written_of_mem (FlowNode.mem_produced_of_writes hw),
        writtenAll_surveyed n hr hw]
      exact congrArg (Option.getD · (r f)) (if_pos hw)
    · rw [writtenAll_of_not_writes hn hr hw, Interpretation.written]
      split_ifs
      · exact congrArg (Option.getD · (r f)) (if_neg hw)
      · rfl
  cases n with
  | formula expr field => exact hassign rfl
  | bin bs => exact hassign rfl
  | timeUnit ts => exact hassign rfl
  | _ => rfl

theorem rowsAt_interpretation (m : Meaning V) (g : Flow) (id : Nat) :
    m.interpretation.rowsAt g id = m.rowsAt g id := by
  simp only [Interpretation.rowsAt, rowsAt, act_interpretation]
  rfl

/-- The rows behind an outlet are those that arrive there. -/
theorem rowsAt_outlet (m : Meaning V) {g : Flow} (hg : g.IsForest) {id : Nat} {o : Outlet}
    (ho : g.node? id = some (.output o)) :
    m.rowsAt g id = m.interpretation.arriving g id := by
  rw [← rowsAt_interpretation, Interpretation.rowsAt_outlet _ hg ho]

end Meaning

end ChartCompiler
