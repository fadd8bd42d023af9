import ChartCompiler.Flow.Optimized
import ChartCompiler.Proofs.Flow.Growth

/-!
# Rows

What a graph does to rows, whatever expressions, bins and groups mean. A meaning is told only the
fields that a node reads: an expression those it mentions, a binning its field, a grouping its
dimensions and measured fields. Formulas, binnings and truncations are lists of assignments, each of
which writes some fields of every row at once.

Results:

* `FlowNode.assignments`, `Meaning.act`: what a node does to the rows.
* `FlowNode.targets_steps`: assignments come in the order of a node's steps.
* `act_agree`: rows that agree on what a node reads, and on what it hands through, agree behind it.
* `act_unwritten`: a node that assigns leaves all other fields alone.
* `rowsAt_eq`: a node makes its rows of those that it receives.
-/

namespace ChartCompiler

/-- A row: the values of its fields. -/
def Row (V : Type) := String → Option V

namespace Row

variable {V : Type}

/-- A row with some fields only. -/
def only (fields : FieldSet) (r : Row V) : Row V := fun f => if f ∈ fields then r f else none

theorem only_congr {fields : FieldSet} {r s : Row V} (h : ∀ f ∈ fields, r f = s f) :
    r.only fields = s.only fields := by
  funext f
  by_cases hf : f ∈ fields
  · simp only [only, hf, if_true, h f hf]
  · simp only [only, hf, if_false]

/-- Whether two lists of rows agree on some fields, row by row. -/
def AgreeOn (wanted : String → Prop) : List (Row V) → List (Row V) → Prop :=
  List.Forall₂ fun r s => ∀ f, wanted f → r f = s f

namespace AgreeOn

variable {wanted : String → Prop} {rs ss : List (Row V)}

theorem refl (wanted : String → Prop) (rs : List (Row V)) : AgreeOn wanted rs rs :=
  List.forall₂_same.2 fun _ _ _ _ => rfl

theorem symm (h : AgreeOn wanted rs ss) : AgreeOn wanted ss rs :=
  List.Forall₂.flip (h.imp fun _ _ hrs f hf => (hrs f hf).symm)

theorem trans {ts : List (Row V)} (h : AgreeOn wanted rs ss) (h' : AgreeOn wanted ss ts) :
    AgreeOn wanted rs ts := by
  induction h generalizing ts with
  | nil => exact h'
  | cons hrs _ ih =>
    cases h' with
    | cons hst hrest => exact .cons (fun f hf => (hrs f hf).trans (hst f hf)) (ih hrest)

theorem mono {narrow : String → Prop} (h : AgreeOn wanted rs ss)
    (hsub : ∀ f, narrow f → wanted f) : AgreeOn narrow rs ss :=
  h.imp fun _ _ hrs f hf => hrs f (hsub f hf)

/-- The column of a field that they agree on is the same. -/
theorem column_eq (h : AgreeOn wanted rs ss) {f : String} (hf : wanted f) :
    rs.map (· f) = ss.map (· f) := by
  induction h with
  | nil => rfl
  | cons hrs _ ih => rw [List.map_cons, List.map_cons, hrs f hf, ih]

theorem only_eq {fields : FieldSet} (h : AgreeOn wanted rs ss)
    (hsub : ∀ f, f ∈ fields → wanted f) : rs.map (only fields) = ss.map (only fields) := by
  induction h with
  | nil => rfl
  | @cons r s rs ss hrs _ ih =>
    rw [List.map_cons, List.map_cons, only_congr fun f hf => hrs f (hsub f hf), ih]

theorem filter {p q : Row V → Bool} (h : AgreeOn wanted rs ss)
    (hpq : ∀ r s : Row V, (∀ f, wanted f → r f = s f) → p r = q s) :
    AgreeOn wanted (rs.filter p) (ss.filter q) := by
  induction h with
  | nil => exact .nil
  | @cons r s rs ss hrs _ ih =>
    rw [List.filter_cons, List.filter_cons, hpq r s hrs]
    split_ifs
    · exact .cons hrs ih
    · exact ih

end AgreeOn

end Row

/-! ## Assignments -/

/-- How a field is computed, with the fields that are read. -/
inductive FieldOp where
  | value (expr : String) (reads : List String)
  /-- The start of a bin, whether the extent is computed from the rows, and the field. -/
  | start (params : BinParams) (computed : Bool) (field : String)
  | stop (params : BinParams) (computed : Bool) (field : String)

namespace FieldOp

def reads : FieldOp → List String
  | .value _ reads => reads
  | .start _ _ field | .stop _ _ field => [field]

/-- Whether a row alone tells the value. -/
def isRowWise : FieldOp → Bool
  | .value _ _ => true
  | _ => false

end FieldOp

/-- Fields that are written into every row at the same time. -/
abbrev Assignment := List (String × FieldOp)

namespace Assignment

def targets (a : Assignment) : List String := a.map Prod.fst

def reads (a : Assignment) : List String := a.flatMap fun e => e.2.reads

end Assignment

namespace Binning

/-- Whether the extent is computed from the rows. -/
def computesExtent (b : Binning) : Bool := b.params.extent.isNone && b.extentSignal.isSome

/-- The ends of the bin. Of two ends under one name the stop counts. -/
def ends (b : Binning) : Assignment :=
  [(b.stop, .stop b.params b.computesExtent b.field),
    (b.start, .start b.params b.computesExtent b.field)]

/-- The label of the bin, if there is one. -/
def labels (b : Binning) : List Assignment :=
  match b.label, b.labelField with
  | some expr, some output => [[(output, .value expr [b.field, b.start, b.stop])]]
  | _, _ => []

def assignments (b : Binning) : List Assignment := b.ends :: b.labels

end Binning

/-- What a node writes into every row, in order. -/
def FlowNode.assignments : FlowNode → List Assignment
  | .formula expr field => [[(field, .value expr (Text.expressionFields expr).toList)]]
  | .bin bs => bs.byKey.values.flatMap Binning.assignments
  | .timeUnit ts => ts.byOutput.entries.map fun e => [(e.1, .value e.2.expr [e.2.field])]
  | _ => []

/-! ## Meanings -/

/-- What sources, expressions, bins and groups stand for. -/
structure Meaning (V : Type) where
  /-- The rows of a source. -/
  opening : RowSource → List (Row V)
  /-- The value of an expression on a row. -/
  value : String → Row V → V
  /-- Whether an expression accepts a row. -/
  accepts : String → Row V → Bool
  /-- The ends of the bin of a value: by parameters with their extent, or with the extent of a
  column. -/
  ends : BinParams → Option (List (Option V)) → Option V → V × V
  /-- The rows that stand for the groups of some rows. -/
  gather : Grouping → List (Row V) → List (Row V)

namespace Meaning

variable {V : Type} (m : Meaning V)

/-- The value of a computed field of one of some rows. -/
def result (rows : List (Row V)) (r : Row V) : FieldOp → V
  | .value expr reads => m.value expr (r.only (.ofList reads))
  | .start params computed field =>
    (m.ends params (if computed then some (rows.map (· field)) else none) (r field)).1
  | .stop params computed field =>
    (m.ends params (if computed then some (rows.map (· field)) else none) (r field)).2

/-- One of some rows after an assignment. -/
def written (rows : List (Row V)) (a : Assignment) (r : Row V) : Row V := fun f =>
  match a.lookup f with
  | some op => some (m.result rows r op)
  | none => r f

def assign (rows : List (Row V)) (a : Assignment) : List (Row V) := rows.map (m.written rows a)

/-- The rows that a node hands on. -/
def act (n : FlowNode) (rows : List (Row V)) : List (Row V) :=
  match n with
  | .source s => m.opening s
  | .filter f => rows.filter fun r => m.accepts f.expr (r.only f.fields)
  | .aggregate g => m.gather g (rows.map (Row.only g.dependent))
  | .output _ => rows
  | n => n.assignments.foldl m.assign rows

/-- The rows behind a node: those that all nodes on the way down to it make of none. -/
def rowsAt (g : Flow) (id : Nat) : List (Row V) :=
  (g.trail id).foldl (fun rows n => n.elim rows (m.act · rows)) []

/-! ## One assignment -/

variable {m} {wanted : String → Prop} {rs ss : List (Row V)} {a b : Assignment}

theorem result_congr (h : Row.AgreeOn wanted rs ss) {r s : Row V}
    (hrs : ∀ f, wanted f → r f = s f) {op : FieldOp} (hreads : ∀ f ∈ op.reads, wanted f) :
    m.result rs r op = m.result ss s op := by
  cases op with
  | value expr reads =>
    have honly : r.only (.ofList reads) = s.only (.ofList reads) :=
      Row.only_congr fun f hf => hrs f (hreads f (OrderedSet.mem_ofList.1 hf))
    rw [result, result, honly]
  | start params computed field =>
    have hfield : wanted field := hreads field (by simp [FieldOp.reads])
    rw [result, result, h.column_eq hfield, hrs field hfield]
  | stop params computed field =>
    have hfield : wanted field := hreads field (by simp [FieldOp.reads])
    rw [result, result, h.column_eq hfield, hrs field hfield]

theorem mem_reads_of_lookup {f : String} {op : FieldOp} (h : a.lookup f = some op) :
    ∀ x ∈ op.reads, x ∈ a.reads := by
  intro x hx
  obtain ⟨l, r, rfl, -⟩ := List.lookup_eq_some_iff.1 h
  exact List.mem_flatMap.2 ⟨(f, op), by simp, hx⟩

theorem mem_targets_iff {f : String} : f ∈ a.targets ↔ ∃ op, a.lookup f = some op := by
  rw [← Option.isSome_iff_exists, List.lookup_isSome_iff, Assignment.targets, List.mem_map]
  constructor
  · rintro ⟨e, he, rfl⟩
    exact ⟨e, he, by simp⟩
  · rintro ⟨e, he, hfe⟩
    exact ⟨e, he, (beq_iff_eq.1 hfe).symm⟩

theorem lookup_eq_none_of_notMem {f : String} (h : f ∉ a.targets) : a.lookup f = none := by
  rw [mem_targets_iff] at h
  exact Option.eq_none_iff_forall_not_mem.2 fun op hop => h ⟨op, hop⟩

theorem written_of_notMem {rows : List (Row V)} {r : Row V} {f : String} (h : f ∉ a.targets) :
    m.written rows a r f = r f := by
  simp only [written, lookup_eq_none_of_notMem h]

/-- Rows that agree on what is read agree on what is written. -/
theorem assign_agree (h : Row.AgreeOn wanted rs ss) (hreads : ∀ f ∈ a.reads, wanted f) :
    Row.AgreeOn (fun f => wanted f ∨ f ∈ a.targets) (m.assign rs a) (m.assign ss a) := by
  unfold Row.AgreeOn assign
  rw [List.forall₂_map_left_iff, List.forall₂_map_right_iff]
  refine List.Forall₂.imp (fun r s hrs f hf => ?_) h
  cases hl : a.lookup f with
  | none =>
    have hw : wanted f := hf.resolve_right fun ht => by
      obtain ⟨op, hop⟩ := mem_targets_iff.1 ht
      simp [hl] at hop
    simp only [written, hl, hrs f hw]
  | some op =>
    simp only [written, hl]
    rw [result_congr h hrs fun x hx => hreads x (mem_reads_of_lookup hl x hx)]

theorem assign_unwritten (rows : List (Row V)) :
    Row.AgreeOn (· ∉ a.targets) (m.assign rows a) rows := by
  unfold Row.AgreeOn assign
  rw [List.forall₂_map_left_iff]
  exact List.forall₂_same.2 fun _ _ _ hf => written_of_notMem hf

end Meaning

/-! ## Several assignments -/

namespace Assignment

/-- Whether several assignments read only given fields and what they have written themselves. -/
def ReadsOnly (known : String → Prop) : List Assignment → Prop
  | [] => True
  | a :: rest =>
    (∀ f ∈ a.reads, known f) ∧ ReadsOnly (fun f => known f ∨ f ∈ a.targets) rest

theorem ReadsOnly.mono {as : List Assignment} :
    ∀ {known more : String → Prop}, ReadsOnly known as → (∀ f, known f → more f) →
      ReadsOnly more as := by
  induction as with
  | nil => exact fun _ _ => trivial
  | cons a rest ih =>
    intro known more h hsub
    exact ⟨fun f hf => hsub f (h.1 f hf), ih h.2 fun f hf => hf.imp_left (hsub f)⟩

theorem ReadsOnly.append {as bs : List Assignment} :
    ∀ {known : String → Prop}, ReadsOnly known as → ReadsOnly known bs →
      ReadsOnly known (as ++ bs) := by
  induction as with
  | nil => exact fun _ h => h
  | cons a rest ih =>
    intro known h h'
    exact ⟨h.1, ih h.2 (h'.mono fun _ => Or.inl)⟩

end Assignment

namespace Binning

theorem readsOnly_assignments (b : Binning) :
    Assignment.ReadsOnly (· = b.field) b.assignments := by
  refine ⟨by simp [ends, Assignment.reads, FieldOp.reads], ?_⟩
  unfold labels
  split
  · refine ⟨fun f hf => ?_, trivial⟩
    simp only [Assignment.reads, FieldOp.reads, List.flatMap_cons, List.flatMap_nil,
      List.append_nil, List.mem_cons, List.not_mem_nil, or_false] at hf
    simp only [ends, Assignment.targets, List.map_cons, List.map_nil, List.mem_cons]
    tauto
  · trivial

theorem targets_assignments {b : Binning} {a : Assignment} (ha : a ∈ b.assignments) :
    ∀ f ∈ a.targets, f ∈ b.outputs := by
  rcases List.mem_cons.1 ha with rfl | ha
  · simp [ends, Assignment.targets, outputs]
  · unfold labels at ha
    split at ha
    · next expr output _ houtput =>
      rw [List.mem_singleton] at ha
      subst ha
      simp [Assignment.targets, outputs, houtput]
    · cases ha

end Binning

/-- The fields that a step writes into every row, if it is one that does; the start of a bin last. -/
def OutputTransform.targets? : OutputTransform → Option (List String)
  | .formula _ output => some [output]
  | .bin step => some [step.stop, step.start]
  | _ => none

theorem Binning.targets_steps (b : Binning) :
    b.assignments.map Assignment.targets = b.steps.filterMap OutputTransform.targets? := by
  have hextent : b.extentStep.2.filterMap OutputTransform.targets? = [] := by
    unfold extentStep
    split <;> rfl
  have hlabels : b.labels.map Assignment.targets =
      b.labelStep.filterMap OutputTransform.targets? := by
    unfold labels labelStep
    cases b.label with
    | none => rfl
    | some expr => cases b.labelField <;> rfl
  unfold steps assignments
  rw [List.filterMap_append, hextent, List.map_cons, hlabels]
  rfl

/-- What a node writes into every row comes in the order of its steps. -/
theorem FlowNode.targets_steps (n : FlowNode) :
    n.assignments.map Assignment.targets = n.steps.filterMap OutputTransform.targets? := by
  cases n with
  | source s =>
    show [] = s.steps.filterMap OutputTransform.targets?
    unfold RowSource.steps
    split <;> rfl
  | bin bs =>
    show (bs.byKey.values.flatMap Binning.assignments).map Assignment.targets =
      (bs.byKey.values.flatMap Binning.steps).filterMap OutputTransform.targets?
    induction bs.byKey.values with
    | nil => rfl
    | cons b rest ih =>
      rw [List.flatMap_cons, List.flatMap_cons, List.map_append, List.filterMap_append,
        b.targets_steps, ih]
  | timeUnit ts =>
    unfold steps assignments
    show (ts.byOutput.entries.map _).map Assignment.targets =
      (ts.byOutput.entries.map _).filterMap OutputTransform.targets?
    rw [List.map_map, List.filterMap_map]
    exact (congrFun List.filterMap_eq_map' ts.byOutput.entries).symm
  | _ => rfl

namespace FlowNode

/-- The fields that a node writes whatever they were before. -/
def Writes (n : FlowNode) (f : String) : Prop := ∃ a ∈ n.assignments, f ∈ a.targets

/-- The fields that a node hands through: those that it does not write, unless it opens or gathers
rows. -/
def Passes (n : FlowNode) (f : String) : Prop :=
  match n with
  | .source _ | .aggregate _ => False
  | n => ¬n.Writes f

theorem mem_produced_of_writes {n : FlowNode} {f : String} (h : n.Writes f) : f ∈ n.produced := by
  obtain ⟨a, ha, hf⟩ := h
  cases n with
  | formula expr field =>
    unfold assignments at ha
    rw [List.mem_singleton] at ha
    subst ha
    simpa [Assignment.targets, produced] using hf
  | bin bs =>
    obtain ⟨b, hb, ha⟩ := List.mem_flatMap.1 ha
    unfold produced Binnings.produced
    rw [OrderedSet.mem_ofList]
    exact List.mem_flatMap.2 ⟨b, hb, Binning.targets_assignments ha f hf⟩
  | timeUnit ts =>
    obtain ⟨e, he, rfl⟩ := List.mem_map.1 ha
    unfold produced Truncations.produced
    rw [OrderedSet.mem_ofList]
    obtain rfl : f = e.1 := by simpa [Assignment.targets] using hf
    exact List.mem_map_of_mem he
  | source s => simp [assignments] at ha
  | filter f => simp [assignments] at ha
  | aggregate g => simp [assignments] at ha
  | output o => simp [assignments] at ha

theorem readsOnly_assignments (n : FlowNode) :
    Assignment.ReadsOnly (· ∈ n.dependent) n.assignments := by
  cases n with
  | formula expr field =>
    refine ⟨fun f hf => ?_, trivial⟩
    show f ∈ (Text.expressionFields expr).toList
    simpa [Assignment.reads, FieldOp.reads] using hf
  | bin bs =>
    have hall : ∀ b ∈ bs.byKey.values, b.field ∈ (FlowNode.bin bs).dependent := by
      intro b hb
      unfold dependent Binnings.dependent
      rw [OrderedSet.mem_ofList]
      exact List.mem_map_of_mem hb
    rw [assignments]
    revert hall
    generalize (FlowNode.bin bs).dependent = known
    induction bs.byKey.values with
    | nil => exact fun _ => trivial
    | cons b rest ih =>
      intro hall
      rw [List.flatMap_cons]
      refine (b.readsOnly_assignments.mono ?_).append (ih fun b' hb' => hall b' (by simp [hb']))
      rintro f rfl
      exact hall b (by simp)
  | timeUnit ts =>
    have hall : ∀ e ∈ ts.byOutput.entries, e.2.field ∈ (FlowNode.timeUnit ts).dependent := by
      intro e he
      unfold dependent Truncations.dependent
      rw [OrderedSet.mem_ofList]
      exact List.mem_map_of_mem (List.mem_map_of_mem he)
    rw [assignments]
    revert hall
    generalize (FlowNode.timeUnit ts).dependent = known
    induction ts.byOutput.entries with
    | nil => exact fun _ => trivial
    | cons e rest ih =>
      intro hall
      refine ⟨fun f hf => ?_, (ih fun e' he' => hall e' (by simp [he'])).mono fun _ => Or.inl⟩
      obtain rfl : f = e.2.field := by simpa [Assignment.reads, FieldOp.reads] using hf
      exact hall e (by simp)
  | source s => trivial
  | filter f => trivial
  | aggregate g => trivial
  | output o => trivial

end FlowNode

/-! ## One node -/

namespace FlowNode

theorem isRowWise_of_rises {n : FlowNode} (h : n.rises = true) :
    ∀ a ∈ n.assignments, ∀ e ∈ a, e.2.isRowWise = true := by
  intro a ha e he
  cases n with
  | formula expr field =>
    unfold assignments at ha
    rw [List.mem_singleton] at ha
    subst ha
    rw [List.mem_singleton.1 he]
    rfl
  | timeUnit ts =>
    obtain ⟨t, -, rfl⟩ := List.mem_map.1 ha
    rw [List.mem_singleton.1 he]
    rfl
  | _ => cases h

end FlowNode

namespace Meaning

variable {V : Type} {m : Meaning V}

theorem foldl_assign_agree {as : List Assignment} :
    ∀ {wanted : String → Prop} {rs ss : List (Row V)}, Row.AgreeOn wanted rs ss →
      Assignment.ReadsOnly wanted as →
      Row.AgreeOn (fun f => wanted f ∨ ∃ a ∈ as, f ∈ a.targets)
        (as.foldl m.assign rs) (as.foldl m.assign ss) := by
  induction as with
  | nil => exact fun h _ => h.mono fun f hf => by simpa using hf
  | cons a rest ih =>
    intro wanted rs ss h hreads
    apply (ih (assign_agree h hreads.1) hreads.2).mono
    intro f hf
    rcases hf with hw | ⟨b, hb, hf⟩
    · exact Or.inl (Or.inl hw)
    · rcases List.mem_cons.1 hb with rfl | hb
      · exact Or.inl (Or.inr hf)
      · exact Or.inr ⟨b, hb, hf⟩

theorem foldl_assign_unwritten (as : List Assignment) (rows : List (Row V)) :
    Row.AgreeOn (fun f => ∀ a ∈ as, f ∉ a.targets) (as.foldl m.assign rows) rows := by
  induction as generalizing rows with
  | nil => exact .refl _ _
  | cons a rest ih =>
    rw [List.foldl_cons]
    apply ((ih _).mono fun f hf b hb => hf b (by simp [hb])).trans
    exact (assign_unwritten rows).mono fun f hf => hf a (by simp)

theorem act_of_disposable {n : FlowNode} (h : n.isDisposable = true) (rows : List (Row V)) :
    m.act n rows = n.assignments.foldl m.assign rows := by
  cases n <;> first | rfl | cases h

/-- Rows that agree on what a node reads agree behind it on what it makes, and on what it hands
through if they did so before. -/
theorem act_agree {n : FlowNode} {wanted : String → Prop} {rs ss : List (Row V)}
    (h : Row.AgreeOn wanted rs ss) (hreads : ∀ f ∈ n.dependent, wanted f) :
    Row.AgreeOn (fun f => n.Passes f → wanted f) (m.act n rs) (m.act n ss) := by
  have hassign : Row.AgreeOn (fun f => ¬n.Writes f → wanted f)
      (n.assignments.foldl m.assign rs) (n.assignments.foldl m.assign ss) := by
    apply (foldl_assign_agree h (n.readsOnly_assignments.mono hreads)).mono
    intro f hf
    by_cases hw : n.Writes f
    · exact Or.inr hw
    · exact Or.inl (hf hw)
  cases n with
  | source s => exact .refl _ _
  | aggregate g =>
    have honly : rs.map (Row.only g.dependent) = ss.map (Row.only g.dependent) := h.only_eq hreads
    rw [act, act, honly]
    exact .refl _ _
  | filter p =>
    refine Row.AgreeOn.mono (h.filter fun r s hrs => ?_) fun f hf => hf (by simp [FlowNode.Passes,
      FlowNode.Writes, FlowNode.assignments])
    have honly : r.only p.fields = s.only p.fields := Row.only_congr fun f hf => hrs f (hreads f hf)
    rw [honly]
  | output o => exact hassign
  | formula expr field => exact hassign
  | bin bs => exact hassign
  | timeUnit ts => exact hassign

/-- A node that assigns leaves the other fields alone. -/
theorem act_unwritten {n : FlowNode} (h : n.isDisposable = true) (rows : List (Row V)) :
    Row.AgreeOn (fun f => ¬n.Writes f) (m.act n rows) rows := by
  rw [act_of_disposable h]
  exact (foldl_assign_unwritten _ rows).mono fun f hf a ha ht => hf ⟨a, ha, ht⟩

/-! ## The way down -/

/-- The rows that a node receives. -/
def rowsAbove (m : Meaning V) (g : Flow) (id : Nat) : List (Row V) :=
  (g.parent? id).elim [] (m.rowsAt g)

variable {g : Flow}

theorem rowsAbove_of_parent {id p : Nat} (h : g.parent? id = some p) :
    m.rowsAbove g id = m.rowsAt g p := by
  unfold rowsAbove
  rw [h]
  rfl

/-- A node makes its rows of those that it receives. -/
theorem rowsAt_eq (hg : g.IsForest) {id : Nat} {n : FlowNode} (hn : g.node? id = some n) :
    m.rowsAt g id = m.act n (m.rowsAbove g id) := by
  cases hp : g.parent? id with
  | none =>
    unfold rowsAt rowsAbove
    rw [Flow.trail_of_top hp, hp, hn]
    rfl
  | some p =>
    unfold rowsAt
    rw [rowsAbove_of_parent hp, hg.trail_of_parent hp, List.foldl_append, hn]
    rfl

end Meaning

end ChartCompiler
