import ChartCompiler.Proofs.Flow.Rows

/-!
# Terms

What fields hold behind nodes that assign, told without rows: a term over the fields that come in.
Two nodes write the same into a field under every meaning iff their terms for it are the same.

Results:

* `FlowNode.terms`: the terms of the fields behind a node.
* `act_map_evalRow`: rows behind a node hold what the terms say.
* `terms_eq_iff_act`, `terms_eq_iff_act_act`: equal terms are equal columns under every meaning.
-/

namespace ChartCompiler

/-- What a field holds. -/
inductive Term where
  /-- What an incoming field holds. -/
  | incoming (field : String)
  /-- Nothing, as in a field that an expression does not read. -/
  | absent
  | value (expr : String) (args : String → Term)
  | start (params : BinParams) (computed : Bool) (arg : Term)
  | stop (params : BinParams) (computed : Bool) (arg : Term)

namespace Term

variable {V : Type}

/-- What a term stands for in one of some rows. -/
def eval (m : Meaning V) (rows : List (Row V)) : Term → Row V → Option V
  | .incoming f, r => r f
  | .absent, _ => none
  | .value expr args, r => some (m.value expr fun f => (args f).eval m rows r)
  | .start params computed arg, r =>
    let column := if computed then some (rows.map (arg.eval m rows)) else none
    some (m.ends params column (arg.eval m rows r)).1
  | .stop params computed arg, r =>
    let column := if computed then some (rows.map (arg.eval m rows)) else none
    some (m.ends params column (arg.eval m rows r)).2

/-- The row of what some terms stand for. -/
def evalRow (m : Meaning V) (rows : List (Row V)) (env : String → Term) (r : Row V) : Row V :=
  fun f => (env f).eval m rows r

theorem evalRow_incoming (m : Meaning V) (rows : List (Row V)) :
    evalRow m rows incoming = id := rfl

end Term

/-- The term of a computed field, over those of the fields that it is computed from. -/
def FieldOp.term (env : String → Term) : FieldOp → Term
  | .value expr reads => .value expr fun f => if f ∈ reads then env f else .absent
  | .start params computed field => .start params computed (env field)
  | .stop params computed field => .stop params computed (env field)

/-- The terms of the fields after an assignment. -/
def Assignment.terms (env : String → Term) (a : Assignment) : String → Term := fun f =>
  match a.lookup f with
  | some op => op.term env
  | none => env f

theorem FieldOp.term_congr {env env' : String → Term} {op : FieldOp}
    (h : ∀ f ∈ op.reads, env f = env' f) : op.term env = op.term env' := by
  cases op with
  | value expr reads =>
    rw [term, term]
    congr 1
    funext f
    by_cases hf : f ∈ reads
    · rw [if_pos hf, if_pos hf, h f hf]
    · rw [if_neg hf, if_neg hf]
  | start params computed field =>
    have hfield : env field = env' field := h field (by simp [reads])
    rw [term, term, hfield]
  | stop params computed field =>
    have hfield : env field = env' field := h field (by simp [reads])
    rw [term, term, hfield]

/-- The terms of the fields behind a node that assigns. -/
def FlowNode.terms (n : FlowNode) (env : String → Term) : String → Term :=
  n.assignments.foldl Assignment.terms env

namespace Meaning

variable {V : Type} {m : Meaning V}

theorem result_map_evalRow (rows : List (Row V)) (env : String → Term) (r : Row V) (op : FieldOp) :
    some (m.result (rows.map (Term.evalRow m rows env)) (Term.evalRow m rows env r) op) =
      (op.term env).eval m rows r := by
  have hcolumn : ∀ f : String, (rows.map (Term.evalRow m rows env)).map (· f) =
      rows.map ((env f).eval m rows) := by
    intro f
    rw [List.map_map]
    rfl
  cases op with
  | value expr reads =>
    have honly : (Term.evalRow m rows env r).only (.ofList reads) =
        fun f => (if f ∈ reads then env f else Term.absent).eval m rows r := by
      funext f
      by_cases hf : f ∈ reads
      · simp only [Row.only, OrderedSet.mem_ofList, hf, if_true]
        rfl
      · simp only [Row.only, OrderedSet.mem_ofList, hf, if_false]
        rfl
    rw [result, honly]
    rfl
  | start params computed field =>
    rw [result, hcolumn]
    rfl
  | stop params computed field =>
    rw [result, hcolumn]
    rfl

theorem assign_map_evalRow (rows : List (Row V)) (env : String → Term) (a : Assignment) :
    m.assign (rows.map (Term.evalRow m rows env)) a =
      rows.map (Term.evalRow m rows (a.terms env)) := by
  unfold assign
  rw [List.map_map]
  apply List.map_congr_left
  intro r _
  funext f
  show m.written _ a (Term.evalRow m rows env r) f = (a.terms env f).eval m rows r
  cases hl : a.lookup f with
  | none => simp only [written, Assignment.terms, hl, Term.evalRow]
  | some op =>
    simp only [written, Assignment.terms, hl]
    exact result_map_evalRow rows env r op

/-- The rows behind a node that assigns hold what the terms say. -/
theorem act_map_evalRow {n : FlowNode} (hn : n.isDisposable = true) (rows : List (Row V))
    (env : String → Term) :
    m.act n (rows.map (Term.evalRow m rows env)) = rows.map (Term.evalRow m rows (n.terms env)) := by
  rw [act_of_disposable hn, FlowNode.terms]
  generalize n.assignments = as
  induction as generalizing env with
  | nil => rfl
  | cons a rest ih =>
    rw [List.foldl_cons, List.foldl_cons, assign_map_evalRow]
    exact ih _

theorem act_eq_terms {n : FlowNode} (hn : n.isDisposable = true) (rows : List (Row V)) :
    m.act n rows = rows.map (Term.evalRow m rows (n.terms .incoming)) := by
  have h := act_map_evalRow (m := m) hn rows .incoming
  rwa [Term.evalRow_incoming, List.map_id] at h

end Meaning

/-! ## The meaning that tells all terms apart -/

namespace Term

/-- The meaning by which every value is the term that it was made by. -/
def ofItself : Meaning Term where
  opening _ := []
  value expr args := .value expr fun f => (args f).getD .absent
  accepts _ _ := true
  ends params column arg :=
    (.start params column.isSome (arg.getD .absent), .stop params column.isSome (arg.getD .absent))
  gather _ rows := rows

/-- A term stands for itself. -/
theorem eval_ofItself (t : Term) :
    (t.eval ofItself [fun f => some (.incoming f)] fun f => some (.incoming f)).getD .absent = t := by
  induction t with
  | incoming f => rfl
  | absent => rfl
  | value expr args ih =>
    show Term.value expr _ = _
    congr 1
    funext f
    exact ih f
  | start params computed arg ih =>
    show Term.start params _ _ = _
    rw [ih]
    cases computed <;> rfl
  | stop params computed arg ih =>
    show Term.stop params _ _ = _
    rw [ih]
    cases computed <;> rfl

end Term

/-- Terms are the same iff rows of what they stand for agree under every meaning. -/
theorem terms_eq_iff {wanted : String → Prop} {env env' : String → Term} :
    (∀ f, wanted f → env f = env' f) ↔ ∀ (V : Type) (m : Meaning V) (rows : List (Row V)),
      Row.AgreeOn wanted (rows.map (Term.evalRow m rows env))
        (rows.map (Term.evalRow m rows env')) := by
  constructor
  · intro h V m rows
    unfold Row.AgreeOn
    rw [List.forall₂_map_left_iff, List.forall₂_map_right_iff]
    apply List.forall₂_same.2
    intro r _ f hf
    unfold Term.evalRow
    rw [h f hf]
  · intro h f hf
    obtain ⟨hone, -⟩ := List.forall₂_cons.1 (h Term Term.ofItself [fun f => some (.incoming f)])
    rw [← (env f).eval_ofItself, ← (env' f).eval_ofItself]
    exact congrArg (·.getD .absent) (hone f hf)

section Nodes

variable {wanted : String → Prop} {n k node : FlowNode} (hn : n.isDisposable = true)
  (hnode : node.isDisposable = true)

include hn hnode

/-- Nodes that assign write the same into some fields, whatever the meaning and the rows, iff their
terms for these are the same. -/
theorem terms_eq_iff_act :
    (∀ f, wanted f → node.terms .incoming f = n.terms .incoming f) ↔
      ∀ (V : Type) (m : Meaning V) (rows : List (Row V)),
        Row.AgreeOn wanted (m.act node rows) (m.act n rows) := by
  simp only [Meaning.act_eq_terms hn, Meaning.act_eq_terms hnode]
  exact terms_eq_iff

theorem terms_eq_iff_act_act (hk : k.isDisposable = true) :
    (∀ f, wanted f → node.terms .incoming f = k.terms (n.terms .incoming) f) ↔
      ∀ (V : Type) (m : Meaning V) (rows : List (Row V)),
        Row.AgreeOn wanted (m.act node rows) (m.act k (m.act n rows)) := by
  simp only [Meaning.act_eq_terms hn, Meaning.act_eq_terms hnode, Meaning.act_map_evalRow hk]
  exact terms_eq_iff

end Nodes

end ChartCompiler
