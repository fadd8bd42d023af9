import ChartCompiler.Proofs.Flow.Rewriting
import ChartCompiler.Proofs.Flow.Terms
import ChartCompiler.Proofs.OrderedMap

/-!
# Joined nodes

When a joined node writes what its two nodes wrote. A binning or a truncation is a part of its node:
it reads one field and writes some. Parts under one key are taken for the same, and parts change
their order when nodes are joined. So it takes that parts under one key are the same, that none
reads what one writes, and that those that write one field agree about it.

Results:

* `FlowNode.parts`: the parts of a node.
* `terms_of_tidy`: a part of tidy ones writes the same wherever it stands.
* `terms_merge`: a joined node does what its two nodes do one after the other.
* `terms_merge_left`, `terms_merge_right`: what each of the two writes, the joined node writes.
-/

namespace ChartCompiler

/-- A binning or a truncation in its node: the field that it reads, and what it writes. -/
structure Part where
  field : String
  assignments : List Assignment

namespace Part

def Writes (p : Part) (f : String) : Prop := ∃ a ∈ p.assignments, f ∈ a.targets

/-- The terms of the fields behind a part. -/
def terms (env : String → Term) (p : Part) : String → Term :=
  p.assignments.foldl Assignment.terms env

/-- Whether a part reads only its field, and what it has written itself. -/
def Proper (p : Part) : Prop := Assignment.ReadsOnly (· = p.field) p.assignments

/-- Whether a part is one of two, and the one that writes more. -/
def Covers (r p q : Part) : Prop :=
  (r = p ∧ ∀ f, q.Writes f → p.Writes f) ∨ (r = q ∧ ∀ f, p.Writes f → q.Writes f)

theorem Covers.writes {r p q : Part} (h : r.Covers p q) {f : String} (hf : p.Writes f ∨ q.Writes f) :
    r.Writes f := by
  rcases h with ⟨rfl, hsub⟩ | ⟨rfl, hsub⟩
  · exact hf.elim id (hsub f)
  · exact hf.elim (hsub f) id

end Part

namespace Binning

def part (b : Binning) : Part := ⟨b.field, b.assignments⟩

/-- Whether two binnings differ at most in that one has a label, so that the first, filled from the
second, does what both do. -/
def SameBins (b c : Binning) : Prop :=
  b.field = c.field ∧ b.ends = c.ends ∧ (b.label = none ∨ c.labels = [] ∨ c.labels = b.labels)

end Binning

def Truncation.part (output : String) (t : Truncation) : Part :=
  ⟨t.field, [[(output, .value t.expr [t.field])]]⟩

/-- The parts that the entries of a map stand for. -/
def partsOf {α : Type} (part : String → α → Part) (m : OrderedMap String α) : List Part :=
  m.entries.map fun e => part e.1 e.2

namespace FlowNode

def parts : FlowNode → List Part
  | .bin bs => partsOf (fun _ => Binning.part) bs.byKey
  | .timeUnit ts => partsOf Truncation.part ts.byOutput
  | _ => []

/-- Whether nodes that join have the same under common keys. -/
def SameOnKeys : FlowNode → FlowNode → Prop
  | .bin bs, .bin cs =>
    ∀ key b c, bs.byKey.get? key = some b → cs.byKey.get? key = some c → b.SameBins c
  | .timeUnit ts, .timeUnit us =>
    ∀ output t u, ts.byOutput.get? output = some t → us.byOutput.get? output = some u → t = u
  | _, _ => True

end FlowNode

/-- Parts of which none reads what one writes, and which agree about the fields that several of them
write. -/
def Tidy (ps : List Part) : Prop :=
  ∀ p ∈ ps, ∀ q ∈ ps, ¬q.Writes p.field ∧
    ∀ f, p.Writes f → q.Writes f → ∀ env, p.terms env f = q.terms env f

/-! ## Several assignments -/

section Assignments

variable {as : List Assignment} {env env' : String → Term} {f : String}

theorem foldl_terms_unwritten (h : ∀ a ∈ as, f ∉ a.targets) :
    as.foldl Assignment.terms env f = env f := by
  induction as generalizing env with
  | nil => rfl
  | cons a rest ih =>
    rw [List.foldl_cons, ih fun b hb => h b (by simp [hb]), Assignment.terms,
      Meaning.lookup_eq_none_of_notMem (h a (by simp))]

theorem foldl_terms_congr {known : String → Prop} (hreads : Assignment.ReadsOnly known as)
    (henv : ∀ x, known x → env x = env' x) (hf : known f ∨ ∃ a ∈ as, f ∈ a.targets) :
    as.foldl Assignment.terms env f = as.foldl Assignment.terms env' f := by
  induction as generalizing env env' known with
  | nil => exact henv f (hf.resolve_right (by simp))
  | cons a rest ih =>
    rw [List.foldl_cons, List.foldl_cons]
    refine ih hreads.2 (fun x hx => ?_) ?_
    · cases hl : a.lookup x with
      | none =>
        have hk : known x := hx.resolve_right fun ht => by
          obtain ⟨op, hop⟩ := Meaning.mem_targets_iff.1 ht
          simp [hl] at hop
        simp only [Assignment.terms, hl, henv x hk]
      | some op =>
        simp only [Assignment.terms, hl]
        exact FieldOp.term_congr fun y hy =>
          henv y (hreads.1 y (Meaning.mem_reads_of_lookup hl y hy))
    · rcases hf with hk | ⟨b, hb, ht⟩
      · exact Or.inl (Or.inl hk)
      · rcases List.mem_cons.1 hb with rfl | hb
        · exact Or.inl (Or.inr ht)
        · exact Or.inr ⟨b, hb, ht⟩

end Assignments

/-! ## Parts -/

theorem FlowNode.proper_of_mem_parts {n : FlowNode} : ∀ p ∈ n.parts, p.Proper := by
  intro p hp
  cases n with
  | bin bs =>
    obtain ⟨b, -, rfl⟩ := List.mem_map.1 hp
    exact b.2.readsOnly_assignments
  | timeUnit ts =>
    obtain ⟨e, -, rfl⟩ := List.mem_map.1 hp
    exact ⟨by simp [Assignment.reads, FieldOp.reads, Truncation.part], trivial⟩
  | _ => cases hp

section Parts

variable {ps : List Part} {p : Part} {f : String}

theorem terms_of_unwritten (h : ∀ q ∈ ps, ¬q.Writes f) (env : String → Term) :
    ps.foldl Part.terms env f = env f := by
  induction ps generalizing env with
  | nil => rfl
  | cons q rest ih =>
    rw [List.foldl_cons, ih (fun r hr => h r (by simp [hr]))]
    exact foldl_terms_unwritten fun a ha ht => h q (by simp) ⟨a, ha, ht⟩

/-- What a part of tidy ones writes, it writes as if it stood alone. -/
theorem terms_of_tidy (ht : Tidy ps) (hproper : ∀ q ∈ ps, q.Proper) (hp : p ∈ ps)
    (hf : p.Writes f) (env : String → Term) : ps.foldl Part.terms env f = p.terms env f := by
  induction ps generalizing env p with
  | nil => cases hp
  | cons q rest ih =>
    rw [List.foldl_cons]
    by_cases hrest : ∃ r ∈ rest, r.Writes f
    · obtain ⟨r, hr, hrf⟩ := hrest
      have hsub : Tidy rest := fun a ha b hb => ht a (by simp [ha]) b (by simp [hb])
      have hin : r ∈ q :: rest := by simp [hr]
      rw [ih hsub (fun a ha => hproper a (by simp [ha])) hr hrf, (ht p hp r hin).2 f hf hrf]
      refine foldl_terms_congr (hproper r hin) (fun x hx => ?_) (Or.inr hrf)
      rw [hx]
      exact foldl_terms_unwritten fun a ha hax => (ht r hin q (by simp)).1 ⟨a, ha, hax⟩
    · have hnone : ∀ r ∈ rest, ¬r.Writes f := fun r hr hrf => hrest ⟨r, hr, hrf⟩
      rw [terms_of_unwritten hnone]
      rcases List.mem_cons.1 hp with rfl | hp
      · rfl
      · exact absurd hf (hnone p hp)

end Parts

/-! ## Joined nodes -/

/-- A binning that is filled from one of the same bins does what both do. -/
theorem Binning.SameBins.part_fill {b c : Binning} (h : b.SameBins c) :
    (b.fill c).part.Covers b.part c.part := by
  obtain ⟨hfield, hends, hlabels⟩ := h
  have hstart : b.stop = c.stop ∧ b.start = c.start := by
    simp only [ends, List.cons.injEq, Prod.mk.injEq] at hends
    exact ⟨hends.1.1, hends.2.1.1⟩
  have hcomputes : b.params = c.params ∧ b.computesExtent = c.computesExtent := by
    simp only [ends, List.cons.injEq, Prod.mk.injEq, FieldOp.stop.injEq] at hends
    exact ⟨hends.1.2.1, hends.1.2.2.1⟩
  have hfill : (b.fill c).ends = b.ends := by
    have hextent : (b.fill c).computesExtent = b.computesExtent := by
      have hsame := hcomputes.2
      simp only [computesExtent, fill, hcomputes.1] at hsame ⊢
      cases hb : b.extentSignal with
      | none => simpa [hb] using hsame.symm
      | some s => rfl
    simp only [ends, hextent]
    rfl
  cases hb : b.label with
  | none =>
    have hno : b.labels = [] := by simp [labels, hb]
    have hall : (b.fill c).labels = c.labels := by
      simp [labels, fill, hb, hfield, hstart.1, hstart.2]
    refine Or.inr ⟨?_, ?_⟩
    · unfold part assignments
      rw [hfill, hall, hends]
      exact congrArg (Part.mk · _) hfield
    · rintro f ⟨a, ha, hf⟩
      refine ⟨a, ?_, hf⟩
      simp only [part, assignments, hno, hends, List.mem_singleton] at ha
      simp [part, assignments, ha]
  | some expr =>
    have hall : (b.fill c).labels = b.labels := by simp [labels, fill, hb]
    refine Or.inl ⟨?_, ?_⟩
    · unfold part assignments
      rw [hfill, hall]
      rfl
    · rintro f ⟨a, ha, hf⟩
      refine ⟨a, ?_, hf⟩
      simp only [part, assignments, ← hends, List.mem_cons] at ha ⊢
      apply ha.imp_right
      intro hl
      rcases hlabels with hnone | hno | hsame
      · cases hb.symm.trans hnone
      · rw [hno] at hl
        cases hl
      · rwa [hsame] at hl

section Merge

variable {α : Type} (part : String → α → Part)

theorem mem_partsOf {m : OrderedMap String α} {p : Part} :
    p ∈ partsOf part m ↔ ∃ k a, m.get? k = some a ∧ part k a = p := by
  unfold partsOf
  rw [List.mem_map]
  constructor
  · rintro ⟨e, he, rfl⟩
    exact ⟨e.1, e.2, m.mem_entries_iff.1 he, rfl⟩
  · rintro ⟨k, a, hget, rfl⟩
    exact ⟨(k, a), m.mem_entries_iff.2 hget, rfl⟩

variable {fill : α → α → α} {m n : OrderedMap String α}
  (hfill : ∀ k a b, m.get? k = some a → n.get? k = some b →
    (part k (fill a b)).Covers (part k a) (part k b))

include hfill

/-- Two maps together have no other parts than each, if this holds of what is filled. -/
theorem mem_of_mem_partsOf_mergeWith {p : Part} (hp : p ∈ partsOf part (m.mergeWith fill n)) :
    p ∈ partsOf part m ++ partsOf part n := by
  obtain ⟨k, c, hget, rfl⟩ := (mem_partsOf part).1 hp
  rw [List.mem_append, mem_partsOf, mem_partsOf]
  rcases OrderedMap.mergeWith_eq_some_iff.1 hget with ⟨hm, -⟩ | ⟨-, hn⟩ | ⟨a, b, hm, hn, rfl⟩
  · exact Or.inl ⟨k, c, hm, rfl⟩
  · exact Or.inr ⟨k, c, hn, rfl⟩
  · rcases hfill k a b hm hn with ⟨heq, -⟩ | ⟨heq, -⟩
    · exact Or.inl ⟨k, a, hm, heq.symm⟩
    · exact Or.inr ⟨k, b, hn, heq.symm⟩

/-- Two maps together have for each part of either one that writes as much. -/
theorem exists_partsOf_mergeWith {p : Part} (hp : p ∈ partsOf part m ++ partsOf part n) :
    ∃ q ∈ partsOf part (m.mergeWith fill n), ∀ f, p.Writes f → q.Writes f := by
  have hboth : ∀ {k a b}, m.get? k = some a → n.get? k = some b →
      part k (fill a b) ∈ partsOf part (m.mergeWith fill n) ∧
        ∀ f, (part k a).Writes f ∨ (part k b).Writes f → (part k (fill a b)).Writes f := by
    intro k a b hm hn
    refine ⟨(mem_partsOf part).2 ⟨k, _, ?_, rfl⟩, fun f hf => (hfill k a b hm hn).writes hf⟩
    exact OrderedMap.mergeWith_eq_some_iff.2 (Or.inr (Or.inr ⟨a, b, hm, hn, rfl⟩))
  rcases List.mem_append.1 hp with hp | hp
  · obtain ⟨k, a, hm, rfl⟩ := (mem_partsOf part).1 hp
    cases hn : n.get? k with
    | none =>
      refine ⟨part k a, (mem_partsOf part).2 ⟨k, a, ?_, rfl⟩, fun f hf => hf⟩
      exact OrderedMap.mergeWith_eq_some_iff.2 (Or.inl ⟨hm, hn⟩)
    | some b => exact ⟨_, (hboth hm hn).1, fun f hf => (hboth hm hn).2 f (Or.inl hf)⟩
  · obtain ⟨k, b, hn, rfl⟩ := (mem_partsOf part).1 hp
    cases hm : m.get? k with
    | none =>
      refine ⟨part k b, (mem_partsOf part).2 ⟨k, b, ?_, rfl⟩, fun f hf => hf⟩
      exact OrderedMap.mergeWith_eq_some_iff.2 (Or.inr (Or.inl ⟨hm, hn⟩))
    | some a => exact ⟨_, (hboth hm hn).1, fun f hf => (hboth hm hn).2 f (Or.inr hf)⟩

end Merge

/-- A node that joins does what its parts do, one after the other. -/
theorem terms_eq_parts {n k node : FlowNode} (h : n.merge? k = some node) {l : FlowNode}
    (hl : l = n ∨ l = k ∨ l = node) (env : String → Term) :
    l.terms env = l.parts.foldl Part.terms env := by
  have hbin : ∀ bs : Binnings, (FlowNode.bin bs).terms env =
      (FlowNode.bin bs).parts.foldl Part.terms env := by
    intro bs
    rw [FlowNode.terms, FlowNode.assignments, List.foldl_flatMap, OrderedMap.values, List.foldl_map,
      FlowNode.parts, partsOf, List.foldl_map]
    rfl
  have htime : ∀ ts : Truncations, (FlowNode.timeUnit ts).terms env =
      (FlowNode.timeUnit ts).parts.foldl Part.terms env := by
    intro ts
    rw [FlowNode.terms, FlowNode.assignments, List.foldl_map, FlowNode.parts, partsOf,
      List.foldl_map]
    rfl
  rcases merge?_cases h with ⟨bs, cs, rfl, rfl, rfl⟩ | ⟨ts, us, rfl, rfl, rfl⟩
  · rcases hl with rfl | rfl | rfl <;> exact hbin _
  · rcases hl with rfl | rfl | rfl <;> exact htime _

theorem writes_iff_parts {n k node : FlowNode} (h : n.merge? k = some node) {l : FlowNode}
    (hl : l = n ∨ l = k) {f : String} : l.Writes f ↔ ∃ p ∈ l.parts, p.Writes f := by
  have hbin : ∀ bs : Binnings, (FlowNode.bin bs).Writes f ↔
      ∃ p ∈ (FlowNode.bin bs).parts, p.Writes f := by
    intro bs
    simp only [FlowNode.Writes, FlowNode.assignments, OrderedMap.values, List.mem_flatMap,
      List.mem_map, FlowNode.parts, partsOf, Part.Writes]
    constructor
    · rintro ⟨a, ⟨b, ⟨e, he, rfl⟩, ha⟩, hf⟩
      exact ⟨_, ⟨e, he, rfl⟩, a, ha, hf⟩
    · rintro ⟨p, ⟨e, he, rfl⟩, a, ha, hf⟩
      exact ⟨a, ⟨_, ⟨e, he, rfl⟩, ha⟩, hf⟩
  have htime : ∀ ts : Truncations, (FlowNode.timeUnit ts).Writes f ↔
      ∃ p ∈ (FlowNode.timeUnit ts).parts, p.Writes f := by
    intro ts
    simp only [FlowNode.Writes, FlowNode.assignments, List.mem_map, FlowNode.parts, partsOf, Part.Writes]
    constructor
    · rintro ⟨a, ⟨e, he, rfl⟩, hf⟩
      exact ⟨_, ⟨e, he, rfl⟩, _, List.mem_singleton.2 rfl, hf⟩
    · rintro ⟨p, ⟨e, he, rfl⟩, a, ha, hf⟩
      exact ⟨a, ⟨e, he, (List.mem_singleton.1 ha).symm⟩, hf⟩
  rcases merge?_cases h with ⟨bs, cs, rfl, rfl, rfl⟩ | ⟨ts, us, rfl, rfl, rfl⟩
  · rcases hl with rfl | rfl <;> exact hbin _
  · rcases hl with rfl | rfl <;> exact htime _

section Join

variable {n k node : FlowNode} (hm : n.merge? k = some node) (hsame : n.SameOnKeys k)

include hm hsame

/-- A joined node has no other parts than the two nodes, and for each part one that writes as much. -/
theorem parts_merge :
    (∀ p ∈ node.parts, p ∈ n.parts ++ k.parts) ∧
      ∀ p ∈ n.parts ++ k.parts, ∃ q ∈ node.parts, ∀ f, p.Writes f → q.Writes f := by
  rcases merge?_cases hm with ⟨bs, cs, rfl, rfl, rfl⟩ | ⟨ts, us, rfl, rfl, rfl⟩
  · have hfill := fun key b c hb hc => (hsame key b c hb hc).part_fill
    exact ⟨fun p => mem_of_mem_partsOf_mergeWith (fun _ => Binning.part) hfill,
      fun p => exists_partsOf_mergeWith (fun _ => Binning.part) hfill⟩
  · have hfill : ∀ output t u, ts.byOutput.get? output = some t → us.byOutput.get? output = some u →
        (Truncation.part output t).Covers (Truncation.part output t) (Truncation.part output u) := by
      intro output t u ht hu
      obtain rfl : t = u := hsame output t u ht hu
      exact Or.inl ⟨rfl, fun f hf => hf⟩
    exact ⟨fun p => mem_of_mem_partsOf_mergeWith Truncation.part hfill,
      fun p => exists_partsOf_mergeWith Truncation.part hfill⟩

variable (ht : Tidy (n.parts ++ k.parts))

include ht

/-- Joined to its parent, a node does the same. -/
theorem terms_merge (env : String → Term) : node.terms env = k.terms (n.terms env) := by
  obtain ⟨hfrom, hto⟩ := parts_merge hm hsame
  have hproper : ∀ p ∈ n.parts ++ k.parts, p.Proper := fun p hp =>
    (List.mem_append.1 hp).elim (FlowNode.proper_of_mem_parts p) (FlowNode.proper_of_mem_parts p)
  rw [terms_eq_parts hm (Or.inr (Or.inr rfl)), terms_eq_parts hm (Or.inr (Or.inl rfl)),
    terms_eq_parts hm (Or.inl rfl), ← List.foldl_append]
  have htidy : Tidy node.parts := fun p hp q hq => ht p (hfrom p hp) q (hfrom q hq)
  funext f
  by_cases hw : ∃ p ∈ n.parts ++ k.parts, p.Writes f
  · obtain ⟨p, hp, hf⟩ := hw
    obtain ⟨q, hq, hsub⟩ := hto p hp
    rw [terms_of_tidy htidy FlowNode.proper_of_mem_parts hq (hsub f hf),
      terms_of_tidy ht hproper (hfrom q hq) (hsub f hf)]
  · have hnone : ∀ p ∈ n.parts ++ k.parts, ¬p.Writes f := fun p hp hf => hw ⟨p, hp, hf⟩
    rw [terms_of_unwritten hnone, terms_of_unwritten fun p hp => hnone p (hfrom p hp)]

/-- What one of two nodes that join writes, or neither, the joined node writes. -/
theorem terms_merge_of_writes {l : FlowNode} (hl : l = n ∨ l = k) {f : String}
    (hf : n.Writes f ∨ k.Writes f → l.Writes f) (env : String → Term) :
    node.terms env f = l.terms env f := by
  have hproper : ∀ p ∈ n.parts ++ k.parts, p.Proper := fun p hp =>
    (List.mem_append.1 hp).elim (FlowNode.proper_of_mem_parts p) (FlowNode.proper_of_mem_parts p)
  have hsub : ∀ p ∈ l.parts, p ∈ n.parts ++ k.parts := by
    intro p hp
    rcases hl with rfl | rfl
    · exact List.mem_append_left _ hp
    · exact List.mem_append_right _ hp
  have htidy : Tidy l.parts := fun p hp q hq => ht p (hsub p hp) q (hsub q hq)
  have hlk : l = n ∨ l = k ∨ l = node := hl.imp_right Or.inl
  rw [terms_merge hm hsame ht, terms_eq_parts hm (Or.inr (Or.inl rfl)), terms_eq_parts hm (Or.inl rfl),
    ← List.foldl_append, terms_eq_parts hm hlk]
  by_cases hw : l.Writes f
  · obtain ⟨p, hp, hpf⟩ := (writes_iff_parts hm hl).1 hw
    rw [terms_of_tidy ht hproper (hsub p hp) hpf,
      terms_of_tidy htidy FlowNode.proper_of_mem_parts hp hpf]
  · have hno : ∀ p ∈ n.parts ++ k.parts, ¬p.Writes f := by
      intro p hp hpf
      refine hw (hf ?_)
      exact (List.mem_append.1 hp).imp (fun h => (writes_iff_parts hm (Or.inl rfl)).2 ⟨p, h, hpf⟩)
        fun h => (writes_iff_parts hm (Or.inr rfl)).2 ⟨p, h, hpf⟩
    rw [terms_of_unwritten hno, terms_of_unwritten fun p hp => hno p (hsub p hp)]

end Join

end ChartCompiler
