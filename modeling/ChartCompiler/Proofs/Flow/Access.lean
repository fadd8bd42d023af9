import ChartCompiler.Proofs.Flow.Joins
import ChartCompiler.Proofs.Flow.Planting

/-!
# Reading within a node

A node of several binnings or truncations is a list of parts, of which one may read what another in
front of it writes. Joined nodes put the parts of the second behind those of the first. Under a
common key the part of the first counts, and if the two have different names, those of the second
are lost.

Results:

* `Access.Supplied`: the parts of a node find their fields above it or in front of them.
* `Disputed`: the output fields of binnings that share a key, but not their names.
* `MadeFrom.produced_merge`, `MadeFrom.served_merge`: a joined node writes what both nodes write, up
  to disputed fields, and finds what both read.
-/

namespace ChartCompiler

/-- What a part of a node reads and writes. -/
structure Access where
  field : String
  outputs : List String

namespace Access

/-- Whether each part finds its field among the known ones, or among those written in front of
it. -/
def Supplied (known : String → Prop) : List Access → Prop
  | [] => True
  | a :: rest => known a.field ∧ Supplied (fun f => known f ∨ f ∈ a.outputs) rest

variable {as bs : List Access} {known more : String → Prop}

theorem Supplied.mono (h : Supplied known as)
    (hsub : ∀ a ∈ as, known a.field → more a.field) : Supplied more as := by
  induction as generalizing known more with
  | nil => trivial
  | cons a rest ih =>
    refine ⟨hsub a (by simp) h.1, ih h.2 fun b hb hk => ?_⟩
    exact hk.imp_left (hsub b (by simp [hb]))

theorem Supplied.of_known (h : ∀ a ∈ as, known a.field) : Supplied known as := by
  induction as generalizing known with
  | nil => trivial
  | cons a rest ih => exact ⟨h a (by simp), ih fun b hb => Or.inl (h b (by simp [hb]))⟩

theorem Supplied.append (ha : Supplied known as)
    (hb : Supplied (fun f => known f ∨ ∃ a ∈ as, f ∈ a.outputs) bs) :
    Supplied known (as ++ bs) := by
  induction as generalizing known with
  | nil => exact hb.mono fun b _ h => h.resolve_right (by simp)
  | cons a rest ih =>
    refine ⟨ha.1, ih ha.2 (hb.mono fun b _ h => ?_)⟩
    simpa only [List.exists_mem_cons_iff, or_assoc] using h

/-- What is read is known or written. -/
theorem Supplied.reads (h : Supplied known as) :
    ∀ a ∈ as, known a.field ∨ ∃ b ∈ as, a.field ∈ b.outputs := by
  induction as generalizing known with
  | nil => simp
  | cons a rest ih =>
    intro b hb
    rcases List.mem_cons.1 hb with rfl | hb
    · exact Or.inl h.1
    · simpa only [List.exists_mem_cons_iff, or_assoc] using ih h.2 b hb

section Map

variable {α : Type} {l : List α} {φ ψ : α → Access}

/-- Parts may write more. -/
theorem Supplied.map_grow (h : Supplied known (l.map φ))
    (hgrow : ∀ x ∈ l, (ψ x).field = (φ x).field ∧ ∀ f ∈ (φ x).outputs, f ∈ (ψ x).outputs) :
    Supplied known (l.map ψ) := by
  induction l generalizing known with
  | nil => trivial
  | cons x rest ih =>
    obtain ⟨hfield, houtputs⟩ := hgrow x (by simp)
    refine ⟨hfield ▸ h.1, ih (h.2.mono ?_) fun y hy => hgrow y (by simp [hy])⟩
    exact fun a _ => Or.imp_right (houtputs a.field)

/-- Parts whose outputs are known may be missing. -/
theorem Supplied.map_filter {p : α → Bool} (h : Supplied known (l.map φ))
    (hout : ∀ x ∈ l, p x = false → ∀ f ∈ (φ x).outputs, known f) :
    Supplied known ((l.filter p).map φ) := by
  induction l generalizing known with
  | nil => trivial
  | cons x rest ih =>
    cases hp : p x with
    | true =>
      rw [List.filter_cons_of_pos hp]
      exact ⟨h.1, ih h.2 fun y hy hpy f hf => Or.inl (hout y (by simp [hy]) hpy f hf)⟩
    | false =>
      rw [List.filter_cons_of_neg (by simp [hp])]
      refine ih (h.2.mono fun a _ hk => hk.elim id (hout x (by simp) hp a.field)) ?_
      exact fun y hy => hout y (by simp [hy])

end Map

/-! ## Parts of maps -/

section Merge

variable {α : Type} (access : String → α → Access)

/-- What the entries of a map read and write. -/
def ofMap (m : OrderedMap String α) : List Access := m.entries.map fun e => access e.1 e.2

theorem mem_ofMap {m : OrderedMap String α} {a : Access} :
    a ∈ ofMap access m ↔ ∃ k x, m.get? k = some x ∧ access k x = a := by
  unfold ofMap
  rw [List.mem_map]
  constructor
  · rintro ⟨e, he, rfl⟩
    exact ⟨e.1, e.2, m.mem_entries_iff.1 he, rfl⟩
  · rintro ⟨k, x, hget, rfl⟩
    exact ⟨(k, x), m.mem_entries_iff.2 hget, rfl⟩

/-- Whether what is filled reads what the first part reads, and writes what both write, except for
what is lost of the second. -/
def Fills (lost : String → Prop) (fill : α → α → α) (m n : OrderedMap String α) : Prop :=
  ∀ k a b, m.get? k = some a → n.get? k = some b →
    (access k (fill a b)).field = (access k a).field ∧
      (∀ f ∈ (access k a).outputs, f ∈ (access k (fill a b)).outputs) ∧
      ∀ f ∈ (access k b).outputs, f ∈ (access k (fill a b)).outputs ∨ lost f

variable {access} {lost : String → Prop} {fill : α → α → α} {m n : OrderedMap String α}

/-- Two maps together write what each writes, except for what is lost of the second. -/
theorem Fills.written (hfill : Fills access lost fill m n) {f : String} :
    ((∃ a ∈ ofMap access m, f ∈ a.outputs) →
        ∃ a ∈ ofMap access (m.mergeWith fill n), f ∈ a.outputs) ∧
      ((∃ a ∈ ofMap access n, f ∈ a.outputs) →
        (∃ a ∈ ofMap access (m.mergeWith fill n), f ∈ a.outputs) ∨ lost f) := by
  have hmem : ∀ {k c}, (m.mergeWith fill n).get? k = some c → f ∈ (access k c).outputs →
      ∃ a ∈ ofMap access (m.mergeWith fill n), f ∈ a.outputs := fun hget hf =>
    ⟨_, (mem_ofMap access).2 ⟨_, _, hget, rfl⟩, hf⟩
  constructor
  · rintro ⟨a, ha, hf⟩
    obtain ⟨k, x, hm, rfl⟩ := (mem_ofMap access).1 ha
    cases hn : n.get? k with
    | none => exact hmem (OrderedMap.mergeWith_eq_some_iff.2 (Or.inl ⟨hm, hn⟩)) hf
    | some y =>
      exact hmem (OrderedMap.mergeWith_eq_some_iff.2 (Or.inr (Or.inr ⟨x, y, hm, hn, rfl⟩)))
        ((hfill k x y hm hn).2.1 f hf)
  · rintro ⟨a, ha, hf⟩
    obtain ⟨k, y, hn, rfl⟩ := (mem_ofMap access).1 ha
    cases hm : m.get? k with
    | none => exact Or.inl (hmem (OrderedMap.mergeWith_eq_some_iff.2 (Or.inr (Or.inl ⟨hm, hn⟩))) hf)
    | some x =>
      exact ((hfill k x y hm hn).2.2 f hf).imp_left
        (hmem (OrderedMap.mergeWith_eq_some_iff.2 (Or.inr (Or.inr ⟨x, y, hm, hn, rfl⟩))))

/-- The parts of the second map come behind those of the first, so they may read what these
write. -/
theorem Fills.supplied (hfill : Fills access lost fill m n) (hlost : ∀ f, lost f → known f)
    (hm : Supplied known (ofMap access m))
    (hn : Supplied (fun f => known f ∨ ∃ a ∈ ofMap access m, f ∈ a.outputs) (ofMap access n)) :
    Supplied known (ofMap access (m.mergeWith fill n)) := by
  have hgrow : ∀ e ∈ m.entries,
      (access e.1 ((n.get? e.1).elim e.2 (fill e.2))).field = (access e.1 e.2).field ∧
        ∀ f ∈ (access e.1 e.2).outputs,
          f ∈ (access e.1 ((n.get? e.1).elim e.2 (fill e.2))).outputs := by
    intro e he
    cases hget : n.get? e.1 with
    | none => exact ⟨rfl, fun f hf => hf⟩
    | some b =>
      obtain ⟨hfield, houtputs, -⟩ := hfill e.1 e.2 b (m.mem_entries_iff.1 he) hget
      exact ⟨hfield, houtputs⟩
  rw [ofMap, OrderedMap.entries_mergeWith, List.map_append, List.map_map]
  have hfirst := hm.map_grow hgrow
  refine hfirst.append (Supplied.map_filter (hn.mono fun a _ => Or.imp_right ?_) ?_)
  · rintro ⟨b, hb, hf⟩
    obtain ⟨e, he, rfl⟩ := List.mem_map.1 hb
    exact ⟨_, List.mem_map_of_mem he, (hgrow e he).2 _ hf⟩
  · intro e he hold f hf
    obtain ⟨a, ha⟩ : ∃ a, m.get? e.1 = some a := by
      obtain ⟨d, hd, hkey⟩ := List.mem_map.1 (show e.1 ∈ m.keys by simpa using hold)
      exact ⟨d.2, hkey ▸ m.mem_entries_iff.1 hd⟩
    have hn' := n.mem_entries_iff.1 he
    rcases (hfill e.1 a e.2 ha hn').2.2 f hf with hf | hf
    · refine Or.inr ⟨_, List.mem_map_of_mem (m.mem_entries_iff.2 ha), ?_⟩
      simpa [hn'] using hf
    · exact Or.inl (hlost f hf)

end Merge

end Access

def Binning.access (b : Binning) : Access := ⟨b.field, b.outputs⟩

def Truncation.access (output : String) (t : Truncation) : Access := ⟨t.field, [output]⟩

namespace FlowNode

/-- What the binnings or truncations of a node read and write, in order. -/
def accesses : FlowNode → List Access
  | .bin bs => Access.ofMap (fun _ => Binning.access) bs.byKey
  | .timeUnit ts => Access.ofMap Truncation.access ts.byOutput
  | _ => []

/-- Whether a node finds the fields that it requires among the known ones, or each of its parts
finds its field there or among those written in front of it. -/
def Served (known : String → Prop) : FlowNode → Prop
  | .bin bs => Access.Supplied known (FlowNode.bin bs).accesses
  | .timeUnit ts => Access.Supplied known (FlowNode.timeUnit ts).accesses
  | n => ∀ f ∈ n.required, known f

variable {n k node : FlowNode} {known more : String → Prop} {f : String}

theorem mem_required_of_accesses {a : Access} (ha : a ∈ n.accesses) : a.field ∈ n.required := by
  cases n with
  | bin bs =>
    obtain ⟨e, he, rfl⟩ := List.mem_map.1 ha
    simp only [required, dependent, Binnings.dependent, OrderedSet.mem_ofList]
    exact List.mem_map_of_mem (List.mem_map_of_mem he)
  | timeUnit ts =>
    obtain ⟨e, he, rfl⟩ := List.mem_map.1 ha
    simp only [required, dependent, Truncations.dependent, OrderedSet.mem_ofList]
    exact List.mem_map_of_mem (List.mem_map_of_mem he)
  | _ => cases ha

theorem Served.mono (h : n.Served known) (hsub : ∀ f ∈ n.required, known f → more f) :
    n.Served more := by
  have hparts : Access.Supplied known n.accesses → Access.Supplied more n.accesses := fun h =>
    h.mono fun a ha => hsub a.field (mem_required_of_accesses ha)
  cases n with
  | bin bs => exact hparts h
  | timeUnit ts => exact hparts h
  | _ => exact fun f hf => hsub f hf (h f hf)

theorem Served.of_known (h : ∀ f ∈ n.required, known f) : n.Served known := by
  have hparts : Access.Supplied known n.accesses :=
    .of_known fun a ha => h a.field (mem_required_of_accesses ha)
  cases n with
  | bin bs => exact hparts
  | timeUnit ts => exact hparts
  | _ => exact h

/-- What a served node requires is known or written by a part of it. -/
theorem Served.requires (h : n.Served known) :
    ∀ f ∈ n.required, known f ∨ ∃ a ∈ n.accesses, f ∈ a.outputs := by
  intro f hf
  cases n with
  | bin bs =>
    simp only [required, dependent, Binnings.dependent, OrderedSet.mem_ofList, List.mem_map,
      OrderedMap.values] at hf
    obtain ⟨b, ⟨e, he, rfl⟩, rfl⟩ := hf
    exact Access.Supplied.reads h _ (List.mem_map_of_mem he)
  | timeUnit ts =>
    simp only [required, dependent, Truncations.dependent, OrderedSet.mem_ofList, List.mem_map,
      OrderedMap.values] at hf
    obtain ⟨t, ⟨e, he, rfl⟩, rfl⟩ := hf
    exact Access.Supplied.reads h _ (List.mem_map_of_mem he)
  | _ => exact Or.inl (h f hf)

theorem mem_produced_bin {bs : Binnings} :
    f ∈ (FlowNode.bin bs).produced ↔ ∃ a ∈ (FlowNode.bin bs).accesses, f ∈ a.outputs := by
  simp only [produced, Binnings.produced, OrderedSet.mem_ofList, accesses, Access.ofMap,
    OrderedMap.values, List.mem_flatMap, List.mem_map, exists_exists_and_eq_and]
  rfl

theorem mem_produced_timeUnit {ts : Truncations} :
    f ∈ (FlowNode.timeUnit ts).produced ↔ ∃ a ∈ (FlowNode.timeUnit ts).accesses, f ∈ a.outputs := by
  simp [produced, Truncations.produced, accesses, Access.ofMap, Truncations.keys, OrderedMap.keys,
    Truncation.access, eq_comm]

end FlowNode

namespace Flow

/-! ## Names of binnings -/

/-- A binning of a graph, under its key. -/
def Bins (g : Flow) (key : String) (b : Binning) : Prop :=
  ∃ id bs, g.node? id = some (.bin bs) ∧ bs.byKey.get? key = some b

/-- The output fields of binnings that share a key, but not their names. -/
def Disputed (g : Flow) (f : String) : Prop :=
  ∃ key b c, g.Bins key b ∧ g.Bins key c ∧ f ∈ c.outputs ∧
    ¬(b.start = c.start ∧ b.stop = c.stop ∧ ∀ x ∈ b.labelField, ∀ y ∈ c.labelField, x = y)

end Flow

/-- A binning that is made of others of one key: its names are theirs. -/
structure Binning.MadeFrom (g : Flow) (key : String) (b : Binning) : Prop where
  ends : ∃ c, g.Bins key c ∧ c.start = b.start ∧ c.stop = b.stop
  labelled : b.Labelled
  label : ∀ f ∈ b.labelField, ∃ c, g.Bins key c ∧ f ∈ c.labelField

/-- A node whose binnings are made of those of a graph. -/
def FlowNode.MadeFrom (g : Flow) : FlowNode → Prop
  | .bin bs => ∀ key b, bs.byKey.get? key = some b → b.MadeFrom g key
  | _ => True

namespace Binning

variable {g : Flow} {key : String} {b c : Binning}

theorem mem_outputs {f : String} :
    f ∈ b.outputs ↔ f = b.start ∨ f = b.stop ∨ b.labelField = some f := by
  simp [outputs]

theorem MadeFrom.fill (hb : b.MadeFrom g key) (hc : c.MadeFrom g key) :
    (b.fill c).MadeFrom g key := by
  refine ⟨hb.ends, hb.labelled.fill hc.labelled, fun f hf => ?_⟩
  cases hlabel : b.label with
  | none => exact hc.label f (by simpa [Binning.fill, hlabel] using hf)
  | some expr => exact hb.label f (by simpa [Binning.fill, hlabel] using hf)

/-- A binning that is filled writes all that it wrote. -/
theorem MadeFrom.outputs_fill (hb : b.MadeFrom g key) {f : String} (hf : f ∈ b.outputs) :
    f ∈ (b.fill c).outputs := by
  rw [mem_outputs] at hf ⊢
  refine hf.imp_right (Or.imp_right fun hlabel => ?_)
  have hsome : b.label.isSome = true := Eq.trans hb.labelled (by rw [hlabel, Option.isSome_some])
  rw [Binning.fill, if_pos hsome, hlabel]

/-- The names of a binning that another is filled from are those of that one, or disputed. -/
theorem MadeFrom.outputs_filled (hb : b.MadeFrom g key) (hc : c.MadeFrom g key) {f : String}
    (hf : f ∈ c.outputs) : f ∈ (b.fill c).outputs ∨ g.Disputed f := by
  obtain ⟨b', hb', hbstart, hbstop⟩ := hb.ends
  obtain ⟨c', hc', hcstart, hcstop⟩ := hc.ends
  have hends : f = c.start ∨ f = c.stop → f ∈ (b.fill c).outputs ∨ g.Disputed f := by
    intro hf
    by_cases hsame : b'.start = c'.start ∧ b'.stop = c'.stop
    · rw [hbstart, hcstart, hbstop, hcstop] at hsame
      rw [← hsame.1, ← hsame.2] at hf
      exact Or.inl (mem_outputs.2 (or_assoc.1 (Or.inl hf)))
    · rw [← hcstart, ← hcstop] at hf
      exact Or.inr ⟨key, b', c', hb', hc', mem_outputs.2 (or_assoc.1 (Or.inl hf)),
        fun h => hsame ⟨h.1, h.2.1⟩⟩
  rcases mem_outputs.1 hf with hf | hf | hlabel
  · exact hends (Or.inl hf)
  · exact hends (Or.inr hf)
  cases hfield : b.labelField with
  | none =>
    have hlabelled : b.label.isSome = b.labelField.isSome := hb.labelled
    have hnone : ¬b.label.isSome = true := by simp [hlabelled, hfield]
    refine Or.inl (mem_outputs.2 (Or.inr (Or.inr ?_)))
    rw [Binning.fill, if_neg hnone, hlabel]
  | some e =>
    obtain ⟨b'', hb'', hbe⟩ := hb.label e hfield
    obtain ⟨c'', hc'', hcf⟩ := hc.label f hlabel
    by_cases hef : e = f
    · exact Or.inl (hb.outputs_fill (mem_outputs.2 (Or.inr (Or.inr (hef ▸ hfield)))))
    · exact Or.inr ⟨key, b'', c'', hb'', hc'', mem_outputs.2 (Or.inr (Or.inr hcf)),
        fun h => hef (h.2.2 e hbe f hcf)⟩

end Binning

namespace FlowNode

variable {g : Flow} {n k node : FlowNode}

theorem MadeFrom.merge (hm : n.merge? k = some node) (hn : n.MadeFrom g) (hk : k.MadeFrom g) :
    node.MadeFrom g := by
  rcases merge?_cases hm with ⟨bs, cs, rfl, rfl, rfl⟩ | ⟨ts, us, rfl, rfl, rfl⟩
  · intro key d hget
    rcases OrderedMap.mergeWith_eq_some_iff.1 hget with ⟨h, -⟩ | ⟨-, h⟩ | ⟨b, c, hb, hc, rfl⟩
    · exact hn key d h
    · exact hk key d h
    · exact (hn key b hb).fill (hk key c hc)
  · trivial

theorem MadeFrom.fills_bin {bs cs : Binnings} (hn : (FlowNode.bin bs).MadeFrom g)
    (hk : (FlowNode.bin cs).MadeFrom g) :
    Access.Fills (fun _ => Binning.access) g.Disputed Binning.fill bs.byKey cs.byKey :=
  fun key b c hb hc => ⟨rfl, fun _ => (hn key b hb).outputs_fill,
    fun _ => (hn key b hb).outputs_filled (hk key c hc)⟩

theorem fills_timeUnit (lost : String → Prop) (ts us : Truncations) :
    Access.Fills Truncation.access lost (fun old _ => old) ts.byOutput us.byOutput :=
  fun _ _ _ _ _ => ⟨rfl, fun _ hf => hf, fun _ => Or.inl⟩

/-- A joined node writes what both wrote, up to disputed fields. -/
theorem MadeFrom.produced_merge (hm : n.merge? k = some node) (hn : n.MadeFrom g)
    (hk : k.MadeFrom g) {f : String} :
    (f ∈ n.produced → f ∈ node.produced) ∧ (f ∈ k.produced → f ∈ node.produced ∨ g.Disputed f) := by
  rcases merge?_cases hm with ⟨bs, cs, rfl, rfl, rfl⟩ | ⟨ts, us, rfl, rfl, rfl⟩
  · simp only [mem_produced_bin]
    exact (hn.fills_bin hk).written
  · simp only [mem_produced_timeUnit]
    exact (fills_timeUnit g.Disputed ts us).written

/-- A joined node is served if one node was and the other was too, with what the first writes. -/
theorem MadeFrom.served_merge (hm : n.merge? k = some node) (hn : n.MadeFrom g)
    (hk : k.MadeFrom g) {known : String → Prop} (hdisputed : ∀ f, g.Disputed f → known f)
    (hserved : n.Served known) (hserved' : k.Served fun f => known f ∨ f ∈ n.produced) :
    node.Served known := by
  rcases merge?_cases hm with ⟨bs, cs, rfl, rfl, rfl⟩ | ⟨ts, us, rfl, rfl, rfl⟩
  · refine (hn.fills_bin hk).supplied hdisputed hserved ?_
    exact Access.Supplied.mono hserved' fun a _ => Or.imp_right mem_produced_bin.1
  · refine (fills_timeUnit g.Disputed ts us).supplied hdisputed hserved ?_
    exact Access.Supplied.mono hserved' fun a _ => Or.imp_right mem_produced_timeUnit.1

end FlowNode

end ChartCompiler
